import IotBase.UtHashTable

/-! The loops over all elements of a hash table: `HASH_ITER` and `HASH_FSCK`. -/
namespace IotBase
namespace UtHashWalk
open RawBytes CString BlockHeap DoubleLinks UtHash UtHashBuckets UtHashTable

variable {E : Type} {field : E → Bytes}

section Iter
variable {S : Type} {mem : S → ℕ → Option (Element E)} {body : S → ℕ → Option (Control S)}

theorem nextOf_chain {mem : ℕ → Option (Element E)} {ps : List ℕ}
    (h : Chain (appLinks E).next mem ps.head? ps) : nextOf mem ps.head? = some ps.tail.head? := by
  cases ps with
  | nil => rfl
  | cons p ps =>
    obtain ⟨-,c,hc,hrest⟩ := h
    rw [List.head?_cons,nextOf,hc]
    refine congrArg some ?_
    cases ps with
    | nil => exact hrest
    | cons q qs => exact hrest.1

/-- The rule of `HASH_ITER`: `R` holds of the elements still to come, also after the element at
hand, which may itself have been unlinked and freed. -/
theorem hashIter_spec {R : List ℕ → S → Prop} {Q : S → Prop}
    (hchain : ∀ ps s, R ps s → Chain (appLinks E).next (mem s) ps.head? ps)
    (hbody : ∀ p ps s, R (p::ps) s →
      (∃ s', body s p = some (.next s') ∧ R ps s') ∨ ∃ s', body s p = some (.stop s') ∧ Q s')
    (hend : ∀ s, R [] s → Q s) {ps : List ℕ} {s : S} (h : R ps s) {fuel : ℕ}
    (hfuel : ps.length ≤ fuel) : ∃ s', hashIter mem body fuel s ps.head? = some s' ∧ Q s' := by
  have hloop : ∀ ps fuel s, R ps s → ps.length ≤ fuel →
      ∃ s', hashIterLoop mem body fuel s ps.head? ps.tail.head? = some s' ∧ Q s' := by
    intro ps
    induction ps with
    | nil =>
      intro fuel s h _
      exact ⟨s,by rw [List.head?_nil,hashIterLoop],hend s h⟩
    | cons p ps ih =>
      intro fuel s h hfuel
      obtain ⟨fuel,rfl⟩ : ∃ k, fuel = k+1 := ⟨fuel-1,by simp only [List.length_cons] at hfuel; omega⟩
      rcases hbody p ps s h with ⟨s₁,hnext,h₁⟩ | ⟨s₁,hstop,h₁⟩
      · obtain ⟨s₂,hrest,h₂⟩ := ih fuel s₁ h₁ (Nat.le_of_succ_le_succ hfuel)
        refine ⟨s₂,?_,h₂⟩
        simp only [List.head?_cons,List.tail_cons,hashIterLoop,hnext,nextOf_chain (hchain ps s₁ h₁),
          Option.bind_eq_bind,Option.bind_some]
        exact hrest
      · refine ⟨s₁,?_,h₁⟩
        simp only [List.head?_cons,hashIterLoop,hstop,Option.bind_eq_bind,Option.bind_some]
  obtain ⟨s',hrun,hs'⟩ := hloop ps fuel s h hfuel
  refine ⟨s',?_,hs'⟩
  rw [hashIter,nextOf_chain (hchain ps s h)]
  exact hrun

end Iter

section Check
variable {mem : ℕ → Option (Element E)} {fuel : ℕ}

theorem fsckWalk_spec {L : Links ℕ (Element E)} {before : Option ℕ} {l : List ℕ} (count : UInt32)
    (h : Seg L mem before l none) (hfuel : l.length ≤ fuel) :
    fsckWalk L mem fuel l.head? before count = some (.done (count+UInt32.ofNat l.length)) := by
  induction l generalizing before count fuel with
  | nil =>
    rw [List.head?_nil,fsckWalk]
    exact congrArg (fun n => some (Outcome.done n)) (UInt32.add_zero count).symm
  | cons p ps ih =>
    obtain ⟨⟨c,hc,hprev,hnext⟩,hrest⟩ := h
    obtain ⟨fuel,rfl⟩ : ∃ k, fuel = k+1 := ⟨fuel-1,by simp only [List.length_cons] at hfuel; omega⟩
    rw [Option.or_none] at hnext
    have hcount : count+1+UInt32.ofNat ps.length = count+UInt32.ofNat (p::ps).length := by
      rw [List.length_cons,UInt32.ofNat_add,UInt32.add_assoc]
      exact congrArg (count+·) (UInt32.add_comm _ _)
    simp only [List.head?_cons,fsckWalk,hc,Option.bind_eq_bind,Option.bind_some,if_pos hprev.symm,hnext]
    rw [ih _ hrest (Nat.le_of_succ_le_succ hfuel),hcount]

theorem fsckBuckets_spec {bs : List HashBucket} {cs : List (List ℕ)} (count : UInt32)
    (h : List.Forall₂ (fun b chain => Seg (bktLinks E) mem none chain none ∧
      b.hhHead = chain.head? ∧ b.count = UInt32.ofNat chain.length) bs cs)
    (hfuel : ∀ chain ∈ cs, chain.length ≤ fuel) :
    fsckBuckets fuel mem bs count = some (.done (count+UInt32.ofNat cs.flatten.length)) := by
  induction h generalizing count with
  | nil => exact congrArg (fun n => some (Outcome.done n)) (UInt32.add_zero count).symm
  | @cons b chain bs cs hb _ ih =>
    obtain ⟨hseg,hhead,hcount⟩ := hb
    have hwalk := fsckWalk_spec 0 hseg (hfuel chain List.mem_cons_self)
    have hsum : count+UInt32.ofNat chain.length+UInt32.ofNat cs.flatten.length =
        count+UInt32.ofNat (chain::cs).flatten.length := by
      rw [List.flatten_cons,List.length_append,UInt32.ofNat_add,UInt32.add_assoc]
    rw [UInt32.zero_add] at hwalk
    simp only [fsckBuckets,hhead,hwalk,Option.bind_eq_bind,Option.bind_some,if_pos hcount]
    rw [ih _ fun chain hchain => hfuel chain (List.mem_cons_of_mem _ hchain),hsum]

theorem hashFsck_spec {s : State E} {l : List ℕ} (h : Inv field s l) (hfuel : l.length ≤ fuel) :
    hashFsck fuel s = some (.done ()) := by
  cases l with
  | nil => rw [hashFsck,show s.head = none from h.head]
  | cons p ps =>
    obtain ⟨t,ht,hok,-,hitems⟩ := h.table (by simp)
    obtain ⟨cs,hcs,hnodup,hmem,hshort⟩ := hok.filled.chains hok.numBuckets_ne fun p hp => h.alloc hp
    have hlength : cs.flatten.length = (p::ps).length :=
      ((List.perm_ext_iff_of_nodup hnodup h.app.nodup).mpr hmem).length_eq
    have hbuckets := fsckBuckets_spec 0 hcs fun chain hchain => (hshort chain hchain).trans hfuel
    have happ := fsckWalk_spec 0 h.app hfuel
    rw [UInt32.zero_add,hlength] at hbuckets
    rw [UInt32.zero_add] at happ
    have hhead : s.head = some p := h.head
    have htbl : s.headTbl = some t := (h.headTbl (by simp)).trans ht
    rw [List.head?_cons] at happ
    simp only [hashFsck,hhead,htbl,hbuckets,happ,hitems,if_true,Option.bind_eq_bind,Option.bind_some]

end Check

end UtHashWalk
end IotBase
