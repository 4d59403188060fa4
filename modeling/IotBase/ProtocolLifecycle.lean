import IotBase.ProtocolBuild

/-! Contexts that are set up, filled and destroyed again and again: nothing is used after it has been
freed, and what stays allocated are the nodes of the two lists that `protocol_destroy` does not walk. -/
namespace IotBase
namespace ProtocolLifecycle
open RawBytes CString BlockHeap ProtocolConvert ProtocolTeardown ProtocolBuild LabelledRun

/-- `protocol_init` and `protocol_destroy`. The list is filled by `protocol_read_ini_to_list`, which is not
part of the repository: it is taken to make some calls of `protocol_insert_list`. -/
def cycle (fuel : ℕ) (m : Memory) (calls : List Insertion) : Option Memory := do
  let s ← exec ProtocolTeardown.insert (m,Context.init) calls
  let r ← protocolDestroy fuel s.1 (some s.2)
  some r.1

instance (f : MallocFaults) (cloud rex : CStr) : Decidable (Accepted f cloud rex) :=
  inferInstanceAs (Decidable (_ ∧ _))

/-- The insertion has names and passes the checks and the allocations. -/
def Accepts (i : Insertion) : Prop :=
  ∃ cloud ∈ i.cloudPropertyName, ∃ rex ∈ i.rexPropertyName, Accepted i.faults cloud rex

instance (i : Insertion) : Decidable (Accepts i) := inferInstanceAs (Decidable (∃ _ ∈ _, ∃ _ ∈ _, _))

/-- The insertion puts an entry into one of the two lists that are not walked. -/
def Leaks (i : Insertion) : Prop := Accepts i ∧ (i.list = .security ∨ i.list = .misc)

instance (i : Insertion) : Decidable (Leaks i) := inferInstanceAs (Decidable (_ ∧ _))

/-- The lists of the context, of which each has one entry for each accepted insertion, are all that has
been allocated since `m₀`. -/
structure Grown (m₀ m : Memory) (c : Context) (es : PropertyList → List Entry) (calls : List Insertion) :
    Prop where
  inv : ProtocolTeardown.Inv m c es
  gains : Gains m₀ (allBlocks es) m
  count : ∀ l, (es l).length = (calls.filter fun i => decide (Accepts i ∧ i.list = l)).length

section Steps

variable {m₀ m : Memory} {c : Context} {es : PropertyList → List Entry} {calls : List Insertion}

theorem grown_init (m : Memory) : Grown m m Context.init (fun _ => []) [] where
  inv := init_inv m
  gains := Gains.nil m
  count := fun _ => rfl

theorem mem_allBlocks_insertEntry (es : PropertyList → List Entry) (l : PropertyList) (e : Entry) (p : ℕ) :
    p ∈ allBlocks (Function.update es l (insertEntry e (es l))) ↔ p ∈ e.blocks ∨ p ∈ allBlocks es := by
  rw [mem_allBlocks,mem_allBlocks]
  constructor
  · rintro ⟨l',hp⟩
    by_cases hl : l' = l
    · rw [hl,Function.update_self,mem_blocksOf_insertEntry] at hp
      exact hp.imp_right fun hp => ⟨l,hp⟩
    · rw [Function.update_of_ne hl] at hp
      exact Or.inr ⟨l',hp⟩
  · rintro (hp | ⟨l',hp⟩)
    · exact ⟨l,by rw [Function.update_self,mem_blocksOf_insertEntry]; exact Or.inl hp⟩
    · refine ⟨l',?_⟩
      by_cases hl : l' = l
      · rw [hl] at hp
        rw [hl,Function.update_self,mem_blocksOf_insertEntry]
        exact Or.inr hp
      · rwa [Function.update_of_ne hl]

theorem gains_accepted (h : Grown m₀ m c es calls) (l : PropertyList) {f : MallocFaults} {cloud rex : CStr}
    (hacc : Accepted f cloud rex) : ∃ m' head',
    protocolInsertList f m (some (c.head l)) (some cloud) (some rex) = some (m',some head',.ok) ∧
    ProtocolTeardown.Inv m' (c.setHead head' l)
      (Function.update es l (insertEntry (newEntryOf m cloud rex) (es l))) ∧
    Gains m₀ (allBlocks (Function.update es l (insertEntry (newEntryOf m cloud rex) (es l)))) m' := by
  obtain ⟨heach,-⟩ := allBlocks_nodup_iff.mp h.inv.nodup
  obtain ⟨m',head',hcall,hinv⟩ := h.inv.accepted l hacc
  obtain ⟨m'',head'',hcall',-,hkept⟩ := protocolInsertList_accepted hacc (h.inv.lists l) (heach l)
  obtain ⟨rfl,-⟩ : m' = m'' ∧ head' = head'' := by
    rw [hcall] at hcall'
    cases hcall'
    exact ⟨rfl,rfl⟩
  have hnext := accepted_nextBlock hacc hcall
  have hnew : ∀ p ∈ (newEntryOf m cloud rex).blocks, ¬ m.Live p := by
    intro p hp hlive
    have hlow := newEntryOf_blocks hp
    have hhigh := Heap.lt_of_live hlive
    omega
  have hhead : ∀ p, some p = c.head l → p ∈ allBlocks es := fun p hp =>
    mem_allBlocks.mpr ⟨l,(h.inv.lists l).head_mem hp⟩
  refine ⟨m',head',hcall,hinv,hinv.nodup,fun p hp => ?_,fun p => ?_,fun p hp => ?_⟩
  · rcases (mem_allBlocks_insertEntry es l _ p).mp hp with hp | hp
    · exact fun hlive => hnew p hp ((h.gains.live p).mpr (Or.inl hlive))
    · exact h.gains.new p hp
  · rw [mem_allBlocks_insertEntry]
    constructor
    · intro hlive
      have hlt := Heap.lt_of_live hlive
      by_cases hnewer : m.nextBlock ≤ p
      · refine Or.inr (Or.inl (mem_blocks.mpr ?_))
        change p = m.nextBlock+1 ∨ p = m.nextBlock+2 ∨ p = m.nextBlock
        omega
      · by_cases hp : some p = c.head l
        · exact Or.inr (Or.inr (hhead p hp))
        · obtain ⟨b,hb⟩ := hlive
          have hold := hkept p (Nat.not_le.mp hnewer) hp
          exact ((h.gains.live p).mp ⟨b,hold.symm.trans hb⟩).imp_right Or.inr
    · rintro (hp | hp)
      · obtain ⟨b,hb⟩ := (h.gains.live p).mpr (Or.inl hp)
        refine ⟨b,(hkept p (Heap.lt_of_live ⟨b,hb⟩) fun hhead' => ?_).trans hb⟩
        exact h.gains.new p (hhead p hhead') hp
      · rw [← mem_allBlocks_insertEntry es l,mem_allBlocks] at hp
        obtain ⟨l',hp⟩ := hp
        obtain ⟨e,he,hpe⟩ := mem_blocksOf.mp hp
        exact ((hinv.lists l').entries e he).live hpe
  · rw [hkept p (Heap.lt_of_live ((h.gains.live p).mpr (Or.inl hp))) fun hhead' =>
      h.gains.new p (hhead p hhead') hp]
    exact h.gains.kept p hp

theorem insert_refused (m : Memory) (c : Context) {i : Insertion} (hi : ¬ Accepts i) :
    ∃ m', ProtocolTeardown.insert (m,c) i = some (m',c) ∧ m'.block = m.block := by
  have hnull : i.cloudPropertyName = none ∨ i.rexPropertyName = none →
      ∃ m', ProtocolTeardown.insert (m,c) i = some (m',c) ∧ m'.block = m.block := fun hnone =>
    ⟨m,by rw [insert_eq (protocolInsertList_null hnone),setHead_self],rfl⟩
  cases hcloud : i.cloudPropertyName with
  | none => exact hnull (Or.inl hcloud)
  | some cloud =>
    cases hrex : i.rexPropertyName with
    | none => exact hnull (Or.inr hrex)
    | some rex =>
      have hacc : ¬ Accepted i.faults cloud rex := fun hacc => hi ⟨cloud,hcloud,rex,hrex,hacc⟩
      obtain ⟨m',hcall,hblock⟩ := protocolInsertList_rejected (c.head i.list) hacc
      rw [← hcloud,← hrex] at hcall
      exact ⟨m',by rw [insert_eq hcall,setHead_self],hblock⟩

theorem Grown.insert (h : Grown m₀ m c es calls) (i : Insertion) : ∃ m' c' es',
    ProtocolTeardown.insert (m,c) i = some (m',c') ∧ Grown m₀ m' c' es' (calls++[i]) := by
  by_cases hi : Accepts i
  · obtain ⟨cloud,hcloud,rex,hrex,hacc⟩ := id hi
    obtain ⟨m',head',hcall,hinv,hgains⟩ := gains_accepted h i.list hacc
    rw [← Option.mem_def.mp hcloud,← Option.mem_def.mp hrex] at hcall
    refine ⟨m',_,_,insert_eq hcall,hinv,hgains,fun l => ?_⟩
    rw [List.filter_append,List.length_append,← h.count l]
    by_cases hl : l = i.list
    · rw [hl,Function.update_self,(insertEntry_perm _ _).length_eq,List.length_cons]
      simp [hi]
    · rw [Function.update_of_ne hl]
      simp [Ne.symm hl]
  · obtain ⟨m',hcall,hblock⟩ := insert_refused m c hi
    refine ⟨m',c,es,hcall,h.inv.same hblock,⟨h.gains.nodup,h.gains.new,fun p => ?_,fun p hp => ?_⟩,
      fun l => ?_⟩
    · rw [← h.gains.live p,Heap.Live,Heap.Live,hblock]
    · rw [hblock]
      exact h.gains.kept p hp
    · rw [h.count l,List.filter_append]
      simp [hi]

theorem Grown.exec (h : Grown m₀ m c es calls) (more : List Insertion) : ∃ m' c' es',
    LabelledRun.exec ProtocolTeardown.insert (m,c) more = some (m',c') ∧
    Grown m₀ m' c' es' (calls++more) := by
  induction more generalizing m c es calls with
  | nil => exact ⟨m,c,es,rfl,by rwa [List.append_nil]⟩
  | cons i more ih =>
    obtain ⟨m₁,c₁,es₁,hstep,h₁⟩ := h.insert i
    obtain ⟨m',c',es',hrest,h'⟩ := ih h₁
    rw [List.append_assoc] at h'
    exact ⟨m',c',es',exec_cons.mpr ⟨(m₁,c₁),hstep,hrest⟩,h'⟩

theorem blocksOf_length (es : List Entry) : (blocksOf es).length = 3*es.length := by
  induction es with
  | nil => rfl
  | cons e es ih =>
    have hsplit : blocksOf (e::es) = e.blocks++blocksOf es := rfl
    rw [hsplit,List.length_append,ih,List.length_cons,Entry.blocks]
    simp only [List.length_cons,List.length_nil]
    omega

theorem leaks_length (calls : List Insertion) : (calls.filter fun i => decide (Leaks i)).length =
    (calls.filter fun i => decide (Accepts i ∧ i.list = .security)).length +
      (calls.filter fun i => decide (Accepts i ∧ i.list = .misc)).length := by
  induction calls with
  | nil => rfl
  | cons i calls ih =>
    simp only [List.filter_cons]
    by_cases hi : Accepts i
    · cases hl : i.list <;> simp [Leaks,hi,hl] at ih ⊢ <;> omega
    · simpa [Leaks,hi] using ih

/-- One cycle leaves the blocks of the two lists. -/
theorem cycle_spec (m : Memory) (calls : List Insertion) : ∃ m' bound ps,
    (∀ fuel ≥ bound, cycle fuel m calls = some m') ∧ Gains m ps m' ∧
    ps.length = 3*(calls.filter fun i => decide (Leaks i)).length := by
  obtain ⟨m₁,c₁,es,hrun,hgrown⟩ := (grown_init m).exec calls
  obtain ⟨m',bound,hdestroy,hfrees⟩ := protocolDestroy_spec hgrown.inv
  obtain ⟨heach,hdisj⟩ := allBlocks_nodup_iff.mp hgrown.inv.nodup
  refine ⟨m',bound,blocksOf (es .security)++blocksOf (es .misc),fun fuel hfuel => ?_,?_,?_⟩
  · simp [cycle,hrun,hdestroy fuel hfuel]
  · refine hgrown.gains.freed hfrees ?_ (fun p => ?_) fun p hp hp' => ?_
    · refine List.nodup_append.mpr ⟨heach _,heach _,fun p hp q hq hpq => ?_⟩
      exact hdisj .security .misc (by decide) p hp (hpq ▸ hq)
    · simp only [allBlocks,allLists,List.flatMap_cons,List.flatMap_nil,List.append_nil,List.mem_append]
      tauto
    · simp only [List.mem_append] at hp hp'
      rcases hp with (hp | hp) | hp <;> rcases hp' with hp' | hp'
      all_goals exact hdisj _ _ (by decide) p hp hp'
  · rw [List.length_append,blocksOf_length,blocksOf_length,hgrown.count,hgrown.count,leaks_length]
    simp only [List.nil_append]
    omega

/-- However often contexts are set up, filled and destroyed, whatever names they are filled with and
whichever allocations fail: every call returns, so nothing is used or freed after it has been freed, the
blocks of others stay as they are, and three blocks remain for each entry of a security or misc list. -/
theorem cycles_leak (m : Memory) (cycles : List (List Insertion)) : ∃ m' bound ps,
    (∀ fuel ≥ bound, exec (cycle fuel) m cycles = some m') ∧ Gains m ps m' ∧
    ps.length = 3*(cycles.flatten.filter fun i => decide (Leaks i)).length := by
  induction cycles generalizing m with
  | nil => exact ⟨m,0,[],fun _ _ => rfl,Gains.nil m,rfl⟩
  | cons calls cycles ih =>
    obtain ⟨m₁,bound₁,ps,hcycle,hgains,hlength⟩ := cycle_spec m calls
    obtain ⟨m',bound,qs,hrest,hgains',hlength'⟩ := ih m₁
    refine ⟨m',max bound₁ bound,ps++qs,fun fuel hfuel => ?_,hgains.append hgains',?_⟩
    · exact exec_cons.mpr ⟨m₁,hcycle fuel (le_of_max_le_left hfuel),hrest fuel (le_of_max_le_right hfuel)⟩
    · rw [List.length_append,hlength,hlength',List.flatten_cons,List.filter_append,List.length_append]
      omega

end Steps

end ProtocolLifecycle
end IotBase
