import IotBase.BlockHeap
import Mathlib.Data.List.Perm.Basic

/-! Doubly linked lists whose link fields lie in the cells of a memory. Following a pointer to a
cell that is not allocated leaves no result. -/
namespace IotBase
namespace DoubleLinks
open BlockHeap

/-- The two link fields of a cell; `erase` forgets them. -/
structure Links (P C : Type*) where
  prev : C → Option P
  next : C → Option P
  setPrev : Option P → C → C
  setNext : Option P → C → C
  erase : C → C
  prev_setPrev : ∀ v c, prev (setPrev v c) = v
  next_setPrev : ∀ v c, next (setPrev v c) = next c
  prev_setNext : ∀ v c, prev (setNext v c) = prev c
  next_setNext : ∀ v c, next (setNext v c) = v
  erase_setPrev : ∀ v c, erase (setPrev v c) = erase c
  erase_setNext : ∀ v c, erase (setNext v c) = erase c

variable {P C : Type*}

section Operations

variable [DecidableEq P]

def change (mem : P → Option C) (p : P) (f : C → C) : Option (P → Option C) :=
  (mem p).map fun c => Function.update mem p (some (f c))

def changeIf (mem : P → Option C) (q : Option P) (f : C → C) : Option (P → Option C) :=
  match q with
  | none => some mem
  | some q => change mem q f

def pushFront (L : Links P C) (mem : P → Option C) (p : P) (head : Option P) :
    Option (P → Option C) := do
  let mem ← change mem p fun c => L.setPrev none (L.setNext head c)
  changeIf mem head (L.setPrev (some p))

def append (L : Links P C) (mem : P → Option C) (p tail : P) : Option (P → Option C) := do
  let mem ← change mem p fun c => L.setPrev (some tail) (L.setNext none c)
  change mem tail (L.setNext (some p))

def unlink (L : Links P C) (mem : P → Option C) (p : P) : Option (P → Option C) :=
  (mem p).bind fun c => do
    let mem ← changeIf mem (L.prev c) (L.setNext (L.next c))
    changeIf mem (L.next c) (L.setPrev (L.prev c))

end Operations

/-- A memory that differs from `mem` in link fields of the cells of `l` at most. -/
structure Relinked (L : Links P C) (mem : P → Option C) (l : List P) (mem' : P → Option C) : Prop where
  erase : ∀ q, (mem' q).map L.erase = (mem q).map L.erase
  outside : ∀ q ∉ l, mem' q = mem q

theorem Relinked.refl (L : Links P C) (mem : P → Option C) (l : List P) : Relinked L mem l mem :=
  ⟨fun _ => rfl,fun _ _ => rfl⟩

theorem Relinked.trans {L : Links P C} {mem₁ mem₂ mem₃ : P → Option C} {l : List P}
    (h : Relinked L mem₁ l mem₂) (h' : Relinked L mem₂ l mem₃) : Relinked L mem₁ l mem₃ where
  erase q := (h'.erase q).trans (h.erase q)
  outside q hq := (h'.outside q hq).trans (h.outside q hq)

theorem Relinked.mono {L : Links P C} {mem mem' : P → Option C} {l l' : List P}
    (h : Relinked L mem l mem') (hl : ∀ p ∈ l, p ∈ l') : Relinked L mem l' mem' :=
  ⟨h.erase,fun q hq => h.outside q (mt (hl q) hq)⟩

theorem Relinked.map_eq {X : Type*} {L : Links P C} {mem mem' : P → Option C} {l : List P}
    (h : Relinked L mem l mem') {g : C → X} (hg : ∀ c, g (L.erase c) = g c) (q : P) :
    (mem' q).map g = (mem q).map g := by
  have herase := congrArg (Option.map g) (h.erase q)
  rwa [Option.map_map,Option.map_map,show g ∘ L.erase = g from funext hg] at herase

theorem Relinked.cell {L : Links P C} {mem mem' : P → Option C} {l : List P}
    (h : Relinked L mem l mem') {p : P} {c : C} (hc : mem p = some c) :
    ∃ c', mem' p = some c' ∧ L.erase c' = L.erase c := by
  have herase := h.erase p
  rw [hc,Option.map_some] at herase
  exact Option.map_eq_some_iff.mp herase

section Changes
variable [DecidableEq P]

theorem change_some {mem : P → Option C} {p : P} {c : C} (hc : mem p = some c) (f : C → C) :
    change mem p f = some (Function.update mem p (some (f c))) := by
  rw [change,hc]
  rfl

theorem change_relinked {L : Links P C} {mem : P → Option C} {l : List P} {p : P} {c : C}
    {f : C → C} (hp : p ∈ l) (hc : mem p = some c) (hf : L.erase (f c) = L.erase c) :
    Relinked L mem l (Function.update mem p (some (f c))) where
  erase q := by
    by_cases hq : q = p
    · rw [hq,Function.update_self,hc,Option.map_some,Option.map_some,hf]
    · rw [Function.update_of_ne hq]
  outside q hq := Function.update_of_ne (fun he : q = p => hq (he ▸ hp)) _ _

end Changes

/-- The cells of `l` are linked in this order, behind `before` and before `after`. -/
def Seg (L : Links P C) (mem : P → Option C) : Option P → List P → Option P → Prop
  | _, [], _ => True
  | before, p::ps, after =>
    (∃ c, mem p = some c ∧ L.prev c = before ∧ L.next c = ps.head?.or after) ∧
      Seg L mem (some p) ps after

variable {L : Links P C} {mem mem' : P → Option C} {before after : Option P} {l l₁ l₂ : List P} {p : P}

theorem seg_append : Seg L mem before (l₁++l₂) after ↔
    Seg L mem before l₁ (l₂.head?.or after) ∧ Seg L mem (l₁.getLast?.or before) l₂ after := by
  induction l₁ generalizing before with
  | nil => simp [Seg]
  | cons p ps ih =>
    have hlast : ((p::ps).getLast?.or before) = ps.getLast?.or (some p) := by
      cases ps <;> simp [List.getLast?_cons]
    have hhead : (ps++l₂).head?.or after = ps.head?.or (l₂.head?.or after) := by
      cases ps <;> simp
    rw [List.cons_append,Seg,Seg,ih,hhead,hlast,and_assoc]

theorem Seg.alloc (h : Seg L mem before l after) (hp : p ∈ l) : ∃ c, mem p = some c := by
  induction l generalizing before with
  | nil => cases hp
  | cons q qs ih =>
    obtain ⟨⟨c,hc,-⟩,hrest⟩ := h
    rcases List.mem_cons.mp hp with rfl | hp
    · exact ⟨c,hc⟩
    · exact ih hrest hp

theorem Seg.congr (h : Seg L mem before l after)
    (hlinks : ∀ p ∈ l, (mem' p).map (fun c => (L.prev c,L.next c)) =
      (mem p).map fun c => (L.prev c,L.next c)) : Seg L mem' before l after := by
  induction l generalizing before with
  | nil => trivial
  | cons q qs ih =>
    obtain ⟨⟨c,hc,hprev,hnext⟩,hrest⟩ := h
    refine ⟨?_,ih hrest fun p hp => hlinks p (List.mem_cons_of_mem _ hp)⟩
    have hq := hlinks q List.mem_cons_self
    rw [hc,Option.map_some] at hq
    obtain ⟨c',hc',he⟩ := Option.map_eq_some_iff.mp hq
    obtain ⟨hp',hn'⟩ := Prod.mk.inj he
    exact ⟨c',hc',hp'.trans hprev,hn'.trans hnext⟩

theorem Seg.congr_cells (h : Seg L mem before l after) (hcells : ∀ p ∈ l, mem' p = mem p) :
    Seg L mem' before l after :=
  h.congr fun p hp => by rw [hcells p hp]

theorem Seg.chain (h : Seg L mem before l none) : Chain L.next mem l.head? l := by
  induction l generalizing before with
  | nil => rfl
  | cons q qs ih =>
    obtain ⟨⟨c,hc,-,hnext⟩,hrest⟩ := h
    refine ⟨rfl,c,hc,?_⟩
    rw [hnext,Option.or_none]
    exact ih hrest

theorem Seg.chain_of_suffix {ps : List P} (h : Seg L mem before l none) (hps : ps <:+ l) :
    Chain L.next mem ps.head? ps := by
  obtain ⟨pre,rfl⟩ := hps
  exact (seg_append.mp h).2.chain

theorem Seg.nodup (h : Seg L mem before l none) : l.Nodup := by
  induction l generalizing before with
  | nil => exact List.nodup_nil
  | cons q qs ih =>
    refine List.nodup_cons.mpr ⟨fun hq => ?_,ih h.2⟩
    obtain ⟨l₁,l₂,rfl⟩ := List.append_of_mem hq
    have hagain := (seg_append.mp h.2).2.chain
    have hlength := congrArg List.length (h.chain.unique hagain)
    simp only [List.length_cons,List.length_append] at hlength
    omega

section Writes
variable [DecidableEq P] {c : C}

theorem Seg.update_of_notMem (h : Seg L mem before l after) (hp : p ∉ l) (x : Option C) :
    Seg L (Function.update mem p x) before l after :=
  h.congr_cells fun q hq => Function.update_of_ne (fun he : q = p => hp (he ▸ hq)) _ _

theorem Seg.setAfter (h : Seg L mem before (l++[p]) after) (after' : Option P) (hp : p ∉ l)
    (hc : mem p = some c) :
    Seg L (Function.update mem p (some (L.setNext after' c))) before (l++[p]) after' := by
  obtain ⟨hl,⟨c',hc',hprev,-⟩,-⟩ := seg_append.mp h
  obtain rfl : c = c' := Option.some.inj (hc.symm.trans hc')
  refine seg_append.mpr ⟨hl.update_of_notMem hp _,⟨_,Function.update_self _ _ _,?_,?_⟩,trivial⟩
  · rw [L.prev_setNext,hprev]
  · rw [L.next_setNext]
    rfl

theorem Seg.setBefore (h : Seg L mem before (p::l) after) (before' : Option P) (hp : p ∉ l)
    (hc : mem p = some c) :
    Seg L (Function.update mem p (some (L.setPrev before' c))) before' (p::l) after := by
  obtain ⟨⟨c',hc',-,hnext⟩,hl⟩ := h
  obtain rfl : c = c' := Option.some.inj (hc.symm.trans hc')
  refine ⟨⟨_,Function.update_self _ _ _,L.prev_setPrev _ _,?_⟩,hl.update_of_notMem hp _⟩
  rw [L.next_setPrev,hnext]

theorem pushFront_spec (h : Seg L mem none l none) (hp : p ∉ l) (hc : mem p = some c) :
    ∃ mem', pushFront L mem p l.head? = some mem' ∧ Seg L mem' none (p::l) none ∧
      Relinked L mem (p::l) mem' := by
  have hnew : ∀ head : Option P, Relinked L mem (p::l)
      (Function.update mem p (some (L.setPrev none (L.setNext head c)))) := fun head =>
    change_relinked (f:=fun c => L.setPrev none (L.setNext head c)) List.mem_cons_self hc
      (by rw [L.erase_setPrev,L.erase_setNext])
  cases l with
  | nil =>
    refine ⟨_,?_,⟨⟨_,Function.update_self _ _ _,L.prev_setPrev _ _,?_⟩,trivial⟩,hnew none⟩
    · rw [pushFront,change_some hc]
      rfl
    · rw [L.next_setPrev,L.next_setNext]
      rfl
  | cons q qs =>
    obtain ⟨hqp,hpqs⟩ := not_or.mp (mt List.mem_cons.mpr hp)
    obtain ⟨d,hd⟩ := h.alloc List.mem_cons_self
    have hq := (List.nodup_cons.mp h.nodup).1
    have hd' : Function.update mem p (some (L.setPrev none (L.setNext (some q) c))) q = some d := by
      rw [Function.update_of_ne (Ne.symm hqp),hd]
    have hlist := (h.update_of_notMem hp (some (L.setPrev none (L.setNext (some q) c)))).setBefore
      (some p) hq hd'
    refine ⟨_,?_,⟨⟨L.setPrev none (L.setNext (some q) c),?_,L.prev_setPrev _ _,?_⟩,hlist⟩,?_⟩
    · rw [List.head?_cons,pushFront,change_some hc]
      exact change_some hd' _
    · rw [Function.update_of_ne hqp,Function.update_self]
    · rw [L.next_setPrev,L.next_setNext]
      rfl
    · refine (hnew (some q)).trans (change_relinked (f:=L.setPrev (some p)) ?_ hd' ?_)
      · exact List.mem_cons_of_mem _ List.mem_cons_self
      · exact L.erase_setPrev _ _

theorem append_spec {tail : P} (h : Seg L mem none (l++[tail]) none) (hp : p ∉ l++[tail])
    (hc : mem p = some c) :
    ∃ mem', append L mem p tail = some mem' ∧ Seg L mem' none (l++[tail]++[p]) none ∧
      Relinked L mem (l++[tail]++[p]) mem' := by
  have htail : tail ∈ l++[tail] := List.mem_append_right _ List.mem_cons_self
  obtain ⟨d,hd⟩ := h.alloc htail
  have hne : tail ≠ p := fun he => hp (he ▸ htail)
  have hd' : Function.update mem p (some (L.setPrev (some tail) (L.setNext none c))) tail = some d := by
    rw [Function.update_of_ne hne,hd]
  have hnotMem : tail ∉ l := fun ht =>
    (List.nodup_append.mp h.nodup).2.2 tail ht tail List.mem_cons_self rfl
  have hlist := (h.update_of_notMem hp
    (some (L.setPrev (some tail) (L.setNext none c)))).setAfter (some p) hnotMem hd'
  refine ⟨_,?_,seg_append.mpr ⟨hlist,⟨L.setPrev (some tail) (L.setNext none c),?_,?_,?_⟩,trivial⟩,?_⟩
  · rw [append,change_some hc]
    exact change_some hd' _
  · rw [Function.update_of_ne hne.symm,Function.update_self]
  · rw [L.prev_setPrev,List.getLast?_append]
    rfl
  · rw [L.next_setPrev,L.next_setNext]
    rfl
  · refine (change_relinked (f:=fun c => L.setPrev (some tail) (L.setNext none c)) ?_ hc ?_).trans
      (change_relinked (f:=L.setNext (some p)) ?_ hd' (L.erase_setNext _ _))
    · exact List.mem_append_right _ List.mem_cons_self
    · rw [L.erase_setPrev,L.erase_setNext]
    · exact List.mem_append_left _ htail

/-- The neighbours of an unlinked cell take over its links; it keeps them itself. -/
theorem unlink_spec (h : Seg L mem none (l₁++p::l₂) none) :
    ∃ mem', unlink L mem p = some mem' ∧ Seg L mem' none (l₁++l₂) none ∧
      Relinked L mem (l₁++l₂) mem' := by
  obtain ⟨h₁,⟨c,hc,hprev,hnext⟩,h₂⟩ := seg_append.mp h
  rw [Option.or_none] at hprev hnext
  have hnodup := List.nodup_append.mp h.nodup
  obtain ⟨mem₁,hchange₁,hseg₁,hrel₁⟩ : ∃ mem₁,
      changeIf mem l₁.getLast? (L.setNext l₂.head?) = some mem₁ ∧
      Seg L mem₁ none l₁ l₂.head? ∧ Relinked L mem l₁ mem₁ := by
    rcases List.eq_nil_or_concat l₁ with rfl | ⟨l,q,rfl⟩
    · exact ⟨mem,rfl,trivial,Relinked.refl _ _ _⟩
    · rw [List.concat_eq_append] at h₁ hnodup ⊢
      have hmem : q ∈ l++[q] := List.mem_append_right _ List.mem_cons_self
      obtain ⟨d,hd⟩ := h₁.alloc hmem
      have hq : q ∉ l := fun hq =>
        (List.nodup_append.mp hnodup.1).2.2 q hq q List.mem_cons_self rfl
      refine ⟨_,?_,h₁.setAfter l₂.head? hq hd,
        change_relinked (f:=L.setNext l₂.head?) hmem hd (L.erase_setNext _ _)⟩
      rw [List.getLast?_append]
      exact change_some hd _
  have hseg₂ : Seg L mem₁ (some p) l₂ none := h₂.congr_cells fun q hq =>
    hrel₁.outside q fun hq₁ => hnodup.2.2 q hq₁ q (List.mem_cons_of_mem _ hq) rfl
  obtain ⟨mem₂,hchange₂,hseg₂',hrel₂⟩ : ∃ mem₂,
      changeIf mem₁ l₂.head? (L.setPrev l₁.getLast?) = some mem₂ ∧
      Seg L mem₂ l₁.getLast? l₂ none ∧ Relinked L mem₁ l₂ mem₂ := by
    cases l₂ with
    | nil => exact ⟨mem₁,rfl,trivial,Relinked.refl _ _ _⟩
    | cons q qs =>
      obtain ⟨d,hd⟩ := hseg₂.alloc List.mem_cons_self
      have hq := (List.nodup_cons.mp (List.nodup_cons.mp hnodup.2.1).2).1
      exact ⟨_,change_some hd _,hseg₂.setBefore l₁.getLast? hq hd,
        change_relinked (f:=L.setPrev l₁.getLast?) List.mem_cons_self hd (L.erase_setPrev _ _)⟩
  refine ⟨mem₂,?_,seg_append.mpr ⟨?_,?_⟩,?_⟩
  · rw [unlink,hc,Option.bind_some,hprev,hnext,hchange₁]
    exact hchange₂
  · rw [Option.or_none]
    exact hseg₁.congr_cells fun q hq =>
      hrel₂.outside q fun hq₂ => hnodup.2.2 q hq q (List.mem_cons_of_mem _ hq₂) rfl
  · rw [Option.or_none]
    exact hseg₂'
  · exact (hrel₁.mono fun q hq => List.mem_append_left _ hq).trans
      (hrel₂.mono fun q hq => List.mem_append_right _ hq)

end Writes

end DoubleLinks
end IotBase
