import Mathlib.Data.List.Nodup
import Mathlib.Data.Option.Basic
import Mathlib.Logic.Function.Basic

/-! A heap of blocks whose identities are never given out twice, so that using or freeing a block
that is not allocated shows as a missing result, and lists linked through its cells. -/
namespace IotBase
namespace BlockHeap

section Blocks

variable {B : Type*}

/-- The allocated blocks, the next identity and what `free` was called on, newest first. -/
structure Heap (B : Type*) where
  block : ℕ → Option B
  nextBlock : ℕ
  freed : List ℕ
  fresh : ∀ p, nextBlock ≤ p → block p = none

def Heap.Live (m : Heap B) (p : ℕ) : Prop := ∃ b, m.block p = some b

theorem Heap.lt_of_live {m : Heap B} {p : ℕ} (h : m.Live p) : p < m.nextBlock := by
  by_contra hp
  obtain ⟨b,hb⟩ := h
  rw [m.fresh p (Nat.not_lt.mp hp)] at hb
  cases hb

def Heap.malloc (m : Heap B) (b : B) : Heap B × ℕ where
  fst.block := Function.update m.block m.nextBlock (some b)
  fst.nextBlock := m.nextBlock+1
  fst.freed := m.freed
  fst.fresh := fun p hp => by
    rw [Function.update_of_ne (by omega)]
    exact m.fresh p (by omega)
  snd := m.nextBlock

/-- Writing to a block; there is no result where it is not allocated. -/
def Heap.store (m : Heap B) (p : ℕ) (b : B) : Option (Heap B) :=
  match h : m.block p with
  | none => none
  | some old => some
    { block := Function.update m.block p (some b)
      nextBlock := m.nextBlock
      freed := m.freed
      fresh := fun q hq => by
        have hlt := Heap.lt_of_live ⟨old,h⟩
        rw [Function.update_of_ne (by omega)]
        exact m.fresh q hq }

/-- There is no result for a block that is not allocated. -/
def Heap.free (m : Heap B) (p : ℕ) : Option (Heap B) :=
  match m.block p with
  | none => none
  | some _ => some
    { block := Function.update m.block p none
      nextBlock := m.nextBlock
      freed := p::m.freed
      fresh := fun q hq => by
        by_cases hqp : q = p
        · rw [hqp,Function.update_self]
        · rw [Function.update_of_ne hqp]
          exact m.fresh q hq }

variable {m : Heap B} {p : ℕ}

@[simp] theorem malloc_id (m : Heap B) (b : B) : (m.malloc b).2 = m.nextBlock := rfl
@[simp] theorem malloc_block (m : Heap B) (b : B) :
    (m.malloc b).1.block = Function.update m.block m.nextBlock (some b) := rfl
@[simp] theorem malloc_nextBlock (m : Heap B) (b : B) :
    (m.malloc b).1.nextBlock = m.nextBlock+1 := rfl

theorem store_live (h : m.Live p) (b : B) : ∃ m', m.store p b = some m' ∧
    m'.block = Function.update m.block p (some b) ∧ m'.nextBlock = m.nextBlock ∧
    m'.freed = m.freed := by
  obtain ⟨old,hold⟩ := h
  rw [Heap.store]
  split
  · rename_i hnone
    rw [hold] at hnone
    cases hnone
  · exact ⟨_,rfl,rfl,rfl,rfl⟩

theorem store_nextBlock {m' : Heap B} {b : B} (h : m.store p b = some m') :
    m'.nextBlock = m.nextBlock := by
  rw [Heap.store] at h
  split at h
  · cases h
  · cases h
    rfl

theorem store_store_live {q : ℕ} (hq : m.Live q) (hp : m.Live p) (hpq : p ≠ q) (b c : B) :
    ∃ m₁ m₂, m.store q b = some m₁ ∧ m₁.store p c = some m₂ ∧ m₂.block q = some b ∧
    m₂.block p = some c ∧ ∀ r, r ≠ p → r ≠ q → m₂.block r = m.block r := by
  obtain ⟨m₁,hstore₁,hblock₁,-,-⟩ := store_live hq b
  have hp₁ : m₁.Live p := by
    obtain ⟨old,hold⟩ := hp
    exact ⟨old,by rw [hblock₁,Function.update_of_ne hpq,hold]⟩
  obtain ⟨m₂,hstore₂,hblock₂,-,-⟩ := store_live hp₁ c
  refine ⟨m₁,m₂,hstore₁,hstore₂,?_,?_,fun r hrp hrq => ?_⟩
  · rw [hblock₂,Function.update_of_ne hpq.symm,hblock₁,Function.update_self]
  · rw [hblock₂,Function.update_self]
  · rw [hblock₂,Function.update_of_ne hrp,hblock₁,Function.update_of_ne hrq]

theorem free_live (h : m.Live p) : ∃ m', m.free p = some m' ∧
    m'.block = Function.update m.block p none ∧ m'.nextBlock = m.nextBlock ∧
    m'.freed = p::m.freed := by
  obtain ⟨b,hb⟩ := h
  rw [Heap.free]
  split
  · rename_i hnone
    rw [hb] at hnone
    cases hnone
  · exact ⟨_,rfl,rfl,rfl,rfl⟩

/-- From `m` to `m'` exactly the blocks `ps` have been freed, in this order, and no other block
has changed. -/
structure Frees (m : Heap B) (ps : List ℕ) (m' : Heap B) : Prop where
  nextBlock : m'.nextBlock = m.nextBlock
  freed : m'.freed = ps.reverse++m.freed
  gone : ∀ p ∈ ps, m'.block p = none
  kept : ∀ p ∉ ps, m'.block p = m.block p

theorem Frees.nil (m : Heap B) : Frees m [] m := ⟨rfl,rfl,by simp,fun _ _ => rfl⟩

theorem Frees.append {m₁ m₂ m₃ : Heap B} {ps qs : List ℕ} (h : Frees m₁ ps m₂) (h' : Frees m₂ qs m₃) :
    Frees m₁ (ps++qs) m₃ where
  nextBlock := h'.nextBlock.trans h.nextBlock
  freed := by rw [h'.freed,h.freed,List.reverse_append,List.append_assoc]
  gone := fun p hp => by
    by_cases hq : p ∈ qs
    · exact h'.gone p hq
    · rw [h'.kept p hq]
      exact h.gone p ((List.mem_append.mp hp).resolve_right hq)
  kept := fun p hp => by
    rw [List.mem_append,not_or] at hp
    rw [h'.kept p hp.2,h.kept p hp.1]

/-- From `m` to `m'` exactly the blocks `ps` have been added, and the blocks of `m` are as they
were. -/
structure Gains (m : Heap B) (ps : List ℕ) (m' : Heap B) : Prop where
  nodup : ps.Nodup
  new : ∀ p ∈ ps, ¬ m.Live p
  live : ∀ p, m'.Live p ↔ m.Live p ∨ p ∈ ps
  kept : ∀ p, m.Live p → m'.block p = m.block p

theorem Gains.nil (m : Heap B) : Gains m [] m := ⟨List.nodup_nil,by simp,by simp,fun _ _ => rfl⟩

theorem Gains.append {m₁ m₂ m₃ : Heap B} {ps qs : List ℕ} (h : Gains m₁ ps m₂) (h' : Gains m₂ qs m₃) :
    Gains m₁ (ps++qs) m₃ where
  nodup := List.nodup_append.mpr ⟨h.nodup,h'.nodup,fun p hp q hq hpq =>
    h'.new q hq ((h.live q).mpr (Or.inr (hpq ▸ hp)))⟩
  new := fun p hp => by
    rcases List.mem_append.mp hp with hp | hp
    · exact h.new p hp
    · exact fun hlive => h'.new p hp ((h.live p).mpr (Or.inl hlive))
  live := fun p => by
    rw [h'.live p,h.live p,List.mem_append,or_assoc]
  kept := fun p hp => (h'.kept p ((h.live p).mpr (Or.inl hp))).trans (h.kept p hp)

theorem Gains.freed {m₁ m₂ m₃ : Heap B} {ps qs rs : List ℕ} (h : Gains m₁ ps m₂) (hfrees : Frees m₂ qs m₃)
    (hrs : rs.Nodup) (hps : ∀ p, p ∈ ps ↔ p ∈ qs ∨ p ∈ rs) (hdisj : ∀ p ∈ qs, p ∉ rs) :
    Gains m₁ rs m₃ where
  nodup := hrs
  new := fun p hp => h.new p ((hps p).mpr (Or.inr hp))
  live := fun p => by
    have hlive := h.live p
    rw [hps p] at hlive
    by_cases hp : p ∈ qs
    · have hnew := h.new p ((hps p).mpr (Or.inl hp))
      have hgone : ¬ m₃.Live p := by
        rintro ⟨b,hb⟩
        rw [hfrees.gone p hp] at hb
        cases hb
      exact iff_of_false hgone fun hor => hor.elim hnew (hdisj p hp)
    · rw [Heap.Live,hfrees.kept p hp]
      exact hlive.trans (or_congr_right (or_iff_right hp))
  kept := fun p hp => by
    have hpq : p ∉ qs := fun hq => h.new p ((hps p).mpr (Or.inl hq)) hp
    rw [hfrees.kept p hpq,h.kept p hp]

end Blocks

section Chains

variable {P C : Type*}

/-- The cells from `head` on, each linked by `next` to the one behind it, are those of `ps`. -/
def Chain (next : C → Option P) (cell : P → Option C) : Option P → List P → Prop
  | head, [] => head = none
  | head, p::ps => head = some p ∧ ∃ c, cell p = some c ∧ Chain next cell (next c) ps

variable {next : C → Option P} {cell cell' : P → Option C} {head : Option P} {ps qs : List P}

theorem Chain.unique (h : Chain next cell head ps) (h' : Chain next cell head qs) : ps = qs := by
  induction ps generalizing head qs with
  | nil =>
    cases qs with
    | nil => rfl
    | cons q qs => exact absurd (h.symm.trans h'.1) (by simp)
  | cons p ps ih =>
    cases qs with
    | nil => exact absurd (h'.symm.trans h.1) (by simp)
    | cons q qs =>
      obtain ⟨rfl,c,hc,hrest⟩ := h
      obtain ⟨hq,c',hc',hrest'⟩ := h'
      cases hq
      obtain rfl : c = c' := Option.some.inj (hc.symm.trans hc')
      rw [ih hrest hrest']

theorem Chain.congr (h : Chain next cell head ps) (hcell : ∀ p ∈ ps, cell' p = cell p) :
    Chain next cell' head ps := by
  induction ps generalizing head with
  | nil => exact h
  | cons p ps ih =>
    obtain ⟨hhead,c,hc,hrest⟩ := h
    refine ⟨hhead,c,?_,ih hrest fun q hq => hcell q (List.mem_cons_of_mem _ hq)⟩
    rw [hcell p List.mem_cons_self,hc]

theorem Chain.singleton {p : P} {c : C} (hc : cell p = some c) (hend : next c = none) :
    Chain next cell (some p) [p] := ⟨rfl,c,hc,hend⟩

/-- A new cell that takes over the link of the first one, which then links to it. -/
theorem Chain.insert {p q : P} {c d c' : C} (h : Chain next cell (some p) (p::ps))
    (hc : cell p = some c) (hd : cell' q = some d) (hnext : next d = next c) (hc' : cell' p = some c')
    (hlink : next c' = some q) (hrest : ∀ r ∈ ps, cell' r = cell r) :
    Chain next cell' (some p) (p::q::ps) := by
  obtain ⟨-,c₀,hc₀,htail⟩ := h
  obtain rfl : c = c₀ := Option.some.inj (hc.symm.trans hc₀)
  refine ⟨rfl,c',hc',hlink,d,hd,?_⟩
  rw [hnext]
  exact htail.congr hrest

end Chains

end BlockHeap
end IotBase
