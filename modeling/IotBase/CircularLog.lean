import Mathlib.Data.List.Infix
import Mathlib.Order.Basic
import Mathlib.Tactic.Common

/-! A log written round: records in one piece each, appended until the end is near and then
from the front again. What is written over is older than almost a whole round of records. -/
namespace IotBase
namespace CircularLog

variable {α : Type*}

structure Rec (α : Type*) where
  start : ℕ
  data : List α

def Rec.stop (r : Rec α) : ℕ := r.start+r.data.length

def Intact (file : List α) (r : Rec α) : Prop := ∀ k < r.data.length, file[r.start+k]? = r.data[k]?

structure Writes (file file' : List α) (start : ℕ) (data : List α) : Prop where
  inside : ∀ k < data.length, file'[start+k]? = data[k]?
  outside : ∀ k < file.length, k < start ∨ start+data.length ≤ k → file'[k]? = file[k]?

def size : List (Rec α) → ℕ
  | [] => 0
  | r::rs => r.data.length+size rs

/-- The records, newest first, fill the space from `bottom` to `top`. -/
def Chain : ℕ → List (Rec α) → ℕ → Prop
  | top, [], bottom => top = bottom
  | top, r::rs, bottom => r.stop = top ∧ Chain r.start rs bottom

/-- Records of less than `limit` items written round a space of `room` items: those of this
round, those still there of the round before, which turned at `turn`, and those that may be gone. -/
structure Round (room limit : ℕ) (file : List α) (top : ℕ) (current kept lost : List (Rec α))
    (turn mid : ℕ) : Prop where
  thisRound : Chain top current 0
  lastRound : Chain turn kept mid
  intact : ∀ r ∈ current++kept, Intact file r
  short : ∀ r ∈ current++kept, r.data.length < limit
  turned : kept ≠ [] → room < turn+limit
  bound : lost ≠ [] → room < top+size kept+2*limit

def Retains (room limit : ℕ) (file : List α) (top : ℕ) (recs : List (Rec α)) : Prop :=
  ∃ current kept lost turn mid, recs = current++kept++lost ∧
    Round room limit file top current kept lost turn mid

@[simp] theorem size_nil : size ([] : List (Rec α)) = 0 := rfl

@[simp] theorem size_cons (r : Rec α) (rs : List (Rec α)) : size (r::rs) = r.data.length+size rs := rfl

@[simp] theorem size_append (rs ss : List (Rec α)) : size (rs++ss) = size rs+size ss := by
  induction rs with
  | nil => simp
  | cons r rs ih => simp [ih,Nat.add_assoc]

theorem length_le_size {r : Rec α} {rs : List (Rec α)} (h : r ∈ rs) : r.data.length ≤ size rs := by
  induction h with
  | head => exact Nat.le_add_right _ _
  | tail q _ ih => exact ih.trans (Nat.le_add_left _ _)

section Chains

variable {top bottom : ℕ} {rs : List (Rec α)}

theorem Chain.size_eq (h : Chain top rs bottom) : top = bottom+size rs := by
  induction rs generalizing top with
  | nil => exact h
  | cons r rs ih =>
    obtain ⟨rfl,hrest⟩ := h
    have hstart := ih hrest
    rw [Rec.stop,size_cons]
    omega

theorem Chain.stop_le (h : Chain top rs bottom) : ∀ r ∈ rs, r.stop ≤ top := by
  induction rs generalizing top with
  | nil => simp
  | cons r rs ih =>
    obtain ⟨rfl,hrest⟩ := h
    refine List.forall_mem_cons.mpr ⟨le_refl _,fun q hq => (ih hrest q hq).trans ?_⟩
    exact Nat.le_add_right _ _

/-- The records from `q` on, and below them at most one that reaches over `q`. -/
theorem Chain.cut {limit : ℕ} (h : Chain top rs bottom) (hshort : ∀ r ∈ rs, r.data.length < limit)
    (q : ℕ) : ∃ kept lost mid, rs = kept++lost ∧ Chain top kept mid ∧ (∀ r ∈ kept, q ≤ r.start) ∧
      (lost = [] ∧ mid = bottom ∨ lost ≠ [] ∧ mid < q+limit) := by
  induction rs generalizing top with
  | nil => exact ⟨[],[],top,rfl,rfl,by simp,Or.inl ⟨rfl,h⟩⟩
  | cons r rs ih =>
    obtain ⟨rfl,hrest⟩ := h
    obtain ⟨hr,hrs⟩ := List.forall_mem_cons.mp hshort
    by_cases hq : q ≤ r.start
    · obtain ⟨kept,lost,mid,rfl,hchain,hahead,hmid⟩ := ih hrest hrs
      exact ⟨r::kept,lost,mid,rfl,⟨rfl,hchain⟩,List.forall_mem_cons.mpr ⟨hq,hahead⟩,hmid⟩
    · refine ⟨[],r::rs,r.stop,rfl,rfl,by simp,Or.inr ⟨by simp,?_⟩⟩
      rw [Rec.stop]
      omega

end Chains

section Writing

variable {room limit : ℕ} {file file' : List α} {top start : ℕ} {data : List α}
  {recs : List (Rec α)}

theorem Writes.new (h : Writes file file' start data) : Intact file' ⟨start,data⟩ := h.inside

theorem Writes.frame (h : Writes file file' start data) {r : Rec α} (hr : Intact file r)
    (hapart : r.stop ≤ start ∨ start+data.length ≤ r.start) : Intact file' r := by
  intro k hk
  have hheld := hr k hk
  rw [List.getElem?_eq_getElem hk] at hheld
  obtain ⟨hlt,-⟩ := List.getElem?_eq_some_iff.mp hheld
  rw [Rec.stop] at hapart
  rw [h.outside _ hlt (by omega)]
  exact hr k hk

theorem retains_nil (room limit : ℕ) (file : List α) : Retains room limit file 0 [] :=
  ⟨[],[],[],0,0,rfl,rfl,rfl,by simp,by simp,by simp,by simp⟩

theorem Retains.append (h : Retains room limit file top recs) (hw : Writes file file' top data)
    (hdata : data.length < limit) :
    Retains room limit file' (top+data.length) (⟨top,data⟩::recs) := by
  obtain ⟨current,kept,lost,turn,mid,rfl,hround⟩ := h
  have hkept : ∀ r ∈ kept, r.data.length < limit := fun r hr =>
    hround.short r (List.mem_append_right _ hr)
  obtain ⟨kept',lost',mid',rfl,hchain,hahead,hcut⟩ := hround.lastRound.cut hkept (top+data.length)
  refine ⟨⟨top,data⟩::current,kept',lost'++lost,turn,mid',by simp,⟨rfl,hround.thisRound⟩,hchain,
    ?_,?_,?_,?_⟩
  · rw [List.cons_append]
    refine List.forall_mem_cons.mpr ⟨hw.new,fun r hr => ?_⟩
    rcases List.mem_append.mp hr with hr | hr
    · refine hw.frame (hround.intact r (List.mem_append_left _ hr)) (Or.inl ?_)
      exact hround.thisRound.stop_le r hr
    · refine hw.frame (hround.intact r ?_) (Or.inr (hahead r hr))
      exact List.mem_append_right _ (List.mem_append_left _ hr)
  · rw [List.cons_append]
    refine List.forall_mem_cons.mpr ⟨hdata,fun r hr => hround.short r ?_⟩
    rw [← List.append_assoc]
    exact List.mem_append_left _ hr
  · exact fun hne => hround.turned (by simp [hne])
  · intro hne
    have hsize := hchain.size_eq
    rcases hcut with ⟨rfl,rfl⟩ | ⟨hlost,hmid⟩
    · have hbound := hround.bound (by simpa using hne)
      rw [List.append_nil] at hbound
      omega
    · have hturn := hround.turned (by simp [hlost])
      omega

theorem Retains.wrap (h : Retains room limit file top recs) (hw : Writes file file' 0 data)
    (hdata : data.length < limit) (hroom : room ≤ top+data.length) :
    Retains room limit file' data.length (⟨0,data⟩::recs) := by
  obtain ⟨current,kept,lost,turn,mid,rfl,hround⟩ := h
  have hcurrent : ∀ r ∈ current, r.data.length < limit := fun r hr =>
    hround.short r (List.mem_append_left _ hr)
  obtain ⟨kept',lost',mid',rfl,hchain,hahead,hcut⟩ := hround.thisRound.cut hcurrent data.length
  have hstop : Rec.stop ⟨0,data⟩ = data.length := Nat.zero_add _
  refine ⟨[⟨0,data⟩],kept',lost'++(kept++lost),top,mid',by simp,⟨hstop,rfl⟩,hchain,?_,?_,?_,?_⟩
  · rw [List.cons_append]
    refine List.forall_mem_cons.mpr ⟨hw.new,fun r hr => ?_⟩
    refine hw.frame (hround.intact r (by simp_all)) (Or.inr ?_)
    rw [Nat.zero_add]
    exact hahead r (by simpa using hr)
  · rw [List.cons_append]
    refine List.forall_mem_cons.mpr ⟨hdata,fun r hr => hcurrent r ?_⟩
    exact List.mem_append_left _ (by simpa using hr)
  · intro _
    omega
  · intro _
    have hsize := hchain.size_eq
    rcases hcut with ⟨-,rfl⟩ | ⟨-,hmid⟩
    · omega
    · omega

/-- The newest records that fill less than the room by two records are all there. -/
theorem Retains.newest (h : Retains room limit file top recs) {recent : List (Rec α)}
    (hrecent : recent <+: recs) (hsize : size recent+2*limit ≤ room) : ∀ r ∈ recent, Intact file r := by
  obtain ⟨current,kept,lost,turn,mid,rfl,hround⟩ := h
  have hhead : recent <+: current++kept := by
    rcases List.prefix_or_prefix_of_prefix hrecent (List.prefix_append (current++kept) lost) with
      hle | ⟨rest,rfl⟩
    · exact hle
    · have htop := hround.thisRound.size_eq
      rw [size_append,size_append] at hsize
      have hlost : lost = [] := by
        by_contra hne
        have hbound := hround.bound hne
        omega
      rwa [hlost,List.append_nil] at hrecent
  exact fun r hr => hround.intact r (hhead.subset hr)

end Writing

end CircularLog
end IotBase
