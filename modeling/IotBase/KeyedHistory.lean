import Mathlib.Data.List.Induction
import Mathlib.Logic.Function.Basic

/-! What a key reads after a sequence of writes, deletions and clearings: the
finite map that a key-value store is for. -/
namespace IotBase
namespace KeyedHistory

variable {K V : Type*} [DecidableEq K]

inductive Event (K V : Type*)
  | put (k : K) (v : V) | erase (k : K) | clear

def Event.apply (m : K → Option V) : Event K V → K → Option V
  | .put k v => Function.update m k (some v)
  | .erase k => Function.update m k none
  | .clear => fun _ => none

def read (h : List (Event K V)) : K → Option V := h.foldl Event.apply fun _ => none

def Event.Touches (k : K) : Event K V → Prop
  | .put k' _ => k' = k
  | .erase k' => k' = k
  | .clear => True

@[simp] theorem read_nil (k : K) : read ([] : List (Event K V)) k = none := rfl

theorem read_concat (h : List (Event K V)) (e : Event K V) : read (h++[e]) = e.apply (read h) := by
  simp [read,List.foldl_append]

theorem apply_of_not_touches {e : Event K V} {k : K} (m : K → Option V) (h : ¬ e.Touches k) :
    e.apply m k = m k := by
  cases e with
  | put k' v => exact Function.update_of_ne (fun he => h he.symm) _ _
  | erase k' => exact Function.update_of_ne (fun he => h he.symm) _ _
  | clear => exact absurd trivial h

/-- A key reads `v` exactly when a write of `v` to it is the last event that concerns it. -/
theorem read_eq_some_iff (h : List (Event K V)) (k : K) (v : V) :
    read h k = some v ↔ ∃ pre post, h = pre ++ .put k v::post ∧ ∀ e ∈ post, ¬ e.Touches k := by
  induction h using List.reverseRecOn with
  | nil => simp
  | append_singleton h e ih =>
    rw [read_concat]
    by_cases ht : e.Touches k
    · constructor
      · intro hr
        cases e with
        | put k' w =>
          cases ht
          have hw : w = v := by simpa [Event.apply] using hr
          exact ⟨h,[],by rw [hw],by simp⟩
        | erase k' =>
          cases ht
          simp [Event.apply] at hr
        | clear => simp [Event.apply] at hr
      · rintro ⟨pre,post,he,hpost⟩
        rcases List.eq_nil_or_concat post with rfl | ⟨post,e',rfl⟩
        · have hlast := List.append_inj_right' he rfl
          simp only [List.cons.injEq,and_true] at hlast
          rw [hlast]
          exact Function.update_self _ _ _
        · rw [List.concat_eq_append,← List.cons_append,← List.append_assoc] at he
          have hlast := List.append_inj_right' he rfl
          simp only [List.cons.injEq,and_true] at hlast
          exact absurd ht (hpost e (by simp [hlast]))
    · rw [apply_of_not_touches _ ht,ih]
      constructor
      · rintro ⟨pre,post,rfl,hpost⟩
        refine ⟨pre,post++[e],by simp,?_⟩
        intro e' he'
        rcases List.mem_append.mp he' with h' | h'
        · exact hpost e' h'
        · rwa [List.mem_singleton.mp h']
      · rintro ⟨pre,post,he,hpost⟩
        rcases List.eq_nil_or_concat post with rfl | ⟨post,e',rfl⟩
        · have hlast := List.append_inj_right' he rfl
          simp only [List.cons.injEq,and_true] at hlast
          rw [hlast] at ht
          exact absurd rfl ht
        · rw [List.concat_eq_append,← List.cons_append,← List.append_assoc] at he
          exact ⟨pre,post,List.append_inj_left' he rfl,fun e'' h'' => hpost e'' (by simp [h''])⟩

/-- A key is written only where it reads nothing. -/
def Exclusive (h : List (Event K V)) : Prop :=
  ∀ pre k v post, h = pre ++ .put k v::post → read pre k = none

theorem exclusive_nil : Exclusive ([] : List (Event K V)) := fun pre k v post he => by simp at he

theorem Exclusive.concat {h : List (Event K V)} (hx : Exclusive h) {e : Event K V}
    (he : ∀ k v, e = .put k v → read h k = none) : Exclusive (h++[e]) := by
  intro pre k v post hsplit
  rcases List.eq_nil_or_concat post with rfl | ⟨post,e',rfl⟩
  · have hlast := List.append_inj_right' hsplit rfl
    rw [← List.append_inj_left' hsplit rfl]
    exact he k v (List.cons.inj hlast).1
  · rw [List.concat_eq_append,← List.cons_append,← List.append_assoc] at hsplit
    exact hx pre k v post (List.append_inj_left' hsplit rfl)

/-- Between a write of a key and a moment at which it reads nothing, it has been removed. -/
theorem removed_of_read_eq_none {pre mid : List (Event K V)} {k : K} {v : V}
    (h : read (pre ++ .put k v::mid) k = none) : .erase k ∈ mid ∨ .clear ∈ mid := by
  induction mid using List.reverseRecOn with
  | nil => simp [read_concat,Event.apply] at h
  | append_singleton mid e ih =>
    rw [← List.cons_append,← List.append_assoc,read_concat] at h
    by_cases ht : e.Touches k
    · cases e with
      | put k' w =>
        cases ht
        simp [Event.apply] at h
      | erase k' =>
        cases ht
        simp
      | clear => simp
    · rw [apply_of_not_touches _ ht] at h
      exact (ih h).imp (List.mem_append_left _) (List.mem_append_left _)

theorem Exclusive.removed_between {h pre mid post : List (Event K V)} {k : K} {v w : V}
    (hx : Exclusive h) (he : h = pre ++ .put k v::(mid ++ .put k w::post)) :
    .erase k ∈ mid ∨ .clear ∈ mid :=
  removed_of_read_eq_none (hx (pre ++ .put k v::mid) k w post (by rw [he]; simp))

end KeyedHistory
end IotBase
