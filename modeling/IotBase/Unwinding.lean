import Mathlib.Data.List.Basic

/-! Independence of a part of a state. A view of the state that irrelevant calls leave alone and
that decides what relevant calls answer is, over a whole run, what the relevant calls alone make of
it. -/
namespace IotBase
namespace Unwinding

variable {S C R V : Type*}

def finish (step : S → C → S × R) (s : S) (cs : List C) : S := cs.foldl (fun s c => (step s c).1) s

/-- What the calls that `rel` selects answer, in a run of all of them. -/
def answers (step : S → C → S × R) (rel : C → Bool) : S → List C → List R
  | _, [] => []
  | s, c::cs =>
    if rel c then (step s c).2::answers step rel (step s c).1 cs
    else answers step rel (step s c).1 cs

/-- The view suffices for the relevant calls and no other call changes it. -/
structure Unwinds (step : S → C → S × R) (rel : C → Bool) (view : S → V) : Prop where
  local_answer : ∀ s t c, rel c = true → view s = view t → (step s c).2 = (step t c).2
  local_view : ∀ s t c, rel c = true → view s = view t → view (step s c).1 = view (step t c).1
  frame : ∀ s c, rel c = false → view (step s c).1 = view s

variable {step : S → C → S × R} {rel : C → Bool} {view : S → V}

/-- The relevant calls answer, and leave the view, as if the others had not been made. -/
theorem Unwinds.filter (h : Unwinds step rel view) {s t : S} (hst : view s = view t) (cs : List C) :
    answers step rel s cs = answers step rel t (cs.filter rel) ∧
      view (finish step s cs) = view (finish step t (cs.filter rel)) := by
  induction cs generalizing s t with
  | nil => exact ⟨rfl,hst⟩
  | cons c cs ih =>
    cases hc : rel c with
    | true =>
      obtain ⟨hanswers,hview⟩ := ih (h.local_view s t c hc hst)
      rw [List.filter_cons_of_pos hc]
      refine ⟨?_,hview⟩
      rw [answers,answers,if_pos hc,if_pos hc,h.local_answer s t c hc hst,hanswers]
    | false =>
      obtain ⟨hanswers,hview⟩ := ih ((h.frame s c hc).trans hst)
      rw [List.filter_cons_of_neg (by simp [hc])]
      refine ⟨?_,hview⟩
      rw [answers,if_neg (by simp [hc]),hanswers]

theorem answers_filter (s : S) (cs : List C) :
    answers step rel s (cs.filter rel) = answers step (fun _ => true) s (cs.filter rel) := by
  induction cs generalizing s with
  | nil => rfl
  | cons c cs ih =>
    cases hc : rel c with
    | true =>
      rw [List.filter_cons_of_pos hc,answers,answers,if_pos hc,if_pos rfl,ih]
    | false =>
      rw [List.filter_cons_of_neg (by simp [hc])]
      exact ih s

end Unwinding
end IotBase
