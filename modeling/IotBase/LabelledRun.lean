import Mathlib.Data.Option.Basic
import Mathlib.Data.List.Basic

/-! Runs of a partial step function whose labels carry every choice of the
environment: which thread moves, what a system call answers. Quantifying over
label lists is quantifying over interleavings. -/
namespace IotBase
namespace LabelledRun

variable {S L T : Type*}

/-- Take the labels in order; a label that is not enabled leaves no state. -/
def exec (step : S → L → Option S) : S → List L → Option S
  | s, [] => some s
  | s, l::ls => (step s l).bind fun t => exec step t ls

/-- Every label of the run meets `C` in the state it is taken from. -/
def Meets (step : S → L → Option S) (C : S → L → Prop) : S → List L → Prop
  | _, [] => True
  | s, l::ls => C s l ∧ ∀ t, step s l = some t → Meets step C t ls

instance decidableMeets {step : S → L → Option S} {C : S → L → Prop} [∀ s l, Decidable (C s l)] :
    ∀ (s : S) (ls : List L), Decidable (Meets step C s ls)
  | _, [] => .isTrue trivial
  | s, l::ls =>
    have : Decidable (∀ t, step s l = some t → Meets step C t ls) :=
      match step s l with
      | none => .isTrue fun _ ht => by cases ht
      | some t =>
        have : Decidable (Meets step C t ls) := decidableMeets t ls
        decidable_of_iff (Meets step C t ls)
          ⟨fun h _ ht => Option.some.inj ht ▸ h,fun h => h t rfl⟩
    inferInstanceAs (Decidable (_ ∧ _))

@[simp] theorem exec_nil (step : S → L → Option S) (s : S) : exec step s [] = some s := rfl

theorem exec_cons {step : S → L → Option S} {s u : S} {l : L} {ls : List L} :
    exec step s (l::ls) = some u ↔ ∃ t, step s l = some t ∧ exec step t ls = some u := by
  simp [exec,Option.bind_eq_some_iff]

theorem exec_append {step : S → L → Option S} {s u : S} {ls ls' : List L} :
    exec step s (ls++ls') = some u ↔ ∃ t, exec step s ls = some t ∧ exec step t ls' = some u := by
  induction ls generalizing s with
  | nil => simp
  | cons l ls ih =>
    simp only [List.cons_append,exec_cons,ih]
    constructor
    · rintro ⟨v,hv,t,ht,hu⟩
      exact ⟨t,⟨v,hv,ht⟩,hu⟩
    · rintro ⟨t,⟨v,hv,ht⟩,hu⟩
      exact ⟨v,hv,t,ht,hu⟩

/-- The induction behind every safety result: what each admissible step keeps,
a run of admissible steps keeps. -/
theorem exec_invariant {step : S → L → Option S} {C : S → L → Prop} {I : S → Prop}
    (hstep : ∀ s l t, I s → C s l → step s l = some t → I t)
    {s t : S} (ls : List L) (hs : I s) (hC : Meets step C s ls)
    (ht : exec step s ls = some t) : I t := by
  induction ls generalizing s with
  | nil =>
    cases ht
    exact hs
  | cons l ls ih =>
    obtain ⟨u,hu,hrest⟩ := exec_cons.mp ht
    exact ih (hstep s l u hs hC.1 hu) (hC.2 u hu) hrest

theorem meets_cons {step : S → L → Option S} {C : S → L → Prop} {s t : S} {l : L} {ls : List L}
    (hl : C s l) (ht : step s l = some t) (h : Meets step C t ls) : Meets step C s (l::ls) :=
  ⟨hl,fun _ hu => Option.some.inj (ht.symm.trans hu) ▸ h⟩

theorem meets_of_forall {step : S → L → Option S} {C : S → L → Prop}
    (h : ∀ s l, C s l) (s : S) (ls : List L) : Meets step C s ls := by
  induction ls generalizing s with
  | nil => trivial
  | cons l ls ih => exact ⟨h s l,fun t _ => ih t⟩

theorem meets_of_labels {step : S → L → Option S} {P : L → Prop} {ls : List L} (h : ∀ l ∈ ls, P l)
    (s : S) : Meets step (fun _ => P) s ls := by
  induction ls generalizing s with
  | nil => trivial
  | cons l ls ih =>
    obtain ⟨hl,hls⟩ := List.forall_mem_cons.mp h
    exact ⟨hl,fun t _ => ih hls t⟩

/-- An invariant that makes every label admissible, and that admissible steps keep, makes every
run admissible. -/
theorem meets_of_invariant {step : S → L → Option S} {C : S → L → Prop} {I : S → Prop}
    (hC : ∀ s l, I s → C s l) (hstep : ∀ s l t, I s → step s l = some t → I t) {s : S}
    (hs : I s) (ls : List L) : Meets step C s ls := by
  induction ls generalizing s with
  | nil => trivial
  | cons l ls ih => exact ⟨hC s l hs,fun t ht => ih (hstep s l t hs ht)⟩

theorem exec_invariant_of_step {step : S → L → Option S} {I : S → Prop}
    (hstep : ∀ s l t, I s → step s l = some t → I t)
    {s t : S} (ls : List L) (hs : I s) (ht : exec step s ls = some t) : I t :=
  exec_invariant (C:=fun _ _ => True) (fun s l t hs _ => hstep s l t hs) ls hs
    (meets_of_forall (fun _ _ => trivial) s ls) ht

/-- When the invariant gives `P` and a step that leaves `P` true is admissible, the runs of
admissible steps are those that keep `P` throughout. -/
theorem meets_iff_forall_reached {step : S → L → Option S} {C : S → L → Prop} {I P : S → Prop}
    (hstep : ∀ s l t, I s → C s l → step s l = some t → I t) (hP : ∀ s, I s → P s)
    (hback : ∀ s l t, I s → step s l = some t → P t → C s l) {s u : S} {ls : List L} (hs : I s)
    (hu : exec step s ls = some u) :
    Meets step C s ls ↔ ∀ pre t, pre <+: ls → exec step s pre = some t → P t := by
  induction ls generalizing s with
  | nil =>
    refine ⟨fun _ pre t hpre ht => ?_,fun _ => trivial⟩
    rw [List.prefix_nil.mp hpre] at ht
    cases ht
    exact hP s hs
  | cons l ls ih =>
    obtain ⟨v,hv,hend⟩ := exec_cons.mp hu
    constructor
    · rintro ⟨hC,hrest⟩ pre t hpre ht
      cases pre with
      | nil =>
        cases ht
        exact hP s hs
      | cons l' pre =>
        obtain ⟨rfl,htail⟩ := List.cons_prefix_cons.mp hpre
        obtain ⟨w,hw,hreach⟩ := exec_cons.mp ht
        obtain rfl : v = w := Option.some.inj (hv.symm.trans hw)
        exact (ih (hstep s l' v hs hC hv) hend).mp (hrest v hv) pre t htail hreach
    · intro hall
      have hC : C s l := hback s l v hs hv
        (hall [l] v (List.cons_prefix_cons.mpr ⟨rfl,List.nil_prefix⟩) (exec_cons.mpr ⟨v,hv,rfl⟩))
      refine ⟨hC,fun w hw => ?_⟩
      obtain rfl : v = w := Option.some.inj (hv.symm.trans hw)
      refine (ih (hstep s l v hs hC hv) hend).mpr fun pre t hpre ht => ?_
      exact hall (l::pre) t (List.cons_prefix_cons.mpr ⟨rfl,hpre⟩) (exec_cons.mpr ⟨v,hv,ht⟩)

/-- Where each step is matched by some steps of the other system, maybe none, each run is matched. -/
theorem exec_simulate {S' L' : Type*} {step : S → L → Option S} {step' : S' → L' → Option S'}
    {Rel : S → S' → Prop}
    (hstep : ∀ s s' l t, Rel s s' → step s l = some t →
      ∃ ls' t', exec step' s' ls' = some t' ∧ Rel t t')
    {s t : S} {s' : S'} (ls : List L) (hs : Rel s s') (ht : exec step s ls = some t) :
    ∃ ls' t', exec step' s' ls' = some t' ∧ Rel t t' := by
  induction ls generalizing s s' with
  | nil =>
    cases ht
    exact ⟨[],s',rfl,hs⟩
  | cons l ls ih =>
    obtain ⟨u,hu,hrest⟩ := exec_cons.mp ht
    obtain ⟨ls',u',hfirst,hmatch⟩ := hstep s s' l u hs hu
    obtain ⟨ls'',t',hlast,hend⟩ := ih hmatch hrest
    exact ⟨ls'++ls'',t',exec_append.mpr ⟨u',hfirst,hlast⟩,hend⟩

theorem exec_total (f : S → L → S) (s : S) (ls : List L) :
    exec (fun s l => some (f s l)) s ls = some (ls.foldl f s) := by
  induction ls generalizing s with
  | nil => rfl
  | cons l ls ih => simpa [exec] using ih (f s l)

theorem foldl_invariant {f : S → L → S} {C : S → L → Prop} {I : S → Prop}
    (hstep : ∀ s l, I s → C s l → I (f s l)) {s : S} (ls : List L) (hs : I s)
    (hC : Meets (fun s l => some (f s l)) C s ls) : I (ls.foldl f s) := by
  refine exec_invariant (fun s l t hs hc ht => ?_) ls hs hC (exec_total f s ls)
  cases ht
  exact hstep s l hs hc

section Sequential

variable {C R : Type*}

/-- The calls, taken one after the other from `s`, answer as recorded and end in `t`. -/
def Replays (spec : S → C → S × R) : S → List (C × R) → S → Prop
  | s, [], t => s = t
  | s, e::es, t => (spec s e.1).2 = e.2 ∧ Replays spec (spec s e.1).1 es t

theorem Replays.concat {spec : S → C → S × R} {s t u : S} {es : List (C × R)} {c : C} {r : R}
    (h : Replays spec s es t) (hc : spec t c = (u,r)) : Replays spec s (es++[(c,r)]) u := by
  induction es generalizing s with
  | nil =>
    cases h
    rw [List.nil_append,Replays,hc]
    exact ⟨rfl,rfl⟩
  | cons e es ih => exact ⟨h.1,ih h.2⟩

theorem Replays.invariant {spec : S → C → S × R} {I : S → Prop} (hstep : ∀ s c, I s → I (spec s c).1)
    {s t : S} {es : List (C × R)} (h : Replays spec s es t) (hs : I s) : I t := by
  induction es generalizing s with
  | nil => exact h ▸ hs
  | cons e es ih => exact ih h.2 (hstep s e.1 hs)

/-- Where each call of `P` answers as the abstract one and keeps the two states related, a history of
such calls is one of the abstract calls. -/
theorem Replays.simulate {A : Type*} {spec : S → C → S × R} {abstract : A → C → A × R}
    {Rel : S → A → Prop} {P : C → Prop}
    (hstep : ∀ s a c, Rel s a → P c →
      (spec s c).2 = (abstract a c).2 ∧ Rel (spec s c).1 (abstract a c).1)
    {s t : S} {a : A} {es : List (C × R)} (h : Replays spec s es t) (hs : Rel s a)
    (hes : ∀ e ∈ es, P e.1) : ∃ a', Replays abstract a es a' ∧ Rel t a' := by
  induction es generalizing s a with
  | nil =>
    cases h
    exact ⟨a,rfl,hs⟩
  | cons e es ih =>
    obtain ⟨he,hes⟩ := List.forall_mem_cons.mp hes
    obtain ⟨hreply,hrel⟩ := hstep s a e.1 hs he
    obtain ⟨a',hreplays,hlast⟩ := ih h.2 hrel hes
    exact ⟨a',⟨hreply.symm.trans h.1,hreplays⟩,hlast⟩

end Sequential

end LabelledRun
end IotBase
