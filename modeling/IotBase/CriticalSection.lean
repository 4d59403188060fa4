import IotBase.LabelledRun
import Mathlib.Logic.Function.Basic

/-! Threads whose calls work on a shared state in small steps, all of them under one mutex. Whatever
the interleaving, the calls answer as if each had been made at once, in the order in which they
finish. -/
namespace IotBase
namespace CriticalSection
open LabelledRun

/-- A call either returns before it takes the mutex, or it is a loop of small steps under it. -/
structure Routine (S C B R : Type*) where
  early : C → Option R
  enter : C → B
  micro : S → B → S × (B ⊕ R)

inductive Place (C B R : Type*)
  | outside
  | waiting (c : C)
  | inside (c : C) (b : B)
  | leaving (c : C) (r : R)

structure System (T S C B R : Type*) where
  shared : S
  owner : Option T
  place : T → Place C B R
  history : List (T × C × R)
  returned : T → List (C × R)

inductive Label (T C : Type*)
  | call (t : T) (c : C)
  | lock (t : T)
  | micro (t : T)
  | unlock (t : T)

variable {T S C B R : Type*}

def System.init (s : S) : System T S C B R := ⟨s,none,fun _ => .outside,[],fun _ => []⟩

section Steps
variable [DecidableEq T]

def System.move (sys : System T S C B R) (t : T) (p : Place C B R) : System T S C B R :=
  {sys with place := Function.update sys.place t p}

def System.step (m : Routine S C B R) (sys : System T S C B R) : Label T C → Option (System T S C B R)
  | .call t c =>
    match sys.place t with
    | .outside =>
      match m.early c with
      | some r => some {sys with
          history := sys.history++[(t,c,r)]
          returned := Function.update sys.returned t (sys.returned t++[(c,r)])}
      | none => some (sys.move t (.waiting c))
    | _ => none
  | .lock t =>
    match sys.place t, sys.owner with
    | .waiting c, none => some {sys.move t (.inside c (m.enter c)) with owner := some t}
    | _, _ => none
  | .micro t =>
    match sys.place t with
    | .inside c b =>
      match m.micro sys.shared b with
      | (s,.inl b) => some {sys.move t (.inside c b) with shared := s}
      | (s,.inr r) =>
        some {sys.move t (.leaving c r) with shared := s, history := sys.history++[(t,c,r)]}
    | _ => none
  | .unlock t =>
    match sys.place t with
    | .leaving c r => some {sys.move t .outside with
        owner := none
        returned := Function.update sys.returned t (sys.returned t++[(c,r)])}
    | _ => none

end Steps

theorem step_micro_more [DecidableEq T] {m : Routine S C B R} {sys : System T S C B R} {t : T} {c : C}
    {b b' : B} {s : S} (hplace : sys.place t = .inside c b) (hm : m.micro sys.shared b = (s,.inl b')) :
    sys.step m (.micro t) = some {sys.move t (.inside c b') with shared := s} := by
  simp only [System.step,hplace,hm]

inductive Reaches (m : Routine S C B R) : S → B → S → B → Prop
  | refl (s : S) (b : B) : Reaches m s b s b
  | step {s u v : S} {b b₁ b₂ : B} (h : Reaches m s b u b₁) (hm : m.micro u b₁ = (v,.inl b₂)) :
      Reaches m s b v b₂

inductive Runs (m : Routine S C B R) (s : S) (c : C) : S → R → Prop
  | early {r : R} (h : m.early c = some r) : Runs m s c s r
  | locked {u v : S} {b : B} {r : R} (hc : m.early c = none) (h : Reaches m s (m.enter c) u b)
      (hm : m.micro u b = (v,.inr r)) : Runs m s c v r

def Implements (m : Routine S C B R) (spec : S → C → S × R) : Prop :=
  ∀ s c s' r, Runs m s c s' r → spec s c = (s',r)

def Place.pending : Place C B R → List (C × R)
  | .leaving c r => [(c,r)]
  | _ => []

/-- The thread holds the mutex, and the calls that have finished left `base`. -/
def Place.Holds (m : Routine S C B R) (base shared : S) : Place C B R → Prop
  | .inside c b => m.early c = none ∧ Reaches m base (m.enter c) shared b
  | .leaving _ _ => shared = base
  | .outside => False
  | .waiting _ => False

def Place.Free (m : Routine S C B R) : Place C B R → Prop
  | .waiting c => m.early c = none
  | .outside => True
  | .inside _ _ => False
  | .leaving _ _ => False

def Place.Calls (P : C → Prop) : Place C B R → Prop
  | .outside => True
  | .waiting c => P c
  | .inside c _ => P c
  | .leaving c _ => P c

def Label.Calls (P : C → Prop) : Label T C → Prop
  | .call _ c => P c
  | _ => True

section Invariant
variable [DecidableEq T] {m : Routine S C B R} {spec : S → C → S × R} {s₀ : S}
  {sys sys' : System T S C B R}

/-- The calls that have finished explain the state that the owner of the mutex has found. -/
structure Inv (m : Routine S C B R) (spec : S → C → S × R) (s₀ base : S) (sys : System T S C B R) :
    Prop where
  replays : Replays spec s₀ (sys.history.map Prod.snd) base
  thread : ∀ t, (sys.history.filter fun e => decide (e.1 = t)).map Prod.snd =
    sys.returned t++(sys.place t).pending
  free : ∀ t, sys.owner ≠ some t → (sys.place t).Free m
  idle : sys.owner = none → sys.shared = base
  owner : ∀ t, sys.owner = some t → (sys.place t).Holds m base sys.shared

theorem filter_concat (h : List (T × C × R)) (t u : T) (c : C) (r : R) :
    ((h++[(t,c,r)]).filter fun e => decide (e.1 = u)).map Prod.snd =
      (h.filter fun e => decide (e.1 = u)).map Prod.snd ++ if t = u then [(c,r)] else [] := by
  rw [List.filter_append,List.map_append]
  by_cases htu : t = u
  · simp [htu]
  · simp [htu]

theorem init_inv (m : Routine S C B R) (spec : S → C → S × R) (s₀ : S) :
    Inv m spec s₀ s₀ (System.init s₀ : System T S C B R) where
  replays := rfl
  thread _ := rfl
  free _ _ := trivial
  idle _ := rfl
  owner _ h := nomatch h

theorem Inv.owner_of_not_free {base : S} (h : Inv m spec s₀ base sys) {t : T}
    (ht : ¬ (sys.place t).Free m) : sys.owner = some t := by
  by_contra hne
  exact ht (h.free t hne)

theorem Inv.thread_of_move {base : S} (h : Inv m spec s₀ base sys) {t : T} {p : Place C B R}
    {l : List (C × R)} (hp : l++p.pending = sys.returned t++(sys.place t).pending) (u : T) :
    (sys.history.filter fun e => decide (e.1 = u)).map Prod.snd =
      Function.update sys.returned t l u++(Function.update sys.place t p u).pending := by
  by_cases hu : u = t
  · rw [hu,Function.update_self,Function.update_self,hp,h.thread t]
  · rw [Function.update_of_ne hu,Function.update_of_ne hu,h.thread u]

theorem Inv.thread_of_answer {base : S} (h : Inv m spec s₀ base sys) {t : T} {c : C} {r : R}
    {p : Place C B R} {l : List (C × R)} (hold : (sys.place t).pending = [])
    (hp : l++p.pending = sys.returned t++[(c,r)]) (u : T) :
    ((sys.history++[(t,c,r)]).filter fun e => decide (e.1 = u)).map Prod.snd =
      Function.update sys.returned t l u++(Function.update sys.place t p u).pending := by
  rw [filter_concat,h.thread u]
  by_cases hu : u = t
  · rw [hu,if_pos rfl,Function.update_self,Function.update_self,hp,hold,List.append_nil]
  · rw [if_neg (Ne.symm hu),List.append_nil,Function.update_of_ne hu,Function.update_of_ne hu]

theorem call_inv (hspec : Implements m spec) {base : S} (h : Inv m spec s₀ base sys) {t : T} {c : C}
    (ht : sys.step m (.call t c) = some sys') : Inv m spec s₀ base sys' := by
  simp only [System.step] at ht
  cases hplace : sys.place t with
  | waiting c => simp only [hplace] at ht; cases ht
  | inside c b => simp only [hplace] at ht; cases ht
  | leaving c r => simp only [hplace] at ht; cases ht
  | outside =>
    simp only [hplace] at ht
    have hpending : (sys.place t).pending = [] := by rw [hplace]; rfl
    cases hearly : m.early c with
    | some r =>
      simp only [hearly] at ht
      cases ht
      refine ⟨?_,fun u => ?_,h.free,h.idle,h.owner⟩
      · rw [List.map_append]
        exact h.replays.concat (hspec _ _ _ _ (.early hearly))
      · have hthread := h.thread_of_answer (p:=sys.place t) hpending
          (show (sys.returned t++[(c,r)])++_ = _ by rw [hpending,List.append_nil]) u
        rwa [Function.update_eq_self] at hthread
    | none =>
      simp only [hearly] at ht
      cases ht
      have howner : sys.owner ≠ some t := by
        intro howner
        have hholds := h.owner t howner
        rw [hplace] at hholds
        exact hholds
      refine ⟨h.replays,fun u => ?_,fun u hu => ?_,h.idle,fun u hu => ?_⟩
      · have hthread := h.thread_of_move (t:=t) (p:=.waiting c) (l:=sys.returned t)
          (by rw [hpending]; rfl) u
        rwa [Function.update_eq_self] at hthread
      · change (Function.update sys.place t (.waiting c) u).Free m
        by_cases hut : u = t
        · rw [hut,Function.update_self]
          exact hearly
        · rw [Function.update_of_ne hut]
          exact h.free u hu
      · have hut : u ≠ t := fun he => howner (he ▸ hu)
        change (Function.update sys.place t (.waiting c) u).Holds m base sys.shared
        rw [Function.update_of_ne hut]
        exact h.owner u hu

theorem lock_inv {base : S} (h : Inv m spec s₀ base sys) {t : T}
    (ht : sys.step m (.lock t : Label T C) = some sys') : Inv m spec s₀ base sys' := by
  simp only [System.step] at ht
  split at ht
  · rename_i c hplace howner
    cases ht
    have hearly : m.early c = none := by
      have hfree := h.free t (by rw [howner]; exact (Option.some_ne_none t).symm)
      rw [hplace] at hfree
      exact hfree
    refine ⟨h.replays,fun u => ?_,fun u hu => ?_,(fun hnone => nomatch hnone),fun u hu => ?_⟩
    · have hthread := h.thread_of_move (t:=t) (p:=.inside c (m.enter c)) (l:=sys.returned t)
        (by rw [hplace]; rfl) u
      rwa [Function.update_eq_self] at hthread
    · have hut : u ≠ t := fun he => hu (congrArg some he.symm)
      change (Function.update sys.place t (.inside c (m.enter c)) u).Free m
      rw [Function.update_of_ne hut]
      exact h.free u (by rw [howner]; exact (Option.some_ne_none u).symm)
    · obtain rfl : t = u := Option.some.inj hu
      change (Function.update sys.place t (.inside c (m.enter c)) t).Holds m base sys.shared
      rw [Function.update_self,h.idle howner]
      exact ⟨hearly,.refl _ _⟩
  · cases ht

theorem micro_inv (hspec : Implements m spec) {base : S} (h : Inv m spec s₀ base sys) {t : T}
    (ht : sys.step m (.micro t : Label T C) = some sys') : ∃ base', Inv m spec s₀ base' sys' := by
  simp only [System.step] at ht
  cases hplace : sys.place t with
  | outside => simp only [hplace] at ht; cases ht
  | waiting c => simp only [hplace] at ht; cases ht
  | leaving c r => simp only [hplace] at ht; cases ht
  | inside c b =>
    have howner : sys.owner = some t := h.owner_of_not_free (by rw [hplace]; exact id)
    obtain ⟨hearly,hreaches⟩ : m.early c = none ∧ Reaches m base (m.enter c) sys.shared b := by
      have hholds := h.owner t howner
      rwa [hplace] at hholds
    have hother : ∀ (p : Place C B R) (u : T), sys.owner ≠ some u →
        (Function.update sys.place t p u).Free m := by
      intro p u hu
      have hut : u ≠ t := fun he => hu (he ▸ howner)
      rw [Function.update_of_ne hut]
      exact h.free u hu
    simp only [hplace] at ht
    rcases hm : m.micro sys.shared b with ⟨s,b' | r⟩
    · rw [hm] at ht
      cases ht
      refine ⟨base,h.replays,fun u => ?_,hother _,fun hnone => ?_,fun u hu => ?_⟩
      · have hthread := h.thread_of_move (t:=t) (p:=.inside c b') (l:=sys.returned t)
          (by rw [hplace]; rfl) u
        rwa [Function.update_eq_self] at hthread
      · rw [show sys.owner = none from hnone] at howner
        cases howner
      · obtain rfl : t = u := Option.some.inj (howner.symm.trans hu)
        change (Function.update sys.place t (.inside c b') t).Holds m base s
        rw [Function.update_self]
        exact ⟨hearly,hreaches.step hm⟩
    · rw [hm] at ht
      cases ht
      refine ⟨s,?_,fun u => ?_,hother _,fun _ => rfl,fun u hu => ?_⟩
      · rw [List.map_append]
        exact h.replays.concat (hspec _ _ _ _ (.locked hearly hreaches hm))
      · have hthread := h.thread_of_answer (p:=.leaving c r) (l:=sys.returned t)
          (by rw [hplace]; rfl) rfl u
        rwa [Function.update_eq_self] at hthread
      · obtain rfl : t = u := Option.some.inj (howner.symm.trans hu)
        change (Function.update sys.place t (.leaving c r) t).Holds m s s
        rw [Function.update_self,Place.Holds]

theorem unlock_inv {base : S} (h : Inv m spec s₀ base sys) {t : T}
    (ht : sys.step m (.unlock t : Label T C) = some sys') : Inv m spec s₀ base sys' := by
  simp only [System.step] at ht
  cases hplace : sys.place t with
  | outside => simp only [hplace] at ht; cases ht
  | waiting c => simp only [hplace] at ht; cases ht
  | inside c b => simp only [hplace] at ht; cases ht
  | leaving c r =>
    have howner : sys.owner = some t := h.owner_of_not_free (by rw [hplace]; exact id)
    have hshared : sys.shared = base := by
      have hholds := h.owner t howner
      rwa [hplace] at hholds
    simp only [hplace] at ht
    cases ht
    refine ⟨h.replays,h.thread_of_move (by rw [hplace]; exact List.append_nil _),fun u _ => ?_,
      fun _ => hshared,(fun u hu => nomatch hu)⟩
    change (Function.update sys.place t .outside u).Free m
    by_cases hut : u = t
    · rw [hut,Function.update_self]
      trivial
    · rw [Function.update_of_ne hut]
      exact h.free u fun hu => hut (Option.some.inj (howner.symm.trans hu)).symm

theorem step_inv (hspec : Implements m spec) {base : S} (h : Inv m spec s₀ base sys) {l : Label T C}
    (ht : sys.step m l = some sys') : ∃ base', Inv m spec s₀ base' sys' := by
  cases l with
  | call t c => exact ⟨base,call_inv hspec h ht⟩
  | lock t => exact ⟨base,lock_inv h ht⟩
  | micro t => exact micro_inv hspec h ht
  | unlock t => exact ⟨base,unlock_inv h ht⟩

/-- Whatever the interleaving, the calls in the order in which they finish, each made at once,
answer what the threads have been answered and lead to the shared state. -/
theorem explained (hspec : Implements m spec) (ls : List (Label T C))
    (hs : exec (System.step m) (System.init s₀) ls = some sys) : ∃ base, Inv m spec s₀ base sys :=
  exec_invariant_of_step (I:=fun sys => ∃ base, Inv m spec s₀ base sys)
    (fun _ _ _ ⟨_,h⟩ ht => step_inv hspec h ht) ls ⟨s₀,init_inv m spec s₀⟩ hs

/-- The calls that the threads are making or have finished are among those that `P` allows. -/
def System.Calls (P : C → Prop) (sys : System T S C B R) : Prop :=
  (∀ t, (sys.place t).Calls P) ∧ ∀ e ∈ sys.history, P e.2.1

theorem System.Calls.move {P : C → Prop} (h : sys.Calls P) {t : T} {p : Place C B R} (hp : p.Calls P)
    (u : T) : (Function.update sys.place t p u).Calls P := by
  by_cases hu : u = t
  · rwa [hu,Function.update_self]
  · rw [Function.update_of_ne hu]
    exact h.1 u

omit [DecidableEq T] in
theorem System.Calls.answer {P : C → Prop} (h : sys.Calls P) {t : T} {c : C} {r : R} (hc : P c) :
    ∀ e ∈ sys.history++[(t,c,r)], P e.2.1 :=
  List.forall_mem_append.mpr ⟨h.2,List.forall_mem_singleton.mpr hc⟩

theorem step_calls {P : C → Prop} (h : sys.Calls P) {l : Label T C} (hl : l.Calls P)
    (ht : sys.step m l = some sys') : sys'.Calls P := by
  cases l with
  | call t c =>
    simp only [System.step] at ht
    split at ht
    · split at ht
      · cases ht
        exact ⟨h.1,h.answer hl⟩
      · cases ht
        exact ⟨h.move hl,h.2⟩
    · cases ht
  | lock t =>
    simp only [System.step] at ht
    split at ht
    · rename_i c hplace howner
      cases ht
      have hc := h.1 t
      rw [hplace] at hc
      exact ⟨h.move (p:=.inside c (m.enter c)) hc,h.2⟩
    · cases ht
  | micro t =>
    have hc := h.1 t
    simp only [System.step] at ht
    split at ht
    · rename_i c b hplace
      rw [hplace] at hc
      split at ht
      · rename_i s b' hm
        cases ht
        exact ⟨h.move (p:=.inside c b') hc,h.2⟩
      · rename_i s r hm
        cases ht
        exact ⟨h.move (p:=.leaving c r) hc,h.answer hc⟩
    · cases ht
  | unlock t =>
    simp only [System.step] at ht
    split at ht
    · cases ht
      exact ⟨h.move trivial,h.2⟩
    · cases ht

theorem history_calls {P : C → Prop} {ls : List (Label T C)} (hls : ∀ l ∈ ls, l.Calls P)
    (hs : exec (System.step m) (System.init s₀) ls = some sys) : ∀ e ∈ sys.history, P e.2.1 := by
  have hinit : (System.init s₀ : System T S C B R).Calls P :=
    ⟨fun _ => trivial,fun _ h => nomatch h⟩
  exact (exec_invariant (C:=fun _ l => l.Calls P) (fun _ _ _ h hl ht => step_calls h hl ht) ls hinit
    (meets_of_labels hls _) hs).2

theorem step_history {l : Label T C} (ht : sys.step m l = some sys') :
    sys.history <+: sys'.history := by
  cases l with
  | call t c =>
    simp only [System.step] at ht
    split at ht
    · split at ht
      · cases ht
        exact List.prefix_append _ _
      · cases ht
        exact List.prefix_rfl
    · cases ht
  | lock t =>
    simp only [System.step] at ht
    split at ht
    · cases ht
      exact List.prefix_rfl
    · cases ht
  | micro t =>
    simp only [System.step] at ht
    split at ht
    · split at ht
      · cases ht
        exact List.prefix_rfl
      · cases ht
        exact List.prefix_append _ _
    · cases ht
  | unlock t =>
    simp only [System.step] at ht
    split at ht
    · cases ht
      exact List.prefix_rfl
    · cases ht

theorem history_prefix {ls : List (Label T C)} (hs : exec (System.step m) sys ls = some sys') :
    sys.history <+: sys'.history := by
  induction ls generalizing sys with
  | nil =>
    cases hs
    exact List.prefix_rfl
  | cons l ls ih =>
    obtain ⟨u,hu,hs⟩ := exec_cons.mp hs
    exact (step_history hu).trans (ih hs)

/-- The calls of the run answer as those of `spec` do, made at once in the order in which they finish:
those of a thread in the order of the thread, and one that has finished before those that finish later. -/
structure Linearized {A : Type*} (m : Routine S C B R) (s₀ : S) (ls : List (Label T C))
    (sys : System T S C B R) (spec : A → C → A × R) (a₀ a : A) : Prop where
  replays : Replays spec a₀ (sys.history.map Prod.snd) a
  thread : ∀ t, (sys.history.filter fun e => decide (e.1 = t)).map Prod.snd =
    sys.returned t++(sys.place t).pending
  order : ∀ pre mid, pre <+: ls → exec (System.step m) (System.init s₀) pre = some mid →
    mid.history <+: sys.history

theorem Inv.linearized {A : Type*} {abstract : A → C → A × R} {a₀ a : A} {base : S}
    (h : Inv m spec s₀ base sys) {ls : List (Label T C)}
    (hs : exec (System.step m) (System.init s₀) ls = some sys)
    (hreplays : Replays abstract a₀ (sys.history.map Prod.snd) a) :
    Linearized m s₀ ls sys abstract a₀ a where
  replays := hreplays
  thread := h.thread
  order := by
    rintro pre mid ⟨post,rfl⟩ hpre
    obtain ⟨_,hpre',hpost⟩ := exec_append.mp hs
    cases hpre.symm.trans hpre'
    exact history_prefix hpost

end Invariant

end CriticalSection
end IotBase
