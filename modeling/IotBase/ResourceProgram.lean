import IotBase.LabelledRun

/-! Programs that take and give back resources: descriptors, buffers, streams, each with an identity of
its own, and one mutex. A program has no result where it uses or gives back what is not held, takes the
mutex while it is taken, or releases it while it is not. -/
namespace IotBase
namespace ResourceProgram
open LabelledRun

/-- The state proper, the mutex, what is held, and the next identity. -/
structure World (S : Type) where
  state : S
  locked : Bool
  held : List ℕ
  next : ℕ

abbrev Prog (S : Type) := StateT (World S) Option

variable {S : Type}

def acquire : Prog S ℕ := fun w => some (w.next,{w with held := w.next::w.held, next := w.next+1})

def tryAcquire (fails : Bool) : Prog S (Option ℕ) :=
  if fails then pure none else do
    let id ← acquire
    pure (some id)

def release (id : ℕ) : Prog S Unit := fun w =>
  if id ∈ w.held then some ((),{w with held := w.held.erase id}) else none

def use (id : ℕ) : Prog S Unit := fun w => if id ∈ w.held then some ((),w) else none

def lock : Prog S Unit := fun w => if w.locked then none else some ((),{w with locked := true})

def unlock : Prog S Unit := fun w => if w.locked then some ((),{w with locked := false}) else none

def load : Prog S S := fun w => some (w.state,w)

def save (s : S) : Prog S Unit := fun w => some ((),{w with state := s})

/-- Started in the state `s`, with the mutex as `b` says and `k` held on top of whatever else is, the
program ends with the answer `a` in the state `s'`, the mutex as `b'` says, and `k'` held instead. -/
def Ends {α : Type} (b : Bool) (k : List ℕ) (s : S) (p : Prog S α) (a : α) (b' : Bool) (k' : List ℕ)
    (s' : S) : Prop :=
  ∀ rest next, ∃ next', p ⟨s,b,k++rest,next⟩ = some (a,⟨s',b',k'++rest,next'⟩)

section Rules

variable {α β : Type} {b b₁ b' : Bool} {k k₁ k' : List ℕ} {s s₁ s' : S} {a : α} {c : β}

theorem Ends.pure (a : α) : Ends b k s (Pure.pure a : Prog S α) a b k s := fun _ next => ⟨next,rfl⟩

theorem Ends.seq {p : Prog S α} {q : α → Prog S β} (hp : Ends b k s p a b₁ k₁ s₁)
    (hq : Ends b₁ k₁ s₁ (q a) c b' k' s') : Ends b k s (p >>= q) c b' k' s' := by
  intro rest next
  obtain ⟨n₁,h₁⟩ := hp rest next
  obtain ⟨n₂,h₂⟩ := hq rest n₁
  refine ⟨n₂,?_⟩
  change (p ⟨s,b,k++rest,next⟩).bind (fun r => q r.1 r.2) = _
  rw [h₁]
  exact h₂

theorem Ends.frame {p : Prog S α} (h : Ends b k s p a b' k' s') (j : List ℕ) :
    Ends b (k++j) s p a b' (k'++j) s' := by
  intro rest next
  rw [List.append_assoc,List.append_assoc]
  exact h (j++rest) next

/-- The first program leaves what was held before it where it is. -/
theorem Ends.bind {p : Prog S α} {q : α → Prog S β} (hp : Ends b [] s p a b₁ k₁ s₁)
    (hq : Ends b₁ (k₁++k) s₁ (q a) c b' k' s') : Ends b k s (p >>= q) c b' k' s' :=
  (hp.frame k).seq hq

theorem Ends.acquire {q : ℕ → Prog S β} (h : ∀ id, Ends b (id::k) s (q id) c b' k' s') :
    Ends b k s (ResourceProgram.acquire >>= q) c b' k' s' := fun rest next => h next rest (next+1)

theorem Ends.refused {q : Option ℕ → Prog S β} {fails : Bool} (hfails : fails = true)
    (h : Ends b k s (q none) c b' k' s') :
    Ends b k s (ResourceProgram.tryAcquire fails >>= q) c b' k' s' := by
  rw [tryAcquire,if_pos hfails]
  exact h

theorem Ends.granted {q : Option ℕ → Prog S β} {fails : Bool} (hfails : ¬ fails = true)
    (h : ∀ id, Ends b (id::k) s (q (some id)) c b' k' s') :
    Ends b k s (ResourceProgram.tryAcquire fails >>= q) c b' k' s' := by
  rw [tryAcquire,if_neg hfails]
  exact .acquire h

theorem Ends.kept {q : Option ℕ → Prog S β} {fails : Bool} (hfails : ¬ fails = true) {c : ℕ → β}
    (h : ∀ id, Ends b [id] s (q (some id)) (c id) b' [id] s') (rest : List ℕ) (next : ℕ) : ∃ next',
      (ResourceProgram.tryAcquire fails >>= q) ⟨s,b,rest,next⟩ =
        some (c next,⟨s',b',next::rest,next'⟩) := by
  rw [tryAcquire,if_neg hfails]
  exact h next rest (next+1)

theorem Ends.release {id : ℕ} {q : Unit → Prog S β} (hid : id ∈ k)
    (h : Ends b (k.erase id) s (q ()) c b' k' s') :
    Ends b k s (ResourceProgram.release id >>= q) c b' k' s' := by
  intro rest next
  obtain ⟨n,hn⟩ := h rest next
  refine ⟨n,?_⟩
  change (ResourceProgram.release id ⟨s,b,k++rest,next⟩).bind (fun r => q r.1 r.2) = _
  rw [ResourceProgram.release,if_pos (List.mem_append_left _ hid)]
  simp only [List.erase_append_left _ hid]
  exact hn

theorem Ends.releaseLast {id : ℕ} {q : Unit → Prog S β} (h : Ends b k s (q ()) c b' k' s') :
    Ends b (id::k) s (ResourceProgram.release id >>= q) c b' k' s' :=
  .release List.mem_cons_self (by rwa [List.erase_cons_head])

theorem Ends.released (id : ℕ) : Ends b (id::k) s (ResourceProgram.release id) () b k s := fun rest next =>
  ⟨next,by simp [ResourceProgram.release]⟩

theorem Ends.use {id : ℕ} {q : Unit → Prog S β} (hid : id ∈ k) (h : Ends b k s (q ()) c b' k' s') :
    Ends b k s (ResourceProgram.use id >>= q) c b' k' s' := by
  intro rest next
  obtain ⟨n,hn⟩ := h rest next
  refine ⟨n,?_⟩
  change (ResourceProgram.use id ⟨s,b,k++rest,next⟩).bind (fun r => q r.1 r.2) = _
  rw [ResourceProgram.use,if_pos (List.mem_append_left _ hid)]
  exact hn

theorem Ends.useLast {id : ℕ} {q : Unit → Prog S β} (h : Ends b (id::k) s (q ()) c b' k' s') :
    Ends b (id::k) s (ResourceProgram.use id >>= q) c b' k' s' :=
  .use List.mem_cons_self h

theorem Ends.lock {q : Unit → Prog S β} (h : Ends true k s (q ()) c b' k' s') :
    Ends false k s (ResourceProgram.lock >>= q) c b' k' s' := h

theorem Ends.unlock {q : Unit → Prog S β} (h : Ends false k s (q ()) c b' k' s') :
    Ends true k s (ResourceProgram.unlock >>= q) c b' k' s' := h

theorem Ends.load {q : S → Prog S β} (h : Ends b k s (q s) c b' k' s') :
    Ends b k s (ResourceProgram.load >>= q) c b' k' s' := h

theorem Ends.save {t : S} {q : Unit → Prog S β} (h : Ends b k t (q ()) c b' k' s') :
    Ends b k s (ResourceProgram.save t >>= q) c b' k' s' := h

/-- Started in the state `s`, with the mutex as `b` says, the program ends with the answer `a` in the
state `s'`, the mutex as `b'` says, and `n` resources more than before. -/
def Leaves (b : Bool) (s : S) (p : Prog S α) (a : α) (n : ℕ) (b' : Bool) (s' : S) : Prop :=
  ∀ rest next, ∃ k next', p ⟨s,b,rest,next⟩ = some (a,⟨s',b',k++rest,next'⟩) ∧ k.length = n

variable {n m : ℕ}

theorem Ends.leaves {p : Prog S α} (h : Ends b [] s p a b' k' s') : Leaves b s p a k'.length b' s' := by
  intro rest next
  obtain ⟨next',hp⟩ := h rest next
  exact ⟨k',next',hp,rfl⟩

theorem Leaves.bind {p : Prog S α} {q : α → Prog S β} (hp : Leaves b s p a n b₁ s₁)
    (hq : Leaves b₁ s₁ (q a) c m b' s') : Leaves b s (p >>= q) c (n+m) b' s' := by
  intro rest next
  obtain ⟨j,next₁,h₁,hj⟩ := hp rest next
  obtain ⟨k,next₂,h₂,hk⟩ := hq (j++rest) next₁
  refine ⟨k++j,next₂,?_,by rw [List.length_append,hj,hk,Nat.add_comm]⟩
  change (p ⟨s,b,rest,next⟩).bind (fun r => q r.1 r.2) = _
  rw [h₁,List.append_assoc]
  exact h₂

theorem Leaves.after {p : Prog S α} {q : α → Prog S β} (hp : Ends b [] s p a b₁ [] s₁)
    (hq : Leaves b₁ s₁ (q a) c n b' s') : Leaves b s (p >>= q) c n b' s' := by
  have hbind := hp.leaves.bind hq
  rwa [List.length_nil,Nat.zero_add] at hbind

theorem Leaves.refused {q : Option ℕ → Prog S β} {fails : Bool} (hfails : fails = true)
    (h : Leaves b s (q none) c n b' s') :
    Leaves b s (ResourceProgram.tryAcquire fails >>= q) c n b' s' := by
  rw [tryAcquire,if_pos hfails]
  exact h

theorem Leaves.granted {q : Option ℕ → Prog S β} {fails : Bool} (hfails : ¬ fails = true)
    (h : ∀ id, Leaves b s (q (some id)) c n b' s') :
    Leaves b s (ResourceProgram.tryAcquire fails >>= q) c (n+1) b' s' := by
  intro rest next
  obtain ⟨k,next',hq,hk⟩ := h next (next::rest) (next+1)
  refine ⟨k++[next],next',?_,by rw [List.length_append,hk,List.length_singleton]⟩
  rw [tryAcquire,if_neg hfails,List.append_assoc]
  exact hq

theorem Leaves.load {q : S → Prog S β} (h : Leaves b s (q s) c n b' s') :
    Leaves b s (ResourceProgram.load >>= q) c n b' s' := h

theorem Leaves.save {t : S} {q : Unit → Prog S β} (h : Leaves b t (q ()) c n b' s') :
    Leaves b s (ResourceProgram.save t >>= q) c n b' s' := h

end Rules

section Sequences

variable {C R : Type}

def runAll (run : C → Prog S R) : List C → Prog S (List R)
  | [] => pure []
  | c::cs => do
    let r ← run c
    let rs ← runAll run cs
    pure (r::rs)

/-- Where each call gives back what it takes, with `k` for it to use, and does to the state what `spec`
does, so does every sequence of calls. -/
theorem ends_runAll {k : List ℕ} {run : C → Prog S R} {spec : S → C → S × R}
    (hrun : ∀ c s, Ends false k s (run c) (spec s c).2 false k (spec s c).1) (cs : List C) (s : S) :
    ∃ rs t, Ends false k s (runAll run cs) rs false k t ∧ rs.length = cs.length ∧
      Replays spec s (cs.zip rs) t := by
  induction cs generalizing s with
  | nil => exact ⟨[],s,.pure [],rfl,rfl⟩
  | cons c cs ih =>
    obtain ⟨rs,t,hends,hlength,hreplays⟩ := ih (spec s c).1
    refine ⟨(spec s c).2::rs,t,(hrun c s).seq (hends.seq (.pure _)),?_,rfl,hreplays⟩
    rw [List.length_cons,List.length_cons,hlength]

def total (spec : S → C → S × R) (count : S → C → ℕ) : S → List C → ℕ
  | _, [] => 0
  | s, c::cs => count s c+total spec count (spec s c).1 cs

theorem leaves_runAll {run : C → Prog S R} {spec : S → C → S × R} {count : S → C → ℕ}
    (hrun : ∀ c s, Leaves false s (run c) (spec s c).2 (count s c) false (spec s c).1) (cs : List C)
    (s : S) : ∃ rs t, Leaves false s (runAll run cs) rs (total spec count s cs) false t ∧
      rs.length = cs.length ∧ Replays spec s (cs.zip rs) t := by
  induction cs generalizing s with
  | nil => exact ⟨[],s,(Ends.pure (k:=[]) []).leaves,rfl,rfl⟩
  | cons c cs ih =>
    obtain ⟨rs,t,hleaves,hlength,hreplays⟩ := ih (spec s c).1
    have hrest : Leaves false (spec s c).1 (runAll run cs >>= fun rs => pure ((spec s c).2::rs))
        ((spec s c).2::rs) (total spec count (spec s c).1 cs) false t :=
      hleaves.bind (q:=fun rs => pure ((spec s c).2::rs)) (Ends.pure (k:=[]) _).leaves
    refine ⟨(spec s c).2::rs,t,?_,?_,rfl,hreplays⟩
    · exact (hrun c s).bind hrest
    · rw [List.length_cons,List.length_cons,hlength]

end Sequences

end ResourceProgram
end IotBase
