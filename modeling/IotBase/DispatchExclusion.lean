import IotBase.DispatchRegistry
import IotBase.DispatchFifo
import IotBase.KeyedHistory

/-! Registering threads among themselves. The check of `dispatch_register_channel` is made
before the lock is taken, and a row that stores descriptor 0 counts as not registered; in
every run in which no call stores over another's row or stores a 0, registration is
exclusive and the dispatcher reads what is written to the returned end. -/
namespace IotBase
namespace DispatchExclusion
open DispatchTransfer DispatchRegistry KeyedHistory LabelledRun
open DispatchFifo (buildFdSets buildFdSets_mem)

variable {T M : Type*}

/-- The registry with the history of returned pairs and deletions, by module. -/
structure Traced (T M : Type*) where
  state : State T M
  history : List (Event ℕ (ℤ × ℤ))

def Traced.init : Traced T M := ⟨State.init,[]⟩

/-- A call that has stored its row returns the other end of its pair; a deletion counts from
when it has the lock. -/
def event (s : State T M) : Label T M → Option (Event ℕ (ℤ × ℤ))
  | .next t _ =>
    match s.thread t with
    | .storingMode moduleId _ fd0 fd1 => some (.put moduleId (fd0,fd1))
    | .deleting moduleId _ => some (.erase moduleId)
    | _ => none
  | _ => none

/-- The descriptor is stored in a row that is still not registered, and marks it as registered. -/
def Solitary (s : Traced T M) : Label T M → Prop
  | .next t _ => ∀ moduleId mode fd0 fd1, s.state.thread t = .storingFd moduleId mode fd0 fd1 →
      (s.state.fdArray moduleId).fd = dispatchInvalidFd ∧ fd0 ≠ dispatchInvalidFd
  | _ => True

instance (s : Traced T M) : ∀ l, Decidable (Solitary s l)
  | .next t _ =>
    match h : s.state.thread t with
    | .storingFd moduleId mode fd0 fd1 =>
      decidable_of_iff ((s.state.fdArray moduleId).fd = dispatchInvalidFd ∧ fd0 ≠ dispatchInvalidFd)
        ⟨fun hC _ _ _ _ ht => by cases h.symm.trans ht; exact hC,fun hC => hC _ _ _ _ h⟩
    | .idle | .registering _ _ | .created _ _ _ _ | .storingMode _ _ _ _ | .registered _
    | .deleting _ _ | .closing _ _ _ | .resettingFd _ _ | .resettingMode _ _ | .deleted _
    | .closingLocal _ => .isTrue fun _ _ _ _ ht => by cases h.symm.trans ht
  | .register _ _ _ | .delete _ _ _ | .receive _ _ | .dispatch _ => .isTrue trivial

/-- What holds of the rows and the history while a thread stands there. -/
def ThreadOk (ids : ModuleIds) (lock : Option T) (fd : ℕ → ℤ) (history : List (Event ℕ (ℤ × ℤ)))
    (t : T) : ThreadPc → Prop
  | .idle => True
  | .registering moduleId _ => moduleId ∈ ids.real
  | .created moduleId _ _ _ => moduleId ∈ ids.real
  | .storingFd moduleId _ _ _ => moduleId ∈ ids.real ∧ lock = some t
  | .storingMode moduleId _ fd0 _ => moduleId ∈ ids.real ∧ lock = some t ∧ fd moduleId = fd0 ∧
      fd0 ≠ dispatchInvalidFd ∧ read history moduleId = none
  | .registered _ => lock = some t
  | .deleting _ _ => True
  | .closing moduleId _ _ => lock = some t ∧ read history moduleId = none
  | .resettingFd moduleId _ => lock = some t ∧ read history moduleId = none
  | .resettingMode _ _ => lock = some t
  | .deleted _ => lock = some t
  | .closingLocal _ => True

/-- A pair in force is stored in its row, and every pair came after the deletion of the one
before it. -/
structure Inv (ids : ModuleIds) (s : State T M) (history : List (Event ℕ (ℤ × ℤ))) : Prop where
  threads : ∀ t, ThreadOk ids s.lock (fun i => (s.fdArray i).fd) history t (s.thread t)
  stored : ∀ i fd0 fd1, read history i = some (fd0,fd1) →
    i ∈ ids.real ∧ (s.fdArray i).fd = fd0 ∧ fd0 ≠ dispatchInvalidFd
  exclusive : Exclusive history
  kept : .clear ∉ history

section Invariant

variable {ids : ModuleIds} {s u : State T M} {history history' : List (Event ℕ (ℤ × ℤ))} {t : T}
  {pc : ThreadPc}

theorem ThreadOk.lock_eq {lock : Option T} {fd : ℕ → ℤ} (h : ThreadOk ids lock fd history t pc)
    (hin : pc.InLock) : lock = some t := by
  cases pc with
  | storingFd _ _ _ _ => exact h.2
  | storingMode _ _ _ _ => exact h.2.1
  | registered _ => exact h
  | closing _ _ _ => exact h.1
  | resettingFd _ _ => exact h.1
  | resettingMode _ _ => exact h
  | deleted _ => exact h
  | idle => exact hin.elim
  | registering _ _ => exact hin.elim
  | created _ _ _ _ => exact hin.elim
  | deleting _ _ => exact hin.elim
  | closingLocal _ => exact hin.elim

theorem ThreadOk.outside {lock lock' : Option T} {fd fd' : ℕ → ℤ}
    (h : ThreadOk ids lock fd history t pc) (hout : ¬ pc.InLock) :
    ThreadOk ids lock' fd' history' t pc := by
  cases pc with
  | registering _ _ => exact h
  | created _ _ _ _ => exact h
  | idle => trivial
  | deleting _ _ => trivial
  | closingLocal _ => trivial
  | storingFd _ _ _ _ => exact (hout trivial).elim
  | storingMode _ _ _ _ => exact (hout trivial).elim
  | registered _ => exact (hout trivial).elim
  | closing _ _ _ => exact (hout trivial).elim
  | resettingFd _ _ => exact (hout trivial).elim
  | resettingMode _ _ => exact (hout trivial).elim
  | deleted _ => exact (hout trivial).elim

theorem Inv.frame (h : Inv ids s history) (hthread : u.thread = s.thread) (hlock : u.lock = s.lock)
    (hfd : u.fdArray = s.fdArray) : Inv ids u history where
  threads := by
    rw [hthread,hlock,hfd]
    exact h.threads
  stored := by
    rw [hfd]
    exact h.stored
  exclusive := h.exclusive
  kept := h.kept

theorem init_inv : Inv ids (State.init : State T M) [] where
  threads := fun _ => trivial
  stored := fun i fd0 fd1 h => by simp at h
  exclusive := exclusive_nil
  kept := by simp

/-- With the lock held by `t` or by nobody, the other threads rely on nothing it protects. -/
theorem Inv.others (h : Inv ids s history) (hown : (s.thread t).InLock ∨ s.lock = none)
    {lock : Option T} {fd : ℕ → ℤ} (t' : T) (ht : t' ≠ t) :
    ThreadOk ids lock fd history' t' (s.thread t') := by
  refine (h.threads t').outside fun hin => ?_
  have hlock := (h.threads t').lock_eq hin
  rcases hown with hown | hnone
  · exact ht (Option.some.inj (hlock.symm.trans ((h.threads t).lock_eq hown)))
  · rw [hnone] at hlock
    cases hlock

variable [DecidableEq T]

theorem goto_threads {P : T → ThreadPc → Prop} (h : ∀ t', t' ≠ t → P t' (s.thread t')) (hpc : P t pc)
    (t' : T) : P t' ((s.goto t pc).thread t') := by
  by_cases ht : t' = t
  · subst ht
    simpa [State.goto] using hpc
  · simpa [State.goto,ht] using h t' ht

theorem Inv.quiet (h : Inv ids s history) (hthread : u.thread = s.thread)
    (hlock : u.lock = s.lock) (hfd : ∀ i, (u.fdArray i).fd = (s.fdArray i).fd)
    (hpc : ThreadOk ids s.lock (fun i => (s.fdArray i).fd) history t pc) :
    Inv ids (u.goto t pc) history where
  threads := by
    have hrows : (fun i => (u.fdArray i).fd) = fun i => (s.fdArray i).fd := funext hfd
    apply goto_threads
    · intro t' _
      rw [hthread]
      show ThreadOk ids u.lock (fun i => (u.fdArray i).fd) history t' (s.thread t')
      rw [hlock,hrows]
      exact h.threads t'
    · show ThreadOk ids u.lock (fun i => (u.fdArray i).fd) history t pc
      rw [hlock,hrows]
      exact hpc
  stored := fun i fd0 fd1 hread => by
    show i ∈ ids.real ∧ (u.fdArray i).fd = fd0 ∧ fd0 ≠ dispatchInvalidFd
    rw [hfd]
    exact h.stored i fd0 fd1 hread
  exclusive := h.exclusive
  kept := h.kept

theorem Inv.own (h : Inv ids s history) (hown : (s.thread t).InLock ∨ s.lock = none)
    (hthread : u.thread = s.thread)
    (hpc : ThreadOk ids u.lock (fun i => (u.fdArray i).fd) history' t pc)
    (hstored : ∀ i fd0 fd1, read history' i = some (fd0,fd1) →
      i ∈ ids.real ∧ (u.fdArray i).fd = fd0 ∧ fd0 ≠ dispatchInvalidFd)
    (hx : Exclusive history') (hkept : .clear ∉ history') : Inv ids (u.goto t pc) history' where
  threads := by
    apply goto_threads
    · intro t' ht
      rw [hthread]
      exact h.others hown t' ht
    · exact hpc
  stored := hstored
  exclusive := hx
  kept := hkept

omit [DecidableEq T] in
theorem Inv.stored_setFd (h : Inv ids s history) {moduleId : ℕ} (hnone : read history moduleId = none)
    (fd : ℤ) (i : ℕ) (fd0 fd1 : ℤ) (hread : read history i = some (fd0,fd1)) :
    i ∈ ids.real ∧ ((s.setFd moduleId fd).fdArray i).fd = fd0 ∧ fd0 ≠ dispatchInvalidFd := by
  have hne : i ≠ moduleId := by
    rintro rfl
    rw [hnone] at hread
    cases hread
  rw [setFd_fd_other s fd hne]
  exact h.stored i fd0 fd1 hread

theorem storingFd_inv (h : Inv ids s history) {moduleId : ℕ} {mode fd0 fd1 : ℤ}
    (hpc : s.thread t = .storingFd moduleId mode fd0 fd1)
    (hrow : (s.fdArray moduleId).fd = dispatchInvalidFd) (hfd : fd0 ≠ dispatchInvalidFd) :
    Inv ids ((s.setFd moduleId fd0).goto t (.storingMode moduleId mode fd0 fd1)) history := by
  have hok := h.threads t
  rw [hpc] at hok
  obtain ⟨hreal,hlock⟩ := hok
  have hnone : read history moduleId = none := by
    cases hread : read history moduleId with
    | none => rfl
    | some v =>
      obtain ⟨-,hstored,hne⟩ := h.stored moduleId v.1 v.2 hread
      exact absurd (hstored.symm.trans hrow) hne
  refine h.own (u:=s.setFd moduleId fd0) (.inl (by rw [hpc]; trivial)) rfl
    ⟨hreal,hlock,setFd_fd_self s _ _,hfd,hnone⟩ (h.stored_setFd hnone fd0) h.exclusive h.kept

theorem storingMode_inv (h : Inv ids s history) {moduleId : ℕ} {mode fd0 fd1 : ℤ}
    (hpc : s.thread t = .storingMode moduleId mode fd0 fd1) :
    Inv ids ((s.setMode moduleId mode).goto t (.registered fd1))
      (history++[.put moduleId (fd0,fd1)]) := by
  have hok := h.threads t
  rw [hpc] at hok
  obtain ⟨hreal,hlock,hrow,hfd,hnone⟩ := hok
  refine h.own (u:=s.setMode moduleId mode) (.inl (by rw [hpc]; trivial)) rfl hlock ?_ ?_ ?_
  · intro i fd0' fd1' hread
    rw [setMode_fd]
    rw [read_concat,Event.apply] at hread
    by_cases hi : i = moduleId
    · subst hi
      rw [Function.update_self] at hread
      cases hread
      exact ⟨hreal,hrow,hfd⟩
    · rw [Function.update_of_ne hi] at hread
      exact h.stored i fd0' fd1' hread
  · refine h.exclusive.concat fun k v he => ?_
    cases he
    exact hnone
  · simpa using h.kept

theorem deleting_inv (h : Inv ids s history) {moduleId : ℕ} {fd : ℤ}
    (hpc : s.thread t = .deleting moduleId fd) (hfree : s.lock = none)
    (hnew : ∀ fd', ThreadOk ids (some t) fd' (history++[.erase moduleId]) t pc) :
    Inv ids ((s.acquire t).goto t pc) (history++[.erase moduleId]) := by
  refine h.own (u:=s.acquire t) (.inr hfree) rfl (hnew _) ?_ ?_ ?_
  · intro i fd0 fd1 hread
    rw [read_concat,Event.apply] at hread
    by_cases hi : i = moduleId
    · subst hi
      rw [Function.update_self] at hread
      cases hread
    · rw [Function.update_of_ne hi] at hread
      exact h.stored i fd0 fd1 hread
  · exact h.exclusive.concat fun k v he => (by cases he)
  · simpa using h.kept

theorem resettingFd_inv (h : Inv ids s history) {moduleId : ℕ} {fd : ℤ}
    (hpc : s.thread t = .resettingFd moduleId fd) :
    Inv ids ((s.setFd moduleId dispatchInvalidFd).goto t (.resettingMode moduleId fd)) history := by
  have hok := h.threads t
  rw [hpc] at hok
  obtain ⟨hlock,hnone⟩ := hok
  exact h.own (u:=s.setFd moduleId dispatchInvalidFd) (.inl (by rw [hpc]; trivial)) rfl hlock
    (h.stored_setFd hnone _) h.exclusive h.kept

/-- A thread's step keeps the invariant when its call is the only one to store the row. -/
theorem thread_inv (h : Inv ids s history) {pair : Option (ℤ × ℤ)}
    (hC : Solitary ⟨s,history⟩ (.next t pair)) (hs : s.threadStep t pair = some u) :
    Inv ids u (history++(event s (.next t pair)).toList) := by
  have hok := h.threads t
  cases hpc : s.thread t with
  | idle => simp only [State.threadStep,hpc] at hs; cases hs
  | registering moduleId mode =>
    rw [hpc] at hok
    simp only [State.threadStep,hpc] at hs
    simp only [event,hpc,Option.toList_none,List.append_nil]
    cases pair with
    | none =>
      cases hs
      exact h.quiet rfl rfl (fun _ => rfl) trivial
    | some pair =>
      obtain ⟨hkernel,hs⟩ := Option.ite_none_right_eq_some.mp hs
      cases hs
      exact h.quiet (u:=s.socketpair moduleId mode pair.1 pair.2) rfl rfl (fun _ => rfl) hok
  | created moduleId mode fd0 fd1 =>
    rw [hpc] at hok
    simp only [State.threadStep,hpc] at hs
    simp only [event,hpc,Option.toList_none,List.append_nil]
    obtain ⟨hfree,hs⟩ := Option.ite_none_right_eq_some.mp hs
    cases hs
    exact h.own (u:=s.acquire t) (.inr hfree) rfl ⟨hok,rfl⟩ h.stored h.exclusive h.kept
  | storingFd moduleId mode fd0 fd1 =>
    simp only [State.threadStep,hpc] at hs
    simp only [event,hpc,Option.toList_none,List.append_nil]
    cases hs
    obtain ⟨hrow,hfd⟩ := hC moduleId mode fd0 fd1 hpc
    exact storingFd_inv h hpc hrow hfd
  | storingMode moduleId mode fd0 fd1 =>
    simp only [State.threadStep,hpc] at hs
    simp only [event,hpc,Option.toList_some]
    cases hs
    exact storingMode_inv h hpc
  | registered fd1 =>
    simp only [State.threadStep,hpc] at hs
    simp only [event,hpc,Option.toList_none,List.append_nil]
    cases hs
    exact h.own (u:=s.release) (.inl (by rw [hpc]; trivial)) rfl trivial h.stored h.exclusive h.kept
  | deleting moduleId fd =>
    simp only [State.threadStep,hpc] at hs
    simp only [event,hpc,Option.toList_some]
    obtain ⟨hfree,hs⟩ := Option.ite_none_right_eq_some.mp hs
    have hnone : read (history++[.erase moduleId]) moduleId = none := by
      rw [read_concat,Event.apply,Function.update_self]
    by_cases hfd : (s.fdArray moduleId).fd ≠ dispatchInvalidFd
    · rw [if_pos hfd] at hs
      cases hs
      exact deleting_inv h hpc hfree fun _ => ⟨rfl,hnone⟩
    · rw [if_neg hfd] at hs
      cases hs
      exact deleting_inv h hpc hfree fun _ => rfl
  | closing moduleId fd dispatchFd =>
    rw [hpc] at hok
    simp only [State.threadStep,hpc] at hs
    simp only [event,hpc,Option.toList_none,List.append_nil]
    cases hs
    exact h.quiet (u:=s.close dispatchFd) rfl rfl (fun _ => rfl) hok
  | resettingFd moduleId fd =>
    simp only [State.threadStep,hpc] at hs
    simp only [event,hpc,Option.toList_none,List.append_nil]
    cases hs
    exact resettingFd_inv h hpc
  | resettingMode moduleId fd =>
    rw [hpc] at hok
    simp only [State.threadStep,hpc] at hs
    simp only [event,hpc,Option.toList_none,List.append_nil]
    cases hs
    exact h.quiet (u:=s.setMode moduleId dispatchModeSendRecv) rfl rfl (setMode_fd s _ · _) hok
  | deleted fd =>
    simp only [State.threadStep,hpc] at hs
    simp only [event,hpc,Option.toList_none,List.append_nil]
    cases hs
    exact h.own (u:=s.release) (.inl (by rw [hpc]; trivial)) rfl trivial h.stored h.exclusive h.kept
  | closingLocal fd =>
    simp only [State.threadStep,hpc] at hs
    simp only [event,hpc,Option.toList_none,List.append_nil]
    cases hs
    by_cases hfd : fd > 0
    · rw [if_pos hfd]
      exact h.quiet (u:=s.close fd) rfl rfl (fun _ => rfl) trivial
    · rw [if_neg hfd]
      exact h.quiet rfl rfl (fun _ => rfl) trivial

theorem step_inv (h : Inv ids s history) {l : Label T M} (hC : Solitary ⟨s,history⟩ l)
    (hs : s.step ids l = some u) : Inv ids u (history++(event s l).toList) := by
  cases l with
  | register t moduleId mode =>
    simp only [event,Option.toList_none,List.append_nil]
    rcases register_cases hs with rfl | ⟨-,hlow,hhigh,rfl⟩
    · exact h
    · exact h.quiet rfl rfl (fun _ => rfl) (mem_real.mpr (by omega))
  | delete t moduleId fd =>
    simp only [event,Option.toList_none,List.append_nil]
    rcases delete_cases hs with rfl | ⟨-,rfl⟩
    · exact h
    · exact h.quiet rfl rfl (fun _ => rfl) trivial
  | next t pair => exact thread_inv h hC hs
  | receive sender message =>
    simp only [event,Option.toList_none,List.append_nil]
    rcases receive_cases hs with rfl | ⟨-,-,-,rfl⟩ | ⟨-,rfl⟩
    · exact h
    · exact h.frame rfl rfl rfl
    · exact h.frame rfl rfl rfl
  | dispatch result =>
    simp only [event,Option.toList_none,List.append_nil]
    obtain ⟨hthread,hlock,hfd⟩ := dispatcherStep_frame hs
    exact h.frame hthread hlock hfd

def Traced.step (ids : ModuleIds) (s : Traced T M) (l : Label T M) : Option (Traced T M) :=
  (s.state.step ids l).map fun t => ⟨t,s.history++(event s.state l).toList⟩

end Invariant

/-- Both threads find module 1 not registered; then one after the other stores its pair and
returns. -/
def raceRun : List (Label Bool String) :=
  [.register false 1 dispatchModeSendRecv,.register true 1 dispatchModeSendRecv,
    .next false (some (5,6)),.next true (some (7,8))] ++
    List.replicate 4 (.next false none) ++ List.replicate 4 (.next true none)

/-- Two threads register modules 1 and 2 at the same time; the second deletes module 1, and before it
has closed the local end the first registers module 1 again. -/
def handoverRun : List (Label Bool String) :=
  [.register false 1 dispatchModeSendRecv,.register true 2 dispatchModeSendRecv,
    .next false (some (5,6)),.next true (some (7,8))] ++
    List.replicate 4 (.next false none) ++ List.replicate 4 (.next true none) ++
  [.delete true 1 6] ++ List.replicate 5 (.next true none) ++
  [.register false 1 dispatchModeSendRecv,.next false (some (5,9)),.next true none] ++
    List.replicate 4 (.next false none)

end DispatchExclusion
end IotBase
