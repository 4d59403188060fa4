import IotBase.DispatchTransfer
import IotBase.LabelledRun

/-! Registration and deletion of channels by any number of threads next to the
dispatcher, one access to `fd_array` or to the kernel at a time. The registering
threads take `dispatch_array_lock`; the dispatcher does not. -/
namespace IotBase
namespace DispatchRegistry
open DispatchTransfer LabelledRun

/-- A socketpair: its number among those made so far, and what it was made for. -/
structure Channel where
  serial : ℕ
  moduleId : ℕ
  mode : ℤ
  deriving DecidableEq

structure End where
  channel : Channel
  dispatchSide : Bool
  deriving DecidableEq

/-- Where a thread stands in `dispatch_register_channel` or `dispatch_del_channel`. -/
inductive ThreadPc
  | idle
  | registering (moduleId : ℕ) (mode : ℤ)
  | created (moduleId : ℕ) (mode fd0 fd1 : ℤ)
  | storingFd (moduleId : ℕ) (mode fd0 fd1 : ℤ)
  | storingMode (moduleId : ℕ) (mode fd0 fd1 : ℤ)
  | registered (fd1 : ℤ)
  | deleting (moduleId : ℕ) (fd : ℤ)
  | closing (moduleId : ℕ) (fd dispatchFd : ℤ)
  | resettingFd (moduleId : ℕ) (fd : ℤ)
  | resettingMode (moduleId : ℕ) (fd : ℤ)
  | deleted (fd : ℤ)
  | closingLocal (fd : ℤ)

def ThreadPc.InLock : ThreadPc → Prop
  | .storingFd _ _ _ _ => True
  | .storingMode _ _ _ _ => True
  | .registered _ => True
  | .closing _ _ _ => True
  | .resettingFd _ _ => True
  | .resettingMode _ _ => True
  | .deleted _ => True
  | _ => False

/-- Where the dispatcher stands in `dispatch_transfer_msg` with a message of the module
`sender`: before reading the destination's descriptor, in the loop before reading a row's
descriptor, before reading its mode, or sending to what is left with so many attempts left. -/
inductive DispatcherPc (M : Type*)
  | idle
  | unicast (sender : ℕ) (message : Message M)
  | readFd (sender : ℕ) (message : Message M) (rows : List ℕ) (fds : List ℤ)
  | readMode (sender : ℕ) (message : Message M) (i : ℕ) (fd : ℤ) (rows : List ℕ) (fds : List ℤ)
  | sending (sender : ℕ) (message : Message M) (fds : List ℤ) (left : ℕ)

/-- A copy of a message that the kernel took, and the channel it went into. -/
structure Delivery (M : Type*) where
  sender : ℕ
  message : Message M
  channel : Channel

structure State (T M : Type*) where
  fdArray : FdArray
  lock : Option T
  kernel : ℤ → Option End
  made : ℕ
  thread : T → ThreadPc
  dispatcher : DispatcherPc M
  enqueued : List (Delivery M)

/-- `pair` is what `socketpair` answers and `result` what `send` does. -/
inductive Label (T M : Type*)
  | register (t : T) (moduleId mode : ℤ)
  | delete (t : T) (moduleId fd : ℤ)
  | next (t : T) (pair : Option (ℤ × ℤ))
  | receive (sender : ℕ) (message : Message M)
  | dispatch (result : SendResult)

variable {T M : Type*}

def State.init : State T M where
  fdArray := fun _ => ⟨dispatchInvalidFd,dispatchModeSendRecv⟩
  lock := none
  kernel := fun _ => none
  made := 0
  thread := fun _ => .idle
  dispatcher := .idle
  enqueued := []

def State.dispatch (s : State T M) (pc : DispatcherPc M) : State T M := {s with dispatcher := pc}

def State.setRow (s : State T M) (i : ℕ) (row : Row) : State T M :=
  {s with fdArray := Function.update s.fdArray i row}

def State.setFd (s : State T M) (i : ℕ) (fd : ℤ) : State T M :=
  s.setRow i ⟨fd,(s.fdArray i).mode⟩

def State.setMode (s : State T M) (i : ℕ) (mode : ℤ) : State T M :=
  s.setRow i ⟨(s.fdArray i).fd,mode⟩

def State.acquire (s : State T M) (t : T) : State T M := {s with lock := some t}

def State.release (s : State T M) : State T M := {s with lock := none}

/-- `close`; descriptors that are not open are left alone. -/
def State.close (s : State T M) (fd : ℤ) : State T M :=
  {s with kernel := Function.update s.kernel fd none}

/-- `socketpair`, with the dispatcher's end first. -/
def State.socketpair (s : State T M) (moduleId : ℕ) (mode fd0 fd1 : ℤ) : State T M :=
  {s with
    kernel := Function.update (Function.update s.kernel fd0 (some ⟨⟨s.made,moduleId,mode⟩,true⟩))
      fd1 (some ⟨⟨s.made,moduleId,mode⟩,false⟩)
    made := s.made+1}

def State.dispatcherStep (s : State T M) (result : SendResult) : Option (State T M) :=
  match s.dispatcher with
  | .idle => none
  | .unicast sender message =>
    let fd := (s.fdArray message.dest.toNat).fd
    if fd ≠ dispatchInvalidFd then some (s.dispatch (.sending sender message [fd] 2))
    else some (s.dispatch .idle)
  | .readFd sender message [] fds =>
    if fds = [] then some (s.dispatch .idle) else some (s.dispatch (.sending sender message fds 2))
  | .readFd sender message (i::rows) fds =>
    some (s.dispatch (.readMode sender message i (s.fdArray i).fd rows fds))
  | .readMode sender message i fd rows fds =>
    if fd ≠ dispatchInvalidFd ∧ (i : ℤ) ≠ message.src ∧
        (s.fdArray i).mode = dispatchModeSendRecv then
      some (s.dispatch (.readFd sender message rows (fds++[fd])))
    else some (s.dispatch (.readFd sender message rows fds))
  | .sending _ _ [] _ => some (s.dispatch .idle)
  | .sending sender message (fd::fds) left =>
    if fd < 0 then some (s.dispatch (.sending sender message fds 2))
    else
      match s.kernel fd, result, left with
      | some e, .sent, _ =>
        some {s.dispatch (.sending sender message fds 2) with
          enqueued := s.enqueued++[⟨sender,message,e.channel⟩]}
      | _, .eintr, left+1 => some (s.dispatch (.sending sender message (fd::fds) left))
      | _, _, _ => some (s.dispatch (.sending sender message fds 2))

@[simp] theorem setMode_fd (s : State T M) (i j : ℕ) (mode : ℤ) :
    ((s.setMode i mode).fdArray j).fd = (s.fdArray j).fd := by
  by_cases hj : j = i
  · subst hj
    simp [State.setMode,State.setRow]
  · simp [State.setMode,State.setRow,hj]

@[simp] theorem setFd_fd_self (s : State T M) (i : ℕ) (fd : ℤ) : ((s.setFd i fd).fdArray i).fd = fd := by
  simp [State.setFd,State.setRow]

theorem setFd_fd_other (s : State T M) {i j : ℕ} (fd : ℤ) (h : j ≠ i) :
    ((s.setFd i fd).fdArray j).fd = (s.fdArray j).fd := by
  simp [State.setFd,State.setRow,h]

theorem dispatcherStep_frame {s s' : State T M} {result : SendResult}
    (h : s.dispatcherStep result = some s') :
    s'.thread = s.thread ∧ s'.lock = s.lock ∧ s'.fdArray = s.fdArray := by
  simp only [State.dispatcherStep] at h
  cases hd : s.dispatcher with
  | idle => simp only [hd] at h; cases h
  | unicast sender message =>
    simp only [hd] at h
    split at h
    all_goals
      cases h
      exact ⟨rfl,rfl,rfl⟩
  | readFd sender message rows fds =>
    cases rows with
    | nil =>
      simp only [hd] at h
      split at h
      all_goals
        cases h
        exact ⟨rfl,rfl,rfl⟩
    | cons i rows =>
      simp only [hd] at h
      cases h
      exact ⟨rfl,rfl,rfl⟩
  | readMode sender message i fd rows fds =>
    simp only [hd] at h
    split at h
    all_goals
      cases h
      exact ⟨rfl,rfl,rfl⟩
  | sending sender message fds left =>
    cases fds with
    | nil =>
      simp only [hd] at h
      cases h
      exact ⟨rfl,rfl,rfl⟩
    | cons fd fds =>
      simp only [hd] at h
      split at h
      · cases h
        exact ⟨rfl,rfl,rfl⟩
      · split at h
        all_goals
          cases h
          exact ⟨rfl,rfl,rfl⟩

variable [DecidableEq T]

def State.goto (s : State T M) (t : T) (pc : ThreadPc) : State T M :=
  {s with thread := Function.update s.thread t pc}

def State.threadStep (s : State T M) (t : T) (pair : Option (ℤ × ℤ)) : Option (State T M) :=
  match s.thread t with
  | .idle => none
  | .registering moduleId mode =>
    match pair with
    | none => some (s.goto t .idle)
    | some (fd0,fd1) =>
      if 0 ≤ fd0 ∧ 0 ≤ fd1 ∧ fd0 ≠ fd1 ∧ s.kernel fd0 = none ∧ s.kernel fd1 = none then
        some ((s.socketpair moduleId mode fd0 fd1).goto t (.created moduleId mode fd0 fd1))
      else none
  | .created moduleId mode fd0 fd1 =>
    if s.lock = none then some ((s.acquire t).goto t (.storingFd moduleId mode fd0 fd1)) else none
  | .storingFd moduleId mode fd0 fd1 =>
    some ((s.setFd moduleId fd0).goto t (.storingMode moduleId mode fd0 fd1))
  | .storingMode moduleId mode _ fd1 => some ((s.setMode moduleId mode).goto t (.registered fd1))
  | .registered _ => some (s.release.goto t .idle)
  | .deleting moduleId fd =>
    if s.lock = none then
      let dispatchFd := (s.fdArray moduleId).fd
      if dispatchFd ≠ dispatchInvalidFd then
        some ((s.acquire t).goto t (.closing moduleId fd dispatchFd))
      else some ((s.acquire t).goto t (.deleted fd))
    else none
  | .closing moduleId fd dispatchFd => some ((s.close dispatchFd).goto t (.resettingFd moduleId fd))
  | .resettingFd moduleId fd =>
    some ((s.setFd moduleId dispatchInvalidFd).goto t (.resettingMode moduleId fd))
  | .resettingMode moduleId fd =>
    some ((s.setMode moduleId dispatchModeSendRecv).goto t (.deleted fd))
  | .deleted fd => some (s.release.goto t (.closingLocal fd))
  | .closingLocal fd => some ((if fd > 0 then s.close fd else s).goto t .idle)

def State.step (ids : ModuleIds) (s : State T M) : Label T M → Option (State T M)
  | .register t moduleId mode =>
    match s.thread t with
    | .idle =>
      if moduleId ≥ ids.all ∨ moduleId < ids.mainConsole then some s
      else if (s.fdArray moduleId.toNat).fd ≠ dispatchInvalidFd then some s
      else some (s.goto t (.registering moduleId.toNat mode))
    | _ => none
  | .delete t moduleId fd =>
    match s.thread t with
    | .idle =>
      if moduleId ≥ ids.all ∨ moduleId < ids.mainConsole then some s
      else some (s.goto t (.deleting moduleId.toNat fd))
    | _ => none
  | .next t pair => s.threadStep t pair
  | .receive sender message =>
    match s.dispatcher with
    | .idle =>
      if message.dest > ids.all ∨ message.dest < ids.mainConsole then some s
      else if message.dest ≠ ids.all then some (s.dispatch (.unicast sender message))
      else some (s.dispatch (.readFd sender message ids.real []))
    | _ => none
  | .dispatch result => s.dispatcherStep result

section Inversion

variable {ids : ModuleIds} {s s' : State T M} {t : T}

theorem register_cases {moduleId mode : ℤ} (h : s.step ids (.register t moduleId mode) = some s') :
    s' = s ∨ s.thread t = .idle ∧ ids.mainConsole ≤ moduleId ∧ moduleId < ids.all ∧
      s' = s.goto t (.registering moduleId.toNat mode) := by
  cases hpc : s.thread t with
  | idle =>
    simp only [State.step,hpc] at h
    split at h
    · cases h
      exact Or.inl rfl
    · rename_i hrange
      split at h
      · cases h
        exact Or.inl rfl
      · cases h
        exact Or.inr ⟨rfl,by omega,by omega,rfl⟩
  | _ => simp only [State.step,hpc] at h; cases h

theorem delete_cases {moduleId fd : ℤ} (h : s.step ids (.delete t moduleId fd) = some s') :
    s' = s ∨ s.thread t = .idle ∧ s' = s.goto t (.deleting moduleId.toNat fd) := by
  cases hpc : s.thread t with
  | idle =>
    simp only [State.step,hpc] at h
    split at h
    · cases h
      exact Or.inl rfl
    · cases h
      exact Or.inr ⟨rfl,rfl⟩
  | _ => simp only [State.step,hpc] at h; cases h

theorem receive_cases {sender : ℕ} {message : Message M}
    (h : s.step ids (.receive sender message) = some s') : s' = s ∨
      (message.dest ≠ ids.all ∧ ids.mainConsole ≤ message.dest ∧ message.dest < ids.all ∧
        s' = s.dispatch (.unicast sender message)) ∨
      (message.dest = ids.all ∧ s' = s.dispatch (.readFd sender message ids.real [])) := by
  cases hd : s.dispatcher with
  | idle =>
    simp only [State.step,hd] at h
    split at h
    · cases h
      exact Or.inl rfl
    · rename_i hrange
      split at h
      · rename_i hall
        cases h
        exact Or.inr (Or.inl ⟨hall,by omega,by omega,rfl⟩)
      · rename_i hall
        cases h
        exact Or.inr (Or.inr ⟨not_not.mp hall,rfl⟩)
  | _ => simp only [State.step,hd] at h; cases h

end Inversion

/-- Undisturbed, the dispatcher's reads collect what `dispatch_get_fd` collects. -/
theorem collect_alone (ids : ModuleIds) (s : State T M) (sender : ℕ) (message : Message M)
    (rows : List ℕ) (fds : List ℤ) (h : s.dispatcher = .readFd sender message rows fds) :
    exec (State.step ids) s (List.replicate (2*rows.length) (.dispatch .failed)) =
      some (s.dispatch (.readFd sender message [] (fds ++ (rows.filter fun i =>
        decide ((s.fdArray i).fd ≠ dispatchInvalidFd ∧ (i : ℤ) ≠ message.src ∧
          (s.fdArray i).mode = dispatchModeSendRecv)).map fun i => (s.fdArray i).fd))) := by
  induction rows generalizing s fds with
  | nil =>
    rw [List.length_nil,Nat.mul_zero,List.replicate_zero,exec_nil,List.filter_nil,List.map_nil,
      List.append_nil,State.dispatch,← h]
  | cons i rows ih =>
    have hread : s.step ids (.dispatch .failed) =
        some (s.dispatch (.readMode sender message i (s.fdArray i).fd rows fds)) := by
      simp only [State.step,State.dispatcherStep,h]
    have hrest : ∀ fds', exec (State.step ids) (s.dispatch (.readFd sender message rows fds'))
        (List.replicate (2*rows.length) (.dispatch .failed)) =
        some (s.dispatch (.readFd sender message [] (fds' ++ (rows.filter fun i =>
          decide ((s.fdArray i).fd ≠ dispatchInvalidFd ∧ (i : ℤ) ≠ message.src ∧
            (s.fdArray i).mode = dispatchModeSendRecv)).map fun i => (s.fdArray i).fd))) :=
      fun fds' => ih (s.dispatch (.readFd sender message rows fds')) fds' rfl
    refine exec_cons.mpr ⟨_,hread,exec_cons.mpr ?_⟩
    by_cases hrow : (s.fdArray i).fd ≠ dispatchInvalidFd ∧ (i : ℤ) ≠ message.src ∧
        (s.fdArray i).mode = dispatchModeSendRecv
    · refine ⟨s.dispatch (.readFd sender message rows (fds++[(s.fdArray i).fd])),if_pos hrow,?_⟩
      refine (hrest _).trans ?_
      rw [List.filter_cons_of_pos (by simpa using hrow),List.map_cons,List.append_assoc]
      rfl
    · refine ⟨s.dispatch (.readFd sender message rows fds),if_neg hrow,?_⟩
      refine (hrest _).trans ?_
      rw [List.filter_cons_of_neg (by simpa using hrow)]

theorem broadcast_alone (ids : ModuleIds) (s : State T M) (sender : ℕ) (message : Message M)
    (hdest : message.dest = ids.all)
    (h : s.dispatcher = .readFd sender message ids.real []) :
    exec (State.step ids) s (List.replicate (2*ids.real.length) (.dispatch .failed)) =
      some (s.dispatch (.readFd sender message []
        (addressed ids s.fdArray message.dest message.src))) := by
  rw [collect_alone ids s sender message ids.real [] h,addressed,if_pos hdest]
  rfl

end DispatchRegistry
end IotBase
