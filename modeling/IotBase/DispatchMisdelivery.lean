import IotBase.DispatchRegistry

/-! Descriptor numbers that outlive their channel. A message goes astray when a number
that `fd_array`, a registration or the dispatcher still holds is given out again,
when the dispatcher reads a row that is half written, or when a broadcast does not
name its sender; in every run without these each copy lands where it belongs. -/
namespace IotBase
namespace DispatchMisdelivery
open DispatchTransfer DispatchRegistry LabelledRun

variable {T M : Type*}

/-- A unicast is in a channel of its destination; a broadcast copy is neither in its
sender's nor in one of a module that only sends. -/
def Good (ids : ModuleIds) (sender : ℕ) (message : Message M) (c : Channel) : Prop :=
  (message.dest ≠ ids.all → message.dest = c.moduleId) ∧
  (message.dest = ids.all → c.moduleId ≠ sender ∧ c.mode = dispatchModeSendRecv)

def reading : DispatcherPc M → List ℤ
  | .readFd _ _ _ fds => fds
  | .readMode _ _ _ fd _ fds => fd::fds
  | .sending _ _ fds _ => fds
  | _ => []

def storing : ThreadPc → List ℤ
  | .created _ _ fd0 _ => [fd0]
  | .storingFd _ _ fd0 _ => [fd0]
  | _ => []

/-- Somebody may still use the number for what it was. -/
def Held (s : State T M) (fd : ℤ) : Prop :=
  (∃ i, (s.fdArray i).fd = fd ∧ fd ≠ dispatchInvalidFd) ∨ (∃ t, fd ∈ storing (s.thread t)) ∨
    fd ∈ reading s.dispatcher

/-- The row has its new descriptor and still its old mode. -/
def HalfStored (s : State T M) (i : ℕ) : Prop :=
  ∃ t mode fd0 fd1, s.thread t = .storingMode i mode fd0 fd1

/-- The dispatcher has read the row's descriptor and not yet its mode. -/
def HalfRead (s : State T M) (i : ℕ) : Prop :=
  ∃ sender message fd rows fds, s.dispatcher = .readMode sender message i fd rows fds

/-- No held number is given out again, row updates and the dispatcher's reads of a row do
not overlap, and a broadcast names its sender. -/
def Careful (ids : ModuleIds) (s : State T M) : Label T M → Prop
  | .next t pair =>
    (∀ moduleId mode fd0 fd1, s.thread t = .registering moduleId mode → pair = some (fd0,fd1) →
      ¬ Held s fd0 ∧ ¬ Held s fd1) ∧
    ∀ i mode fd0 fd1, s.thread t = .storingMode i mode fd0 fd1 → ¬ HalfRead s i
  | .dispatch _ => ∀ sender message i rows fds,
      s.dispatcher = .readFd sender message (i::rows) fds → ¬ HalfStored s i
  | .receive sender message => message.dest = ids.all → message.src = sender
  | _ => True

def Names (s : State T M) (fd : ℤ) (P : Channel → Prop) : Prop :=
  ∀ e, s.kernel fd = some e → P e.channel

def MadeFor (moduleId : ℕ) (mode : ℤ) (c : Channel) : Prop := c.moduleId = moduleId ∧ c.mode = mode

def ThreadOk (s : State T M) (t : T) : ThreadPc → Prop
  | .created moduleId mode fd0 _ => Names s fd0 (MadeFor moduleId mode)
  | .storingFd moduleId mode fd0 _ => s.lock = some t ∧ Names s fd0 (MadeFor moduleId mode)
  | .storingMode moduleId mode fd0 _ => s.lock = some t ∧ (s.fdArray moduleId).fd = fd0 ∧
      (fd0 ≠ dispatchInvalidFd → Names s fd0 (MadeFor moduleId mode))
  | .registered _ => s.lock = some t
  | .closing moduleId _ dispatchFd => s.lock = some t ∧ (s.fdArray moduleId).fd = dispatchFd ∧
      dispatchFd ≠ dispatchInvalidFd
  | .resettingFd moduleId _ => s.lock = some t ∧ (s.fdArray moduleId).fd ≠ dispatchInvalidFd ∧
      s.kernel (s.fdArray moduleId).fd = none
  | .resettingMode moduleId _ => s.lock = some t ∧ (s.fdArray moduleId).fd = dispatchInvalidFd
  | .deleted _ => s.lock = some t
  | _ => True

/-- A row names a channel of its module, in the row's mode unless it is half stored. -/
def RowOk (s : State T M) (i : ℕ) : Prop :=
  (s.fdArray i).fd ≠ dispatchInvalidFd →
    Names s (s.fdArray i).fd fun c => c.moduleId = i ∧ (c.mode = (s.fdArray i).mode ∨ HalfStored s i)

/-- What the dispatcher may conclude from the mode it is about to read. -/
def ReadOk (s : State T M) (i : ℕ) (fd : ℤ) : Prop :=
  fd ≠ dispatchInvalidFd → Names s fd fun c => MadeFor i (s.fdArray i).mode c ∧
    ((s.fdArray i).fd = fd ∨ HalfStored s i)

def DispatcherOk (ids : ModuleIds) (s : State T M) : DispatcherPc M → Prop
  | .idle => True
  | .unicast _ message => message.dest ≠ ids.all ∧ 0 ≤ message.dest
  | .readFd sender message _ fds => message.dest = ids.all ∧ message.src = sender ∧
      ∀ fd ∈ fds, Names s fd (Good ids sender message)
  | .readMode sender message i fd _ fds => message.dest = ids.all ∧ message.src = sender ∧
      (∀ fd ∈ fds, Names s fd (Good ids sender message)) ∧ ReadOk s i fd
  | .sending sender message fds _ => ∀ fd ∈ fds, Names s fd (Good ids sender message)

structure Inv (ids : ModuleIds) (s : State T M) : Prop where
  threads : ∀ t, ThreadOk s t (s.thread t)
  rows : ∀ i, RowOk s i
  dispatcher : DispatcherOk ids s s.dispatcher
  enqueued : ∀ d ∈ s.enqueued, Good ids d.sender d.message d.channel

section Invariant

variable {ids : ModuleIds} {s : State T M} {t : T} {pc : ThreadPc}

theorem Inv.lock_eq (h : Inv ids s) (ht : (s.thread t).InLock) : s.lock = some t := by
  have hok := h.threads t
  cases hpc : s.thread t with
  | storingFd _ _ _ _ => rw [hpc] at hok; exact hok.1
  | storingMode _ _ _ _ => rw [hpc] at hok; exact hok.1
  | registered _ => rw [hpc] at hok; exact hok
  | closing _ _ _ => rw [hpc] at hok; exact hok.1
  | resettingFd _ _ => rw [hpc] at hok; exact hok.1
  | resettingMode _ _ => rw [hpc] at hok; exact hok.1
  | deleted _ => rw [hpc] at hok; exact hok
  | idle => rw [hpc] at ht; exact ht.elim
  | registering _ _ => rw [hpc] at ht; exact ht.elim
  | created _ _ _ _ => rw [hpc] at ht; exact ht.elim
  | deleting _ _ => rw [hpc] at ht; exact ht.elim
  | closingLocal _ => rw [hpc] at ht; exact ht.elim

theorem ThreadOk.outside {s' : State T M} (hk : s'.kernel = s.kernel) (h : ThreadOk s t pc)
    (hout : ¬ pc.InLock) : ThreadOk s' t pc := by
  cases pc with
  | created moduleId mode fd0 fd1 =>
    intro e he
    exact h e (hk ▸ he)
  | storingFd _ _ _ _ => exact (hout trivial).elim
  | storingMode _ _ _ _ => exact (hout trivial).elim
  | registered _ => exact (hout trivial).elim
  | closing _ _ _ => exact (hout trivial).elim
  | resettingFd _ _ => exact (hout trivial).elim
  | resettingMode _ _ => exact (hout trivial).elim
  | deleted _ => exact (hout trivial).elim
  | idle => trivial
  | registering _ _ => trivial
  | deleting _ _ => trivial
  | closingLocal _ => trivial

/-- Descriptors may come and go as long as no held number is opened. -/
theorem Inv.kernel (h : Inv ids s) (k : ℤ → Option End) (made : ℕ)
    (hk : ∀ fd, Held s fd → ∀ e, k fd = some e → s.kernel fd = some e) :
    Inv ids {s with kernel := k, made := made} where
  threads := by
    intro t
    have hok := h.threads t
    have hnames : ∀ {fd P}, Held s fd → Names s fd P →
        Names {s with kernel := k, made := made} fd P :=
      fun hheld hn e he => hn e (hk _ hheld e he)
    show ThreadOk _ t (s.thread t)
    cases hpc : s.thread t with
    | created moduleId mode fd0 fd1 =>
      rw [hpc] at hok
      exact hnames (.inr (.inl ⟨t,by simp [hpc,storing]⟩)) hok
    | storingFd moduleId mode fd0 fd1 =>
      rw [hpc] at hok
      exact ⟨hok.1,hnames (.inr (.inl ⟨t,by simp [hpc,storing]⟩)) hok.2⟩
    | storingMode moduleId mode fd0 fd1 =>
      rw [hpc] at hok
      exact ⟨hok.1,hok.2.1,fun hfd => hnames (.inl ⟨moduleId,hok.2.1,hfd⟩) (hok.2.2 hfd)⟩
    | resettingFd moduleId fd =>
      rw [hpc] at hok
      refine ⟨hok.1,hok.2.1,?_⟩
      cases hopen : k (s.fdArray moduleId).fd with
      | none => exact hopen
      | some e =>
        have hwas := hk _ (.inl ⟨moduleId,rfl,hok.2.1⟩) e hopen
        rw [hok.2.2] at hwas
        cases hwas
    | closing moduleId fd dispatchFd => rw [hpc] at hok; exact hok
    | resettingMode moduleId fd => rw [hpc] at hok; exact hok
    | registered fd => rw [hpc] at hok; exact hok
    | deleted fd => rw [hpc] at hok; exact hok
    | idle => trivial
    | registering _ _ => trivial
    | deleting _ _ => trivial
    | closingLocal _ => trivial
  rows := fun i hfd e he => h.rows i hfd e (hk _ (.inl ⟨i,rfl,hfd⟩) e he)
  dispatcher := by
    have hok := h.dispatcher
    have hfds : ∀ {fds : List ℤ} {P : Channel → Prop}, (∀ fd ∈ fds, fd ∈ reading s.dispatcher) →
        (∀ fd ∈ fds, Names s fd P) → ∀ fd ∈ fds, Names {s with kernel := k, made := made} fd P :=
      fun hread hn fd hfd e he => hn fd hfd e (hk _ (.inr (.inr (hread fd hfd))) e he)
    show DispatcherOk ids _ s.dispatcher
    cases hpc : s.dispatcher with
    | idle => trivial
    | unicast sender message => rw [hpc] at hok; exact hok
    | readFd sender message rows fds =>
      rw [hpc] at hok hfds
      exact ⟨hok.1,hok.2.1,hfds (fun _ hfd => hfd) hok.2.2⟩
    | readMode sender message i fd rows fds =>
      rw [hpc] at hok hfds
      refine ⟨hok.1,hok.2.1,hfds (fun _ hfd => List.mem_cons_of_mem _ hfd) hok.2.2.1,?_⟩
      intro hfd e he
      refine hok.2.2.2 hfd e (hk fd (.inr (.inr ?_)) e he)
      rw [hpc]
      exact List.mem_cons_self
    | sending sender message fds left =>
      rw [hpc] at hok hfds
      exact hfds (fun _ hfd => hfd) hok
  enqueued := h.enqueued

theorem Inv.dispatch (h : Inv ids s) {pc : DispatcherPc M} (hpc : DispatcherOk ids s pc) :
    Inv ids (s.dispatch pc) where
  threads := h.threads
  rows := h.rows
  dispatcher := hpc
  enqueued := h.enqueued

theorem Inv.acquire (h : Inv ids s) (hfree : s.lock = none) (t : T) : Inv ids (s.acquire t) where
  threads := fun t' => (h.threads t').outside (s:=s) rfl fun hin => by
    rw [h.lock_eq hin] at hfree
    cases hfree
  rows := h.rows
  dispatcher := h.dispatcher
  enqueued := h.enqueued

theorem Inv.release (h : Inv ids s) (hout : ∀ t, ¬ (s.thread t).InLock) : Inv ids s.release where
  threads := fun t => (h.threads t).outside (s:=s) rfl (hout t)
  rows := h.rows
  dispatcher := h.dispatcher
  enqueued := h.enqueued

theorem Inv.close (h : Inv ids s) (fd : ℤ) : Inv ids (s.close fd) := by
  refine h.kernel _ s.made fun fd' _ e he => ?_
  by_cases hfd : fd' = fd
  · rw [hfd,Function.update_self] at he
    cases he
  · rwa [Function.update_of_ne hfd] at he

theorem Inv.socketpair (h : Inv ids s) (moduleId : ℕ) (mode : ℤ) {fd0 fd1 : ℤ}
    (h0 : ¬ Held s fd0) (h1 : ¬ Held s fd1) : Inv ids (s.socketpair moduleId mode fd0 fd1) := by
  refine h.kernel _ _ fun fd hheld e he => ?_
  have hne0 : fd ≠ fd0 := fun hfd => h0 (hfd ▸ hheld)
  have hne1 : fd ≠ fd1 := fun hfd => h1 (hfd ▸ hheld)
  rwa [Function.update_of_ne hne1,Function.update_of_ne hne0] at he

theorem Inv.halfStored_owner (h : Inv ids s) (hin : (s.thread t).InLock) {i : ℕ}
    (hs : HalfStored s i) : ∃ mode fd0 fd1, s.thread t = .storingMode i mode fd0 fd1 := by
  obtain ⟨t',mode,fd0,fd1,ht'⟩ := hs
  have hin' : (s.thread t').InLock := by
    rw [ht']
    trivial
  obtain rfl : t' = t := Option.some.inj ((h.lock_eq hin').symm.trans (h.lock_eq hin))
  exact ⟨mode,fd0,fd1,ht'⟩

/-- A descriptor that the dispatcher has read of a row is still there while the lock's owner
has not half stored that row. -/
theorem Inv.read_current (h : Inv ids s) (hin : (s.thread t).InLock)
    (hold : ∀ i mode fd0 fd1, s.thread t ≠ .storingMode i mode fd0 fd1) {sender : ℕ}
    {message : Message M} {i : ℕ} {fd : ℤ} {rows : List ℕ} {fds : List ℤ}
    (hd : s.dispatcher = .readMode sender message i fd rows fds) (hfd : fd ≠ dispatchInvalidFd)
    {e : End} (he : s.kernel fd = some e) : (s.fdArray i).fd = fd := by
  have hok := h.dispatcher
  rw [hd] at hok
  rcases (hok.2.2.2 hfd e he).2 with hrow | hhalf
  · exact hrow
  · obtain ⟨mode,fd0,fd1,ht⟩ := h.halfStored_owner hin hhalf
    exact absurd ht (hold i mode fd0 fd1)

theorem init_inv : Inv ids (State.init : State T M) where
  threads := fun _ => trivial
  rows := fun _ hfd => absurd rfl hfd
  dispatcher := trivial
  enqueued := fun _ hd => nomatch hd

section Dispatcher

variable {s' : State T M} {result : SendResult} {sender : ℕ} {message : Message M}

theorem unicast_inv (h : Inv ids s) (hd : s.dispatcher = .unicast sender message)
    (hs : s.dispatcherStep result = some s') : Inv ids s' := by
  have hok := h.dispatcher
  rw [hd] at hok
  simp only [State.dispatcherStep,hd] at hs
  by_cases hfd : (s.fdArray message.dest.toNat).fd ≠ dispatchInvalidFd
  · rw [if_pos hfd] at hs
    cases hs
    refine h.dispatch fun fd hmem e he => ?_
    rw [List.mem_singleton.mp hmem] at he
    have hmodule := (h.rows _ hfd e he).1
    refine ⟨fun _ => ?_,fun hall => absurd hall hok.1⟩
    rw [hmodule,Int.toNat_of_nonneg hok.2]
  · rw [if_neg hfd] at hs
    cases hs
    exact h.dispatch trivial

theorem readFd_inv (h : Inv ids s) (hC : Careful ids s (.dispatch result)) {rows : List ℕ} {fds : List ℤ}
    (hd : s.dispatcher = .readFd sender message rows fds)
    (hs : s.dispatcherStep result = some s') : Inv ids s' := by
  have hok := h.dispatcher
  rw [hd] at hok
  cases rows with
  | nil =>
    simp only [State.dispatcherStep,hd] at hs
    by_cases hempty : fds = []
    · rw [if_pos hempty] at hs
      cases hs
      exact h.dispatch trivial
    · rw [if_neg hempty] at hs
      cases hs
      exact h.dispatch hok.2.2
  | cons i rows =>
    simp only [State.dispatcherStep,hd] at hs
    cases hs
    refine h.dispatch ⟨hok.1,hok.2.1,hok.2.2,fun hfd e he => ?_⟩
    obtain ⟨hmodule,hmode⟩ := h.rows i hfd e he
    exact ⟨⟨hmodule,hmode.resolve_right (hC sender message i rows fds hd)⟩,.inl rfl⟩

theorem readMode_inv (h : Inv ids s) {i : ℕ} {fd : ℤ} {rows : List ℕ} {fds : List ℤ}
    (hd : s.dispatcher = .readMode sender message i fd rows fds)
    (hs : s.dispatcherStep result = some s') : Inv ids s' := by
  have hok := h.dispatcher
  rw [hd] at hok
  obtain ⟨hall,hsrc,hfds,hread⟩ := hok
  simp only [State.dispatcherStep,hd] at hs
  by_cases hrow : fd ≠ dispatchInvalidFd ∧ (i : ℤ) ≠ message.src ∧
      (s.fdArray i).mode = dispatchModeSendRecv
  · rw [if_pos hrow] at hs
    cases hs
    obtain ⟨hfd,hi,hmode⟩ := hrow
    refine h.dispatch ⟨hall,hsrc,fun fd' hfd' e he => ?_⟩
    rcases List.mem_append.mp hfd' with hfd' | hfd'
    · exact hfds fd' hfd' e he
    · rw [List.mem_singleton.mp hfd'] at he
      obtain ⟨⟨hmodule,hmade⟩,-⟩ := hread hfd e he
      refine ⟨fun hne => absurd hall hne,fun _ => ⟨?_,hmade.trans hmode⟩⟩
      rintro rfl
      exact hi (by rw [hsrc,hmodule])
  · rw [if_neg hrow] at hs
    cases hs
    exact h.dispatch ⟨hall,hsrc,hfds⟩

theorem sending_inv (h : Inv ids s) {fds : List ℤ} {left : ℕ}
    (hd : s.dispatcher = .sending sender message fds left)
    (hs : s.dispatcherStep result = some s') : Inv ids s' := by
  have hok := h.dispatcher
  rw [hd] at hok
  cases fds with
  | nil =>
    simp only [State.dispatcherStep,hd] at hs
    cases hs
    exact h.dispatch trivial
  | cons fd fds =>
    have hrest : DispatcherOk ids s (.sending sender message fds 2) :=
      fun fd' hfd' => hok fd' (List.mem_cons_of_mem _ hfd')
    simp only [State.dispatcherStep,hd] at hs
    by_cases hneg : fd < 0
    · rw [if_pos hneg] at hs
      cases hs
      exact h.dispatch hrest
    · rw [if_neg hneg] at hs
      split at hs
      next e hopen =>
        cases hs
        have hsent := h.dispatch hrest
        refine ⟨hsent.threads,hsent.rows,hsent.dispatcher,fun d hd' => ?_⟩
        rcases List.mem_append.mp hd' with hd' | hd'
        · exact h.enqueued d hd'
        · rw [List.mem_singleton.mp hd']
          exact hok fd List.mem_cons_self e hopen
      next left =>
        cases hs
        exact h.dispatch hok
      next =>
        cases hs
        exact h.dispatch hrest

theorem dispatcher_inv (h : Inv ids s) (hC : Careful ids s (.dispatch result))
    (hs : s.dispatcherStep result = some s') : Inv ids s' := by
  cases hd : s.dispatcher with
  | idle =>
    simp only [State.dispatcherStep,hd] at hs
    cases hs
  | unicast sender message => exact unicast_inv h hd hs
  | readFd sender message rows fds => exact readFd_inv h hC hd hs
  | readMode sender message i fd rows fds => exact readMode_inv h hd hs
  | sending sender message fds left => exact sending_inv h hd hs

end Dispatcher

variable [DecidableEq T]

theorem HalfStored.goto (hold : ∀ i mode fd0 fd1, s.thread t ≠ .storingMode i mode fd0 fd1) {i : ℕ}
    (h : HalfStored s i) : HalfStored (s.goto t pc) i := by
  obtain ⟨t',mode,fd0,fd1,ht'⟩ := h
  have hne : t' ≠ t := fun he => hold i mode fd0 fd1 (he ▸ ht')
  exact ⟨t',mode,fd0,fd1,(Function.update_of_ne hne _ _).trans ht'⟩

theorem Inv.goto (h : Inv ids s) (hold : ∀ i mode fd0 fd1, s.thread t ≠ .storingMode i mode fd0 fd1)
    (hpc : ThreadOk s t pc) : Inv ids (s.goto t pc) where
  threads := by
    intro t'
    by_cases ht : t' = t
    · subst ht
      show ThreadOk s t' (Function.update s.thread t' pc t')
      rw [Function.update_self]
      exact hpc
    · show ThreadOk s t' (Function.update s.thread t pc t')
      rw [Function.update_of_ne ht]
      exact h.threads t'
  rows := fun i hfd e he =>
    have hc := h.rows i hfd e he
    ⟨hc.1,hc.2.imp_right (HalfStored.goto hold)⟩
  dispatcher := by
    have hok := h.dispatcher
    show DispatcherOk ids (s.goto t pc) s.dispatcher
    cases hd : s.dispatcher with
    | readMode sender message i fd rows fds =>
      rw [hd] at hok
      refine ⟨hok.1,hok.2.1,hok.2.2.1,fun hfd e he => ?_⟩
      have hc := hok.2.2.2 hfd e he
      exact ⟨hc.1,hc.2.imp_right (HalfStored.goto hold)⟩
    | idle => trivial
    | unicast sender message => rw [hd] at hok; exact hok
    | readFd sender message rows fds => rw [hd] at hok; exact hok
    | sending sender message fds left => rw [hd] at hok; exact hok
  enqueued := h.enqueued

/-- The lock's owner rewrites a row and moves on. Other rows are not half stored, so only
that row and a read of it have to be looked at. -/
theorem Inv.writeRow (h : Inv ids s) {i : ℕ} {row : Row} (hin : (s.thread t).InLock)
    (hat : ∀ j mode fd0 fd1, s.thread t = .storingMode j mode fd0 fd1 → j = i)
    (hpc : ThreadOk (s.setRow i row) t pc) (hrow : RowOk ((s.setRow i row).goto t pc) i)
    (hread : ∀ sender message fd rows fds, s.dispatcher = .readMode sender message i fd rows fds →
      ReadOk ((s.setRow i row).goto t pc) i fd) : Inv ids ((s.setRow i row).goto t pc) := by
  have hlock := h.lock_eq hin
  have halone : ∀ t', (s.thread t').InLock → t' = t := fun t' ht' =>
    Option.some.inj ((h.lock_eq ht').symm.trans hlock)
  have hwhole : ∀ j, j ≠ i → ¬ HalfStored s j := by
    intro j hji hhalf
    obtain ⟨mode,fd0,fd1,ht⟩ := h.halfStored_owner hin hhalf
    exact hji (hat j mode fd0 fd1 ht)
  have hkept : ∀ j, j ≠ i → (Function.update s.fdArray i row) j = s.fdArray j := fun j hji =>
    Function.update_of_ne hji _ _
  refine ⟨fun t' => ?_,fun j => ?_,?_,h.enqueued⟩
  · by_cases ht : t' = t
    · subst ht
      show ThreadOk (s.setRow i row) t' (Function.update s.thread t' pc t')
      rw [Function.update_self]
      exact hpc
    · show ThreadOk (s.setRow i row) t' (Function.update s.thread t pc t')
      rw [Function.update_of_ne ht]
      exact (h.threads t').outside (s:=s) rfl fun ht' => ht (halone t' ht')
  · by_cases hji : j = i
    · rw [hji]
      exact hrow
    · intro hfd e he
      simp only [State.goto,State.setRow,hkept j hji] at hfd he ⊢
      obtain ⟨hmodule,hmode⟩ := h.rows j hfd e he
      exact ⟨hmodule,.inl (hmode.resolve_right (hwhole j hji))⟩
  · have hok := h.dispatcher
    show DispatcherOk ids ((s.setRow i row).goto t pc) s.dispatcher
    cases hd : s.dispatcher with
    | readMode sender message k fd rows fds =>
      rw [hd] at hok
      refine ⟨hok.1,hok.2.1,hok.2.2.1,?_⟩
      by_cases hki : k = i
      · subst hki
        exact hread sender message fd rows fds hd
      · intro hfd e he
        obtain ⟨hmade,hsame⟩ := hok.2.2.2 hfd e he
        simp only [State.goto,State.setRow,hkept k hki]
        exact ⟨hmade,.inl (hsame.resolve_right (hwhole k hki))⟩
    | idle => trivial
    | unicast sender message => rw [hd] at hok; exact hok
    | readFd sender message rows fds => rw [hd] at hok; exact hok
    | sending sender message fds left => rw [hd] at hok; exact hok

theorem Inv.unlock (h : Inv ids s) (hin : (s.thread t).InLock)
    (hold : ∀ i mode fd0 fd1, s.thread t ≠ .storingMode i mode fd0 fd1) (hout : ¬ pc.InLock)
    (hpc : ThreadOk s t pc) : Inv ids (s.release.goto t pc) := by
  have hlock := h.lock_eq hin
  have hmoved : Inv ids (s.goto t pc) := h.goto hold hpc
  refine hmoved.release fun t' ht' => ?_
  by_cases ht : t' = t
  · subst ht
    simp only [State.goto,Function.update_self] at ht'
    exact hout ht'
  · have hlock' : (s.goto t pc).lock = some t' := hmoved.lock_eq ht'
    exact ht (Option.some.inj (hlock'.symm.trans hlock))

theorem socketpair_inv (h : Inv ids s) {moduleId : ℕ} {mode fd0 fd1 : ℤ}
    (hpc : s.thread t = .registering moduleId mode) (hne : fd0 ≠ fd1) (h0 : ¬ Held s fd0)
    (h1 : ¬ Held s fd1) :
    Inv ids ((s.socketpair moduleId mode fd0 fd1).goto t (.created moduleId mode fd0 fd1)) := by
  refine (h.socketpair moduleId mode h0 h1).goto
    (fun _ _ _ _ he => by rw [State.socketpair,hpc] at he; cases he) ?_
  intro e he
  simp only [State.socketpair,Function.update_of_ne hne,Function.update_self] at he
  cases he
  exact ⟨rfl,rfl⟩

theorem storingFd_inv (h : Inv ids s) {moduleId : ℕ} {mode fd0 fd1 : ℤ}
    (hpc : s.thread t = .storingFd moduleId mode fd0 fd1) :
    Inv ids ((s.setFd moduleId fd0).goto t (.storingMode moduleId mode fd0 fd1)) := by
  have hok := h.threads t
  rw [hpc] at hok
  have hhalf : HalfStored ((s.setFd moduleId fd0).goto t (.storingMode moduleId mode fd0 fd1))
      moduleId := ⟨t,mode,fd0,fd1,Function.update_self _ _ _⟩
  refine h.writeRow (by rw [hpc]; trivial) (fun _ _ _ _ he => by rw [hpc] at he; cases he)
    ⟨hok.1,?_,fun _ => hok.2⟩ ?_ ?_
  · simp [State.setRow]
  · intro hfd e he
    simp only [State.goto,State.setRow,Function.update_self] at he
    exact ⟨(hok.2 e he).1,.inr hhalf⟩
  · intro sender message fd rows fds hd hfd e he
    have hok' := h.dispatcher
    rw [hd] at hok'
    have hmade := (hok'.2.2.2 hfd e he).1
    refine ⟨?_,.inr hhalf⟩
    simpa [State.goto,State.setRow] using hmade

theorem storingMode_inv (h : Inv ids s) {moduleId : ℕ} {mode fd0 fd1 : ℤ}
    (hpc : s.thread t = .storingMode moduleId mode fd0 fd1) (hread : ¬ HalfRead s moduleId) :
    Inv ids ((s.setMode moduleId mode).goto t (.registered fd1)) := by
  have hok := h.threads t
  rw [hpc] at hok
  refine h.writeRow (by rw [hpc]; trivial) (fun _ _ _ _ he => by rw [hpc] at he; cases he; rfl)
    hok.1 ?_ ?_
  · intro hfd e he
    simp only [State.goto,State.setRow,Function.update_self,hok.2.1] at hfd he ⊢
    obtain ⟨hmodule,hmode⟩ := hok.2.2 hfd e he
    exact ⟨hmodule,.inl hmode⟩
  · intro sender message fd rows fds hd
    exact absurd ⟨sender,message,fd,rows,fds,hd⟩ hread

theorem closing_inv (h : Inv ids s) {moduleId : ℕ} {fd dispatchFd : ℤ}
    (hpc : s.thread t = .closing moduleId fd dispatchFd) :
    Inv ids ((s.close dispatchFd).goto t (.resettingFd moduleId fd)) := by
  have hok := h.threads t
  rw [hpc] at hok
  obtain ⟨hlock,hrow,hne⟩ := hok
  refine (h.close dispatchFd).goto (fun _ _ _ _ he => by rw [State.close,hpc] at he; cases he)
    ⟨hlock,?_,?_⟩
  · show (s.fdArray moduleId).fd ≠ dispatchInvalidFd
    rw [hrow]
    exact hne
  · show Function.update s.kernel dispatchFd none (s.fdArray moduleId).fd = none
    rw [hrow,Function.update_self]

theorem resettingFd_inv (h : Inv ids s) {moduleId : ℕ} {fd : ℤ}
    (hpc : s.thread t = .resettingFd moduleId fd) :
    Inv ids ((s.setFd moduleId dispatchInvalidFd).goto t (.resettingMode moduleId fd)) := by
  have hin : (s.thread t).InLock := by
    rw [hpc]
    trivial
  have hold : ∀ i mode fd0 fd1, s.thread t ≠ .storingMode i mode fd0 fd1 :=
    fun _ _ _ _ he => by rw [hpc] at he; cases he
  have hok := h.threads t
  rw [hpc] at hok
  refine h.writeRow hin (fun i mode fd0 fd1 he => absurd he (hold i mode fd0 fd1)) ⟨hok.1,?_⟩ ?_ ?_
  · simp [State.setRow]
  · intro hfd
    simp [State.goto,State.setRow] at hfd
  · intro sender message fd' rows fds hd hfd e he
    have hrow := h.read_current hin hold hd hfd he
    have hclosed := hok.2.2
    rw [hrow] at hclosed
    cases hclosed.symm.trans he

theorem resettingMode_inv (h : Inv ids s) {moduleId : ℕ} {fd : ℤ}
    (hpc : s.thread t = .resettingMode moduleId fd) :
    Inv ids ((s.setMode moduleId dispatchModeSendRecv).goto t (.deleted fd)) := by
  have hin : (s.thread t).InLock := by
    rw [hpc]
    trivial
  have hold : ∀ i mode fd0 fd1, s.thread t ≠ .storingMode i mode fd0 fd1 :=
    fun _ _ _ _ he => by rw [hpc] at he; cases he
  have hok := h.threads t
  rw [hpc] at hok
  refine h.writeRow hin (fun i mode fd0 fd1 he => absurd he (hold i mode fd0 fd1)) hok.1 ?_ ?_
  · intro hfd
    simp [State.goto,State.setRow,hok.2] at hfd
  · intro sender message fd' rows fds hd hfd e he
    have hrow := h.read_current hin hold hd hfd he
    exact absurd (hrow.symm.trans hok.2) hfd

/-- A thread's step keeps the invariant when it is careful. -/
theorem thread_inv (h : Inv ids s) {pair : Option (ℤ × ℤ)} (hC : Careful ids s (.next t pair))
    {s' : State T M} (hs : s.threadStep t pair = some s') : Inv ids s' := by
  obtain ⟨hfresh,hread⟩ := hC
  have hok := h.threads t
  cases hpc : s.thread t with
  | idle => simp only [State.threadStep,hpc] at hs; cases hs
  | registering moduleId mode =>
    simp only [State.threadStep,hpc] at hs
    cases pair with
    | none =>
      cases hs
      exact h.goto (fun _ _ _ _ he => by rw [hpc] at he; cases he) trivial
    | some pair =>
      obtain ⟨fd0,fd1⟩ := pair
      obtain ⟨hkernel,hs⟩ := Option.ite_none_right_eq_some.mp hs
      cases hs
      obtain ⟨h0,h1⟩ := hfresh moduleId mode fd0 fd1 hpc rfl
      exact socketpair_inv h hpc hkernel.2.2.1 h0 h1
  | created moduleId mode fd0 fd1 =>
    simp only [State.threadStep,hpc] at hs
    obtain ⟨hfree,hs⟩ := Option.ite_none_right_eq_some.mp hs
    cases hs
    rw [hpc] at hok
    exact (h.acquire hfree t).goto (fun _ _ _ _ he => by rw [State.acquire,hpc] at he; cases he)
      ⟨rfl,hok⟩
  | storingFd moduleId mode fd0 fd1 =>
    simp only [State.threadStep,hpc] at hs
    cases hs
    exact storingFd_inv h hpc
  | storingMode moduleId mode fd0 fd1 =>
    simp only [State.threadStep,hpc] at hs
    cases hs
    exact storingMode_inv h hpc (hread moduleId mode fd0 fd1 hpc)
  | registered fd1 =>
    simp only [State.threadStep,hpc] at hs
    cases hs
    exact h.unlock (by rw [hpc]; trivial) (fun _ _ _ _ he => by rw [hpc] at he; cases he)
      (fun hin => hin) trivial
  | deleting moduleId fd =>
    simp only [State.threadStep,hpc] at hs
    obtain ⟨hfree,hs⟩ := Option.ite_none_right_eq_some.mp hs
    have hheld := h.acquire hfree t
    have hold : ∀ i mode fd0 fd1, (s.acquire t).thread t ≠ .storingMode i mode fd0 fd1 :=
      fun _ _ _ _ he => by rw [State.acquire,hpc] at he; cases he
    by_cases hfd : (s.fdArray moduleId).fd ≠ dispatchInvalidFd
    · rw [if_pos hfd] at hs
      cases hs
      exact hheld.goto hold ⟨rfl,rfl,hfd⟩
    · rw [if_neg hfd] at hs
      cases hs
      exact hheld.goto hold rfl
  | closing moduleId fd dispatchFd =>
    simp only [State.threadStep,hpc] at hs
    cases hs
    exact closing_inv h hpc
  | resettingFd moduleId fd =>
    simp only [State.threadStep,hpc] at hs
    cases hs
    exact resettingFd_inv h hpc
  | resettingMode moduleId fd =>
    simp only [State.threadStep,hpc] at hs
    cases hs
    exact resettingMode_inv h hpc
  | deleted fd =>
    simp only [State.threadStep,hpc] at hs
    cases hs
    exact h.unlock (by rw [hpc]; trivial) (fun _ _ _ _ he => by rw [hpc] at he; cases he)
      (fun hin => hin) trivial
  | closingLocal fd =>
    simp only [State.threadStep,hpc] at hs
    cases hs
    by_cases hfd : fd > 0
    · rw [if_pos hfd]
      exact (h.close fd).goto (fun _ _ _ _ he => by rw [State.close,hpc] at he; cases he) trivial
    · rw [if_neg hfd]
      exact h.goto (fun _ _ _ _ he => by rw [hpc] at he; cases he) trivial

theorem step_inv (h : Inv ids s) {l : Label T M} (hC : Careful ids s l) {s' : State T M}
    (hs : s.step ids l = some s') : Inv ids s' := by
  cases l with
  | register t moduleId mode =>
    rcases register_cases hs with rfl | ⟨hpc,-,-,rfl⟩
    · exact h
    · exact h.goto (fun _ _ _ _ he => by rw [hpc] at he; cases he) trivial
  | delete t moduleId fd =>
    rcases delete_cases hs with rfl | ⟨hpc,rfl⟩
    · exact h
    · exact h.goto (fun _ _ _ _ he => by rw [hpc] at he; cases he) trivial
  | next t pair => exact thread_inv h hC hs
  | receive sender message =>
    rcases receive_cases hs with rfl | ⟨hall,hlow,hhigh,rfl⟩ | ⟨hall,rfl⟩
    · exact h
    · exact h.dispatch ⟨hall,by omega⟩
    · exact h.dispatch ⟨hall,hC hall,fun _ hfd => (by cases hfd)⟩
  | dispatch result => exact dispatcher_inv h hC hs

/-- In every careful run a unicast only enters channels of its destination, and a broadcast
neither its sender's channels nor those of a module that only sends. -/
theorem no_misdelivery (ids : ModuleIds) (ls : List (Label T M)) (s : State T M)
    (hC : Meets (State.step ids) (Careful ids) State.init ls)
    (hs : exec (State.step ids) State.init ls = some s) :
    ∀ d ∈ s.enqueued, (d.message.dest ≠ ids.all → d.message.dest = d.channel.moduleId) ∧
      (d.message.dest = ids.all →
        d.channel.moduleId ≠ d.sender ∧ d.channel.mode = dispatchModeSendRecv) := by
  have hI : Inv ids s :=
    exec_invariant (fun _ _ _ h hC hs => step_inv h hC hs) ls init_inv hC hs
  exact hI.enqueued

end Invariant

def registerRun (moduleId fd0 fd1 : ℤ) : List (Label Unit String) :=
  [.register () moduleId dispatchModeSendRecv,.next () (some (fd0,fd1)),.next () none,.next () none,
    .next () none,.next () none]

def deleteRun (moduleId fd : ℤ) : List (Label Unit String) :=
  .delete () moduleId fd::List.replicate 6 (.next () none)

/-- The dispatcher has looked up module 1 when that module is deleted and its numbers go to
module 2, which then gets the message. -/
theorem misdelivered_after_reuse : ∃ s : State Unit String,
    exec (State.step threeIds) State.init
      (registerRun 1 5 6 ++ [.receive 3 ⟨moduleIdUnspecified,1,"on"⟩,.dispatch .sent] ++
        deleteRun 1 6 ++ registerRun 2 5 6 ++ [.dispatch .sent]) = some s ∧
    ∃ d ∈ s.enqueued, d.message.dest ≠ threeIds.all ∧ d.message.dest ≠ d.channel.moduleId :=
  ⟨_,rfl,⟨3,⟨moduleIdUnspecified,1,"on"⟩,⟨1,2,dispatchModeSendRecv⟩⟩,List.mem_singleton_self _,
    by decide,by decide⟩

theorem careful_of_idle {ids : ModuleIds} {s : State T M} (hidle : s.dispatcher = .idle) (t : T) :
    Careful ids s (.next t none) := by
  refine ⟨fun _ _ _ _ _ hpair => (by cases hpair),fun i _ _ _ _ hread => ?_⟩
  obtain ⟨_,_,_,_,_,hd⟩ := hread
  rw [hidle] at hd
  cases hd

theorem registerRun_careful : Meets (State.step threeIds) (Careful threeIds)
    (State.init : State Unit String)
    (registerRun 1 5 6 ++ [.receive 2 ⟨moduleIdUnspecified,1,"on"⟩,.dispatch .sent,.dispatch .sent]) := by
  refine ⟨trivial,fun s₁ h₁ => ⟨⟨fun _ _ fd0 fd1 _ hpair => ?_,?_⟩,fun s₂ h₂ => ?_⟩⟩
  · cases h₁
    have hfree : ∀ fd, ¬ Held ((State.init : State Unit String).goto () (.registering 1 0)) fd := by
      rintro fd (⟨i,hfd,hne⟩ | ⟨t,ht⟩ | hfd)
      · exact hne hfd.symm
      · cases ht
      · cases hfd
    exact ⟨hfree fd0,hfree fd1⟩
  · cases h₁
    intro i mode fd0 fd1 ht
    cases ht
  · cases h₁
    cases h₂
    refine ⟨careful_of_idle rfl (),fun s₃ h₃ => ?_⟩
    cases h₃
    refine ⟨careful_of_idle rfl (),fun s₄ h₄ => ?_⟩
    cases h₄
    refine ⟨careful_of_idle rfl (),fun s₅ h₅ => ?_⟩
    cases h₅
    refine ⟨careful_of_idle rfl (),fun s₆ h₆ => ?_⟩
    cases h₆
    refine ⟨fun hall => absurd hall (by decide),fun s₇ h₇ => ?_⟩
    cases h₇
    refine ⟨fun _ _ _ _ _ hd => (by cases hd),fun s₈ h₈ => ?_⟩
    cases h₈
    exact ⟨fun _ _ _ _ _ hd => (by cases hd),fun _ _ => trivial⟩

theorem no_misdelivery_one : ∃ s : State Unit String,
    exec (State.step threeIds) State.init
      (registerRun 1 5 6 ++ [.receive 2 ⟨moduleIdUnspecified,1,"on"⟩,.dispatch .sent,
        .dispatch .sent]) = some s ∧
    s.enqueued = [⟨2,⟨moduleIdUnspecified,1,"on"⟩,⟨0,1,dispatchModeSendRecv⟩⟩] ∧
    ∀ d ∈ s.enqueued, (d.message.dest ≠ threeIds.all → d.message.dest = d.channel.moduleId) ∧
      (d.message.dest = threeIds.all →
        d.channel.moduleId ≠ d.sender ∧ d.channel.mode = dispatchModeSendRecv) := by
  obtain ⟨s,hs,henqueued⟩ : ∃ s : State Unit String, exec (State.step threeIds) State.init
      (registerRun 1 5 6 ++ [.receive 2 ⟨moduleIdUnspecified,1,"on"⟩,.dispatch .sent,
        .dispatch .sent]) = some s ∧
      s.enqueued = [⟨2,⟨moduleIdUnspecified,1,"on"⟩,⟨0,1,dispatchModeSendRecv⟩⟩] := ⟨_,rfl,rfl⟩
  exact ⟨s,hs,henqueued,no_misdelivery threeIds _ s registerRun_careful hs⟩

end DispatchMisdelivery
end IotBase
