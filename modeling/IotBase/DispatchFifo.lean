import IotBase.DispatchTransfer
import IotBase.LabelledRun

/-! The dispatcher between its modules. Each registered channel is two queues, the
dispatcher takes at most one message from each readable channel a round and
forwards it, and whatever the interleaving and the drops, a pair of modules sees
each other's messages in order and at most once. -/
namespace IotBase
namespace DispatchFifo
open DispatchTransfer LabelledRun

variable {M : Type*}

/-- The loop of `build_fd_sets`: the set and the largest descriptor. -/
def buildFdSetsLoop (fdArray : FdArray) : List ℕ → (ℤ → Bool) → ℤ → (ℤ → Bool) × ℤ
  | [], fds, maxFd => (fds,maxFd)
  | i::is, fds, maxFd =>
    let fd := (fdArray i).fd
    if fd ≠ dispatchInvalidFd then
      buildFdSetsLoop fdArray is (Function.update fds fd true) (if fd > maxFd then fd else maxFd)
    else buildFdSetsLoop fdArray is fds maxFd

def buildFdSets (ids : ModuleIds) (fdArray : FdArray) : (ℤ → Bool) × ℤ :=
  buildFdSetsLoop fdArray ids.real (fun _ => false) (-1)

theorem buildFdSetsLoop_mem (fdArray : FdArray) (is : List ℕ) (fds : ℤ → Bool) (maxFd fd : ℤ) :
    (buildFdSetsLoop fdArray is fds maxFd).1 fd = true ↔
      fds fd = true ∨ ∃ i ∈ is, (fdArray i).fd = fd ∧ fd ≠ dispatchInvalidFd := by
  induction is generalizing fds maxFd with
  | nil => simp [buildFdSetsLoop]
  | cons i is ih =>
    by_cases hfd : (fdArray i).fd = dispatchInvalidFd
    · rw [buildFdSetsLoop,if_neg (not_not.mpr hfd),ih,List.exists_mem_cons_iff]
      have hrow : ¬ ((fdArray i).fd = fd ∧ fd ≠ dispatchInvalidFd) := fun h => h.2 (h.1 ▸ hfd)
      simp only [hrow,false_or]
    · rw [buildFdSetsLoop,if_pos hfd,ih,List.exists_mem_cons_iff]
      by_cases heq : (fdArray i).fd = fd
      · subst heq
        simp [hfd]
      · simp [Function.update_of_ne (Ne.symm heq),heq]

theorem buildFdSets_mem {ids : ModuleIds} {fdArray : FdArray} {fd : ℤ} :
    (buildFdSets ids fdArray).1 fd = true ↔
      ∃ i ∈ ids.real, (fdArray i).fd = fd ∧ fd ≠ dispatchInvalidFd := by
  rw [buildFdSets,buildFdSetsLoop_mem]
  simp

/-- Where the dispatcher thread stands: before `select`, in its loop over the rows with the
readable descriptors, or in the loop of `dispatch_transfer_msg`. -/
inductive Pc (M : Type*)
  | select
  | scan (rows : List ℕ) (ready : ℤ → Bool)
  | forward (fds : List ℤ) (origin : ℕ) (msg : M) (rows : List ℕ) (ready : ℤ → Bool)

/-- The queues by dispatcher-side descriptor, each entry with the module it came from, and
what every module has sent and received so far. -/
structure System (M : Type*) where
  toDispatcher : ℤ → List (ℕ × Message M)
  toModule : ℤ → List (ℕ × M)
  pc : Pc M
  sent : ℕ → List (Message M)
  received : ℕ → List (ℕ × M)

def System.init : System M := ⟨fun _ => [],fun _ => [],.select,fun _ => [],fun _ => []⟩

inductive Label (M : Type*)
  | sendMsg (s : ℕ) (dest : ℤ) (msg : M) (out : ℕ → SendResult)
  | sendMultimsg (s : ℕ) (msg : M) (out : ℕ → SendResult)
  | select (ready : ℤ → Bool)
  | row
  | forward (out : ℕ → SendResult)
  | recv (r : ℕ)

def dispatchSendMsg (fd dest : ℤ) (msg : M) (out : ℕ → SendResult) :
    List (SendCall (Message M)) × Ret :=
  dispatchSend out fd ⟨moduleIdUnspecified,dest,msg⟩ []

def dispatchSendMultimsg (ids : ModuleIds) (fd localId : ℤ) (msg : M) (out : ℕ → SendResult) :
    List (SendCall (Message M)) × Ret :=
  dispatchSend out fd ⟨localId,ids.all,msg⟩ []

def collected (ids : ModuleIds) (fdArray : FdArray) (m : Message M) : List ℤ :=
  match dispatchGetFd ids fdArray m.dest m.src with
  | none => []
  | some info => info.list

section Steps

variable (ids : ModuleIds) (fdArray : FdArray) (localFd : ℕ → ℤ)

def HasChannel (s : ℕ) : Prop := s ∈ ids.real ∧ (fdArray s).fd ≠ dispatchInvalidFd

instance (s : ℕ) : Decidable (HasChannel ids fdArray s) := inferInstanceAs (Decidable (_ ∧ _))

/-- Module `s` writes the messages that the kernel took into its end of the channel. -/
def System.push (t : System M) (s : ℕ) (taken : List (Message M)) : System M :=
  ⟨Function.update t.toDispatcher (fdArray s).fd
      (t.toDispatcher (fdArray s).fd ++ taken.map fun m => (s,m)),
    t.toModule,t.pc,Function.update t.sent s (t.sent s ++ taken),t.received⟩

def System.step (t : System M) : Label M → Option (System M)
  | .sendMsg s dest msg out =>
    if HasChannel ids fdArray s then
      some (t.push fdArray s (copiesOn (localFd s) (dispatchSendMsg (localFd s) dest msg out).1))
    else none
  | .sendMultimsg s msg out =>
    if HasChannel ids fdArray s then
      some (t.push fdArray s
        (copiesOn (localFd s) (dispatchSendMultimsg ids (localFd s) s msg out).1))
    else none
  | .select ready =>
    match t.pc with
    | .select =>
      let r := buildFdSets ids fdArray
      if r.2 < 0 then some t
      else some {t with pc := .scan ids.real fun fd => r.1 fd && ready fd}
    | _ => none
  | .row =>
    match t.pc with
    | .scan [] _ => some {t with pc := .select}
    | .scan (i::rows) ready =>
      let fd := (fdArray i).fd
      if fd = dispatchInvalidFd ∨ ready fd = false then some {t with pc := .scan rows ready}
      else
        match t.toDispatcher fd with
        | [] => some {t with pc := .scan rows ready}
        | (origin,m)::queue =>
          some ⟨Function.update t.toDispatcher fd queue,t.toModule,
            .forward (collected ids fdArray m) origin m.msg rows ready,t.sent,t.received⟩
    | _ => none
  | .forward out =>
    match t.pc with
    | .forward [] _ _ rows ready => some {t with pc := .scan rows ready}
    | .forward (fd::fds) origin msg rows ready =>
      let copies := copiesOn fd (dispatchSend out fd msg []).1
      some ⟨t.toDispatcher,
        Function.update t.toModule fd (t.toModule fd ++ copies.map fun m => (origin,m)),
        .forward fds origin msg rows ready,t.sent,t.received⟩
    | _ => none
  | .recv r =>
    if HasChannel ids fdArray r then
      match t.toModule (fdArray r).fd with
      | [] => some t
      | c::queue => some ⟨t.toDispatcher,Function.update t.toModule (fdArray r).fd queue,t.pc,
          t.sent,Function.update t.received r (t.received r ++ [c])⟩
    else none

end Steps

section Flow

variable {ids : ModuleIds} {fdArray : FdArray} {localFd : ℕ → ℤ} {s t : System M}

def ForModule (ids : ModuleIds) (r : ℕ) (m : Message M) : Prop := m.dest = r ∨ m.dest = ids.all

instance (r : ℕ) (m : Message M) : Decidable (ForModule ids r m) :=
  inferInstanceAs (Decidable (_ ∨ _))

def fromOrigin (a : ℕ) {X : Type*} (l : List (ℕ × X)) : List X :=
  (l.filter fun c => decide (c.1 = a)).map Prod.snd

def Pc.pending (a : ℕ) (fd : ℤ) : Pc M → List M
  | .forward fds origin msg _ _ => if origin = a ∧ fd ∈ fds then [msg] else []
  | _ => []

/-- What `r` got from `a`, then what is on its way, nearest first. -/
def System.flow (ids : ModuleIds) (fdArray : FdArray) (t : System M) (a r : ℕ) : List M :=
  fromOrigin a (t.received r) ++ (fromOrigin a (t.toModule (fdArray r).fd) ++
    (t.pc.pending a (fdArray r).fd ++
      ((fromOrigin a (t.toDispatcher (fdArray a).fd)).filter
        fun m => decide (ForModule ids r m)).map Message.msg))

def System.sentTo (ids : ModuleIds) (t : System M) (a r : ℕ) : List M :=
  ((t.sent a).filter fun m => decide (ForModule ids r m)).map Message.msg

def Pc.Distinct : Pc M → Prop
  | .forward fds _ _ _ _ => fds.Nodup
  | .scan _ _ => True
  | .select => True

def Pc.Rows (ids : ModuleIds) : Pc M → Prop
  | .forward _ _ _ rows _ => ∀ i ∈ rows, i ∈ ids.real
  | .scan rows _ => ∀ i ∈ rows, i ∈ ids.real
  | .select => True

structure Inv (ids : ModuleIds) (fdArray : FdArray) (t : System M) : Prop where
  origin : ∀ fd, ∀ e ∈ t.toDispatcher fd, HasChannel ids fdArray e.1 ∧ (fdArray e.1).fd = fd
  distinct : t.pc.Distinct
  rows : t.pc.Rows ids
  flow : ∀ a, ∀ r ∈ ids.real, (t.flow ids fdArray a r).Sublist (t.sentTo ids a r)

@[simp] theorem fromOrigin_nil (a : ℕ) {X : Type*} : fromOrigin a ([] : List (ℕ × X)) = [] := rfl

@[simp] theorem fromOrigin_append (a : ℕ) {X : Type*} (l m : List (ℕ × X)) :
    fromOrigin a (l++m) = fromOrigin a l ++ fromOrigin a m := by
  simp [fromOrigin,List.filter_append]

theorem fromOrigin_cons (a : ℕ) {X : Type*} (c : ℕ × X) (l : List (ℕ × X)) :
    fromOrigin a (c::l) = (if c.1 = a then [c.2] else []) ++ fromOrigin a l := by
  by_cases h : c.1 = a
  · simp [fromOrigin,h]
  · simp [fromOrigin,h]

theorem fromOrigin_tagged (a s : ℕ) {X : Type*} (l : List X) :
    fromOrigin a (l.map fun m => (s,m)) = if s = a then l else [] := by
  by_cases h : s = a
  · simp [fromOrigin,h,List.filter_map,Function.comp_def]
  · simp [fromOrigin,h,List.filter_map,Function.comp_def]

theorem push_inv (h : Inv ids fdArray t) {s : ℕ} (hs : HasChannel ids fdArray s)
    (taken : List (Message M)) : Inv ids fdArray (t.push fdArray s taken) where
  origin := by
    intro fd e he
    by_cases hfd : fd = (fdArray s).fd
    · subst hfd
      simp only [System.push,Function.update_self] at he
      rcases List.mem_append.mp he with he | he
      · exact h.origin _ e he
      · obtain ⟨m,-,rfl⟩ := List.mem_map.mp he
        exact ⟨hs,rfl⟩
    · simp only [System.push,Function.update_of_ne hfd] at he
      exact h.origin fd e he
  distinct := h.distinct
  rows := h.rows
  flow := by
    intro a r hr
    have hflow := h.flow a r hr
    by_cases ha : s = a
    · subst ha
      simp only [System.flow,System.sentTo,System.push,Function.update_self,fromOrigin_append,
        fromOrigin_tagged,if_true,List.filter_append,List.map_append,← List.append_assoc] at hflow ⊢
      exact hflow.append (List.Sublist.refl _)
    · have hqueue : fromOrigin a (Function.update t.toDispatcher (fdArray s).fd
          (t.toDispatcher (fdArray s).fd ++ taken.map fun m => (s,m)) (fdArray a).fd) =
          fromOrigin a (t.toDispatcher (fdArray a).fd) := by
        by_cases hfd : (fdArray a).fd = (fdArray s).fd
        · rw [hfd,Function.update_self,fromOrigin_append,fromOrigin_tagged,if_neg ha,
            List.append_nil]
        · rw [Function.update_of_ne hfd]
      have hsent : Function.update t.sent s (t.sent s ++ taken) a = t.sent a :=
        Function.update_of_ne (Ne.symm ha) _ _
      rw [System.flow,System.sentTo]
      simp only [System.push,hqueue,hsent]
      exact hflow

theorem pc_inv (h : Inv ids fdArray t) {pc : Pc M} (hd : pc.Distinct) (hr : pc.Rows ids)
    (hp : ∀ a fd, pc.pending a fd = t.pc.pending a fd) :
    Inv ids fdArray ⟨t.toDispatcher,t.toModule,pc,t.sent,t.received⟩ where
  origin := h.origin
  distinct := hd
  rows := hr
  flow := by
    intro a r hreal
    have hflow := h.flow a r hreal
    simp only [System.flow,System.sentTo,hp] at hflow ⊢
    exact hflow

theorem forModule_of_addressed (hreg : Registered ids fdArray) {m : Message M} {r : ℕ}
    (hr : r ∈ ids.real) (h : (fdArray r).fd ∈ addressed ids fdArray m.dest m.src) :
    ForModule ids r m := by
  obtain ⟨k,hk,hfd,hne,hdest⟩ := addressed_registered h
  obtain rfl := hreg.distinct k hk r hr hne hfd
  exact hdest

theorem collected_eq (m : Message M) :
    collected ids fdArray m = addressed ids fdArray m.dest m.src := by
  rcases dispatchGetFd_spec ids fdArray m.dest m.src with ⟨hnone,haddr⟩ | ⟨info,hsome,haddr⟩
  · rw [collected,hnone,haddr]
  · rw [collected,hsome,← haddr]

theorem take_inv (hreg : Registered ids fdArray) (h : Inv ids fdArray t) {i origin : ℕ}
    {m : Message M} {queue : List (ℕ × Message M)} {rows : List ℕ} {ready : ℤ → Bool}
    (hpc : ∀ a fd, t.pc.pending a fd = []) (hrows : ∀ k ∈ rows, k ∈ ids.real)
    (hq : t.toDispatcher (fdArray i).fd = (origin,m)::queue) :
    Inv ids fdArray ⟨Function.update t.toDispatcher (fdArray i).fd queue,t.toModule,
      .forward (collected ids fdArray m) origin m.msg rows ready,t.sent,t.received⟩ where
  origin := by
    intro fd e he
    by_cases hfd : fd = (fdArray i).fd
    · subst hfd
      simp only [Function.update_self] at he
      exact h.origin _ e (by rw [hq]; exact List.mem_cons_of_mem _ he)
    · simp only [Function.update_of_ne hfd] at he
      exact h.origin fd e he
  distinct := by
    rw [collected_eq]
    exact addressed_nodup hreg _ _
  rows := hrows
  flow := by
    intro a r hr
    have hflow := h.flow a r hr
    have hpend : List.Sublist (if origin = a ∧ (fdArray r).fd ∈ collected ids fdArray m then [m.msg] else [])
        (if origin = a ∧ ForModule ids r m then [m.msg] else []) := by
      by_cases hfwd : origin = a ∧ (fdArray r).fd ∈ collected ids fdArray m
      · have hfor := forModule_of_addressed hreg hr (collected_eq m ▸ hfwd.2)
        rw [if_pos hfwd,if_pos ⟨hfwd.1,hfor⟩]
      · rw [if_neg hfwd]
        exact List.nil_sublist _
    refine List.Sublist.trans ?_ hflow
    simp only [System.flow,hpc,List.nil_append]
    refine (List.Sublist.refl _).append ((List.Sublist.refl _).append ?_)
    by_cases hfd : (fdArray a).fd = (fdArray i).fd
    · have hold : ((fromOrigin a (t.toDispatcher (fdArray a).fd)).filter
          fun m => decide (ForModule ids r m)).map Message.msg =
          (if origin = a ∧ ForModule ids r m then [m.msg] else []) ++
            ((fromOrigin a queue).filter fun m => decide (ForModule ids r m)).map Message.msg := by
        rw [hfd,hq,fromOrigin_cons,List.filter_append,List.map_append]
        congr 1
        by_cases ho : origin = a
        · by_cases hfor : ForModule ids r m
          · simp [ho,hfor]
          · simp [ho,hfor]
        · simp [ho]
      rw [hold,hfd,Function.update_self]
      exact hpend.append (List.Sublist.refl _)
    · have ho : origin ≠ a := by
        rintro rfl
        have := h.origin (fdArray i).fd (origin,m) (by rw [hq]; exact List.mem_cons_self)
        exact hfd this.2
      rw [Function.update_of_ne hfd,Pc.pending,if_neg fun hc => ho hc.1,List.nil_append]

theorem forward_inv (h : Inv ids fdArray t) {fd : ℤ} {fds : List ℤ} {origin : ℕ} {msg : M}
    {rows : List ℕ} {ready : ℤ → Bool} (hpc : t.pc = .forward (fd::fds) origin msg rows ready)
    {copies : List M} (hc : copies.Sublist [msg]) :
    Inv ids fdArray ⟨t.toDispatcher,
      Function.update t.toModule fd (t.toModule fd ++ copies.map fun m => (origin,m)),
      .forward fds origin msg rows ready,t.sent,t.received⟩ where
  origin := h.origin
  distinct := by
    have hd := h.distinct
    rw [hpc] at hd
    exact (List.nodup_cons.mp hd).2
  rows := by
    have hr := h.rows
    rw [hpc] at hr
    exact hr
  flow := by
    intro a r hr
    have hflow := h.flow a r hr
    have hnotin : fd ∉ fds := by
      have hd := h.distinct
      rw [hpc] at hd
      exact (List.nodup_cons.mp hd).1
    refine List.Sublist.trans ?_ hflow
    simp only [System.flow,hpc,Pc.pending]
    refine (List.Sublist.refl _).append ?_
    by_cases hfd : (fdArray r).fd = fd
    · subst hfd
      rw [Function.update_self,fromOrigin_append,fromOrigin_tagged,List.append_assoc]
      refine (List.Sublist.refl _).append ?_
      have hgone : ¬ (origin = a ∧ (fdArray r).fd ∈ fds) := fun hc => hnotin hc.2
      rw [if_neg hgone,List.nil_append]
      refine List.Sublist.append ?_ (List.Sublist.refl _)
      by_cases ho : origin = a
      · rw [if_pos ho,if_pos ⟨ho,List.mem_cons_self⟩]
        exact hc
      · rw [if_neg ho]
        exact List.nil_sublist _
    · have hmem : ((fdArray r).fd ∈ fd::fds) ↔ (fdArray r).fd ∈ fds :=
        ⟨fun hm => (List.mem_cons.mp hm).resolve_left hfd,List.mem_cons_of_mem _⟩
      rw [Function.update_of_ne hfd]
      simp only [hmem]
      exact List.Sublist.refl _

theorem recv_inv (hreg : Registered ids fdArray) (h : Inv ids fdArray t) {k : ℕ}
    (hk : HasChannel ids fdArray k) {c : ℕ × M} {queue : List (ℕ × M)}
    (hq : t.toModule (fdArray k).fd = c::queue) :
    Inv ids fdArray ⟨t.toDispatcher,Function.update t.toModule (fdArray k).fd queue,t.pc,
      t.sent,Function.update t.received k (t.received k ++ [c])⟩ where
  origin := h.origin
  distinct := h.distinct
  rows := h.rows
  flow := by
    intro a r hr
    have hflow := h.flow a r hr
    by_cases hrk : r = k
    · subst hrk
      rw [System.flow,hq,fromOrigin_cons] at hflow
      simp only [System.flow,System.sentTo,Function.update_self,fromOrigin_append,fromOrigin_cons,
        fromOrigin_nil,List.append_nil,List.append_assoc] at hflow ⊢
      exact hflow
    · have hfd : (fdArray r).fd ≠ (fdArray k).fd := fun he =>
        hrk (hreg.distinct k hk.1 r hr hk.2 he.symm).symm
      simp only [System.flow,System.sentTo,Function.update_of_ne hfd,Function.update_of_ne hrk]
        at hflow ⊢
      exact hflow

theorem select_cases {ready : ℤ → Bool} (ht : s.step ids fdArray localFd (.select ready) = some t) :
    t = s ∨ s.pc = .select ∧
      t = {s with pc := .scan ids.real fun fd => (buildFdSets ids fdArray).1 fd && ready fd} := by
  cases hpc : s.pc with
  | select =>
    simp only [System.step,hpc] at ht
    split at ht
    · cases ht
      exact .inl rfl
    · cases ht
      exact .inr ⟨rfl,rfl⟩
  | scan _ _ => simp only [System.step,hpc] at ht; cases ht
  | forward _ _ _ _ _ => simp only [System.step,hpc] at ht; cases ht

theorem row_cases (ht : s.step ids fdArray localFd .row = some t) :
    (∃ ready, s.pc = .scan [] ready ∧ t = {s with pc := .select}) ∨
    (∃ i rows ready, s.pc = .scan (i::rows) ready ∧ t = {s with pc := .scan rows ready}) ∨
    ∃ i rows ready origin m queue, s.pc = .scan (i::rows) ready ∧
      (fdArray i).fd ≠ dispatchInvalidFd ∧ ready (fdArray i).fd = true ∧
      s.toDispatcher (fdArray i).fd = (origin,m)::queue ∧
      t = ⟨Function.update s.toDispatcher (fdArray i).fd queue,s.toModule,
        .forward (collected ids fdArray m) origin m.msg rows ready,s.sent,s.received⟩ := by
  cases hpc : s.pc with
  | select => simp only [System.step,hpc] at ht; cases ht
  | forward _ _ _ _ _ => simp only [System.step,hpc] at ht; cases ht
  | scan rows ready =>
    cases rows with
    | nil =>
      simp only [System.step,hpc] at ht
      cases ht
      exact .inl ⟨ready,rfl,rfl⟩
    | cons i rows =>
      simp only [System.step,hpc] at ht
      by_cases hidle : (fdArray i).fd = dispatchInvalidFd ∨ ready (fdArray i).fd = false
      · rw [if_pos hidle] at ht
        cases ht
        exact .inr (.inl ⟨i,rows,ready,rfl,rfl⟩)
      · rw [if_neg hidle] at ht
        obtain ⟨hfd,hready⟩ := not_or.mp hidle
        cases hq : s.toDispatcher (fdArray i).fd with
        | nil =>
          simp only [hq] at ht
          cases ht
          exact .inr (.inl ⟨i,rows,ready,rfl,rfl⟩)
        | cons e queue =>
          simp only [hq] at ht
          cases ht
          exact .inr (.inr ⟨i,rows,ready,e.1,e.2,queue,rfl,hfd,by simpa using hready,hq,rfl⟩)

theorem forward_cases {out : ℕ → SendResult} (ht : s.step ids fdArray localFd (.forward out) = some t) :
    (∃ origin msg rows ready, s.pc = .forward [] origin msg rows ready ∧
      t = {s with pc := .scan rows ready}) ∨
    ∃ fd fds origin msg rows ready, s.pc = .forward (fd::fds) origin msg rows ready ∧
      t = ⟨s.toDispatcher,Function.update s.toModule fd (s.toModule fd ++
        (copiesOn fd (dispatchSend out fd msg []).1).map fun m => (origin,m)),
        .forward fds origin msg rows ready,s.sent,s.received⟩ := by
  cases hpc : s.pc with
  | select => simp only [System.step,hpc] at ht; cases ht
  | scan _ _ => simp only [System.step,hpc] at ht; cases ht
  | forward fds origin msg rows ready =>
    cases fds with
    | nil =>
      simp only [System.step,hpc] at ht
      cases ht
      exact .inl ⟨origin,msg,rows,ready,rfl,rfl⟩
    | cons fd fds =>
      simp only [System.step,hpc] at ht
      cases ht
      exact .inr ⟨fd,fds,origin,msg,rows,ready,rfl,rfl⟩

theorem recv_cases {k : ℕ} (ht : s.step ids fdArray localFd (.recv k) = some t) :
    t = s ∨ HasChannel ids fdArray k ∧ ∃ c queue, s.toModule (fdArray k).fd = c::queue ∧
      t = ⟨s.toDispatcher,Function.update s.toModule (fdArray k).fd queue,s.pc,s.sent,
        Function.update s.received k (s.received k ++ [c])⟩ := by
  obtain ⟨hk,ht⟩ := Option.ite_none_right_eq_some.mp ht
  cases hq : s.toModule (fdArray k).fd with
  | nil =>
    simp only [hq] at ht
    cases ht
    exact .inl rfl
  | cons c queue =>
    simp only [hq] at ht
    cases ht
    exact .inr ⟨hk,c,queue,rfl,rfl⟩

/-- Every step of a module or of the dispatcher keeps the flow between any two modules. -/
theorem step_inv (hreg : Registered ids fdArray) (h : Inv ids fdArray s) (l : Label M)
    (ht : s.step ids fdArray localFd l = some t) : Inv ids fdArray t := by
  cases l with
  | sendMsg k dest msg out =>
    obtain ⟨hk,ht⟩ := Option.ite_none_right_eq_some.mp ht
    cases ht
    exact push_inv h hk _
  | sendMultimsg k msg out =>
    obtain ⟨hk,ht⟩ := Option.ite_none_right_eq_some.mp ht
    cases ht
    exact push_inv h hk _
  | select ready =>
    rcases select_cases ht with rfl | ⟨hpc,rfl⟩
    · exact h
    · exact pc_inv h trivial (fun i hi => hi) fun a fd => by rw [hpc]; rfl
  | row =>
    have hrows := h.rows
    rcases row_cases ht with ⟨ready,hpc,rfl⟩ | ⟨i,rows,ready,hpc,rfl⟩ |
      ⟨i,rows,ready,origin,m,queue,hpc,-,-,hq,rfl⟩
    · exact pc_inv h trivial trivial fun a fd => by rw [hpc]; rfl
    · rw [hpc] at hrows
      exact pc_inv h trivial (fun k hk => hrows k (List.mem_cons_of_mem _ hk)) fun a fd => by
        rw [hpc]
        rfl
    · rw [hpc] at hrows
      exact take_inv hreg h (fun a fd => by rw [hpc]; rfl)
        (fun k hk => hrows k (List.mem_cons_of_mem _ hk)) hq
  | forward out =>
    rcases forward_cases ht with ⟨origin,msg,rows,ready,hpc,rfl⟩ |
      ⟨fd,fds,origin,msg,rows,ready,hpc,rfl⟩
    · have hrows := h.rows
      rw [hpc] at hrows
      exact pc_inv h trivial hrows fun a fd => by simp [hpc,Pc.pending]
    · refine forward_inv h hpc ?_
      rw [dispatchSend_copiesOn]
      by_cases hok : (dispatchSend out fd msg []).2 = .ok
      · rw [if_pos hok]
      · rw [if_neg hok]
        exact List.nil_sublist _
  | recv k =>
    rcases recv_cases ht with rfl | ⟨hk,c,queue,hq,rfl⟩
    · exact h
    · exact recv_inv hreg h hk hq

theorem init_inv : Inv ids fdArray (System.init : System M) where
  origin := fun _ _ he => nomatch he
  distinct := trivial
  rows := trivial
  flow := fun _ _ _ => List.nil_sublist _

/-- What `r` has received from `a` is, in order, part of what `a` sent to `r` or to all, and
everything received was sent by the module it is from. -/
theorem received_sublist_sent (hreg : Registered ids fdArray) (ls : List (Label M))
    (hs : exec (System.step ids fdArray localFd) System.init ls = some s) (r : ℕ)
    (hr : r ∈ ids.real) :
    (∀ a, (((s.received r).filter fun c => decide (c.1 = a)).map Prod.snd).Sublist
      (((s.sent a).filter fun m : Message M =>
        decide (m.dest = r ∨ m.dest = ids.all)).map Message.msg)) ∧
    ∀ c ∈ s.received r, ∃ m ∈ s.sent c.1, m.msg = c.2 ∧ (m.dest = r ∨ m.dest = ids.all) := by
  have hI : Inv ids fdArray s :=
    exec_invariant_of_step (fun _ l _ h ht => step_inv hreg h l ht) ls init_inv hs
  have hsub : ∀ a, (fromOrigin a (s.received r)).Sublist (s.sentTo ids a r) := fun a =>
    (List.sublist_append_left _ _).trans (hI.flow a r hr)
  refine ⟨hsub,fun c hc => ?_⟩
  have hmem : c.2 ∈ fromOrigin c.1 (s.received r) :=
    List.mem_map.mpr ⟨c,List.mem_filter.mpr ⟨hc,by simp⟩,rfl⟩
  obtain ⟨m,hm,hmsg⟩ := List.mem_map.mp ((hsub c.1).subset hmem)
  obtain ⟨hm,hfor⟩ := List.mem_filter.mp hm
  exact ⟨m,hm,hmsg,of_decide_eq_true hfor⟩

theorem received_sublist_sent_one : ∃ s : System String,
    exec (System.step threeIds threeRows fun _ => 11) System.init
      [.sendMsg 1 2 "on" fun _ => .sent,.select fun _ => true,.row,.forward fun _ => .sent,
        .forward fun _ => .sent,.recv 2] = some s ∧ s.received 2 = [(1,"on")] ∧
    (∀ a, (((s.received 2).filter fun c => decide (c.1 = a)).map Prod.snd).Sublist
      (((s.sent a).filter fun m : Message String =>
        decide (m.dest = (2 : ℕ) ∨ m.dest = threeIds.all)).map Message.msg)) ∧
    ∀ c ∈ s.received 2, ∃ m ∈ s.sent c.1, m.msg = c.2 ∧
      (m.dest = (2 : ℕ) ∨ m.dest = threeIds.all) := by
  obtain ⟨s,hs,hreceived⟩ : ∃ s : System String, exec (System.step threeIds threeRows fun _ => 11)
      System.init [.sendMsg 1 2 "on" fun _ => .sent,.select fun _ => true,.row,
        .forward fun _ => .sent,.forward fun _ => .sent,.recv 2] = some s ∧
      s.received 2 = [(1,"on")] := ⟨_,rfl,rfl⟩
  exact ⟨s,hs,hreceived,received_sublist_sent threeRows_registered _ hs 2 (by decide)⟩

end Flow

end DispatchFifo
end IotBase
