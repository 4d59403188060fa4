import IotBase.DispatchFifo
import IotBase.DispatchSelect

/-! Delivery. As long as the channels take what is forwarded nothing is lost, and when the modules
fall silent every round of the dispatcher takes one message from each channel, so that after as many
rounds as the longest queue has messages everything sent has been handed to the channels it is for. -/
namespace IotBase
namespace DispatchDelivery
open DispatchTransfer DispatchFifo DispatchSelect LabelledRun

variable {M : Type*}

def AddressedTo (ids : ModuleIds) (fdArray : FdArray) (r : ℕ) (m : Message M) : Prop :=
  (fdArray r).fd ∈ addressed ids fdArray m.dest m.src

instance (ids : ModuleIds) (fdArray : FdArray) (r : ℕ) :
    DecidablePred (AddressedTo ids fdArray r : Message M → Prop) :=
  fun _ => inferInstanceAs (Decidable (_ ∈ _))

def meantFor (ids : ModuleIds) (fdArray : FdArray) (r : ℕ) (l : List (Message M)) : List M :=
  (l.filter fun m => decide (AddressedTo ids fdArray r m)).map Message.msg

/-- What the channel of `r` has taken from `a`: received or still in its queue. -/
def delivered (fdArray : FdArray) (t : System M) (a r : ℕ) : List M :=
  fromOrigin a (t.received r) ++ fromOrigin a (t.toModule (fdArray r).fd)

/-- What is on its way from `a` to `r`, in the dispatcher's hands and before it. -/
def onTheWay (ids : ModuleIds) (fdArray : FdArray) (t : System M) (a r : ℕ) : List M :=
  t.pc.pending a (fdArray r).fd ++
    meantFor ids fdArray r (fromOrigin a (t.toDispatcher (fdArray a).fd))

/-- A forward is taken by its channel, if need be at the second or third attempt. -/
def Accepted (t : System M) : Label M → Prop
  | .forward out =>
    match t.pc with
    | .forward (fd::_) _ msg _ _ => (dispatchSend out fd msg []).2 = .ok
    | _ => True
  | _ => True

def Lossless (ids : ModuleIds) (fdArray : FdArray) (t : System M) : Prop :=
  ∀ a r, HasChannel ids fdArray r →
    delivered fdArray t a r ++ onTheWay ids fdArray t a r = meantFor ids fdArray r (t.sent a)

/-- Nothing has been lost between `a`, whose messages the dispatcher takes from `fdA`, and `r`, which it
forwards those to `fdR` that `W` selects. -/
def Between (W : Message M → Bool) (fdA fdR : ℤ) (a r : ℕ) (t : System M) : Prop :=
  fromOrigin a (t.received r) ++ fromOrigin a (t.toModule fdR) ++
    (t.pc.pending a fdR ++ ((fromOrigin a (t.toDispatcher fdA)).filter W).map Message.msg) =
      ((t.sent a).filter W).map Message.msg

section Between
variable {W : Message M → Bool} {fdA fdR : ℤ} {a r : ℕ} {t : System M}

theorem Between.push (h : Between W fdA fdR a r t) {k : ℕ} {fd : ℤ} (hk : k = a → fd = fdA)
    (taken : List (Message M)) : Between W fdA fdR a r
      ⟨Function.update t.toDispatcher fd (t.toDispatcher fd ++ taken.map fun m => (k,m)),t.toModule,t.pc,
        Function.update t.sent k (t.sent k ++ taken),t.received⟩ := by
  rw [Between] at h ⊢
  by_cases ha : k = a
  · obtain rfl := hk ha
    subst ha
    simp only [Function.update_self,fromOrigin_append,fromOrigin_tagged,if_true,List.filter_append,
      List.map_append,← List.append_assoc] at h ⊢
    rw [h]
  · have hqueue : fromOrigin a (Function.update t.toDispatcher fd
        (t.toDispatcher fd ++ taken.map fun m => (k,m)) fdA) = fromOrigin a (t.toDispatcher fdA) := by
      by_cases hfd : fdA = fd
      · rw [hfd,Function.update_self,fromOrigin_append,fromOrigin_tagged,if_neg ha,List.append_nil]
      · rw [Function.update_of_ne hfd]
    simp only [hqueue,Function.update_of_ne (Ne.symm ha)]
    exact h

theorem Between.pc (h : Between W fdA fdR a r t) {pc : Pc M} (hp : pc.pending a fdR = t.pc.pending a fdR) :
    Between W fdA fdR a r ⟨t.toDispatcher,t.toModule,pc,t.sent,t.received⟩ := by
  rw [Between] at h ⊢
  rw [hp]
  exact h

theorem Between.take (h : Between W fdA fdR a r t) {fd : ℤ} {fds : List ℤ} {origin : ℕ} {m : Message M}
    {queue : List (ℕ × Message M)} {rows : List ℕ} {ready : ℤ → Bool} (hpc : t.pc.pending a fdR = [])
    (hq : t.toDispatcher fd = (origin,m)::queue) (horigin : origin = a → fd = fdA)
    (hto : fdR ∈ fds ↔ W m = true) : Between W fdA fdR a r
      ⟨Function.update t.toDispatcher fd queue,t.toModule,.forward fds origin m.msg rows ready,t.sent,
        t.received⟩ := by
  rw [Between,hpc,List.nil_append] at h
  rw [Between,← h]
  refine congrArg (fromOrigin a (t.received r) ++ fromOrigin a (t.toModule fdR) ++ ·) ?_
  change (if origin = a ∧ fdR ∈ fds then [m.msg] else []) ++
    ((fromOrigin a (Function.update t.toDispatcher fd queue fdA)).filter W).map Message.msg = _
  by_cases hfd : fdA = fd
  · rw [hfd,Function.update_self,hq,fromOrigin_cons,List.filter_append,List.map_append]
    refine congrArg (· ++ ((fromOrigin a queue).filter W).map Message.msg) ?_
    by_cases ho : origin = a
    · by_cases hw : W m = true
      · rw [if_pos ⟨ho,hto.mpr hw⟩,if_pos ho]
        simp [hw]
      · rw [if_neg fun hc => hw (hto.mp hc.2),if_pos ho]
        simp [hw]
    · rw [if_neg fun hc => ho hc.1,if_neg ho]
      rfl
  · have ho : origin ≠ a := fun ho => hfd (horigin ho).symm
    rw [Function.update_of_ne hfd,if_neg fun hc => ho hc.1,List.nil_append]

/-- A forward that `r` is handed is one copy in its channel; what happens to another one is nothing to
`a` and `r`. -/
theorem Between.forward (h : Between W fdA fdR a r t) {fd : ℤ} {fds : List ℤ} {origin : ℕ} {msg : M}
    {rows : List ℕ} {ready : ℤ → Bool} (hpc : t.pc = .forward (fd::fds) origin msg rows ready)
    {copies : List M} (hcopies : fd = fdR → copies = [msg]) (honce : fd = fdR → fdR ∉ fds) :
    Between W fdA fdR a r ⟨t.toDispatcher,
      Function.update t.toModule fd (t.toModule fd ++ copies.map fun m => (origin,m)),
      .forward fds origin msg rows ready,t.sent,t.received⟩ := by
  rw [Between] at h ⊢
  rw [← h]
  simp only [hpc,Pc.pending,List.append_assoc]
  refine congrArg (fromOrigin a (t.received r) ++ ·) ?_
  by_cases hfd : fdR = fd
  · have hgone : ¬ (origin = a ∧ fdR ∈ fds) := fun hc => honce hfd.symm hc.2
    rw [if_neg hgone,hcopies hfd.symm,← hfd,Function.update_self,fromOrigin_append,fromOrigin_tagged,
      List.nil_append,List.append_assoc]
    by_cases ho : origin = a
    · rw [if_pos ho,if_pos ⟨ho,List.mem_cons_self⟩]
    · rw [if_neg ho,if_neg fun hc => ho hc.1]
  · have hmem : (fdR ∈ fd::fds) ↔ fdR ∈ fds :=
      ⟨fun hm => (List.mem_cons.mp hm).resolve_left hfd,List.mem_cons_of_mem _⟩
    rw [Function.update_of_ne hfd]
    simp only [hmem]

theorem Between.recv (h : Between W fdA fdR a r t) {k : ℕ} {fd : ℤ} (hk : k = r ↔ fd = fdR) {c : ℕ × M}
    {queue : List (ℕ × M)} (hq : t.toModule fd = c::queue) : Between W fdA fdR a r
      ⟨t.toDispatcher,Function.update t.toModule fd queue,t.pc,t.sent,
        Function.update t.received k (t.received k ++ [c])⟩ := by
  rw [Between] at h ⊢
  by_cases hrk : k = r
  · obtain rfl := hk.mp hrk
    subst hrk
    rw [hq,fromOrigin_cons] at h
    simp only [Function.update_self,fromOrigin_append,fromOrigin_cons,fromOrigin_nil,List.append_nil,
      List.append_assoc] at h ⊢
    exact h
  · have hfd : fdR ≠ fd := fun he => hrk (hk.mpr he.symm)
    dsimp only
    rw [Function.update_of_ne hfd,Function.update_of_ne (Ne.symm hrk)]
    exact h

end Between

section Lossless
variable {ids : ModuleIds} {fdArray : FdArray} {localFd : ℕ → ℤ} {s t : System M}

theorem push_lossless (h : Lossless ids fdArray t) (k : ℕ) (taken : List (Message M)) :
    Lossless ids fdArray (t.push fdArray k taken) :=
  fun a r hr => Between.push (h a r hr) (fun hk => by rw [hk]) taken

theorem pc_lossless (h : Lossless ids fdArray t) {pc : Pc M}
    (hp : ∀ a fd, pc.pending a fd = t.pc.pending a fd) :
    Lossless ids fdArray ⟨t.toDispatcher,t.toModule,pc,t.sent,t.received⟩ :=
  fun a r hr => Between.pc (h a r hr) (hp a _)

theorem take_lossless (hI : Inv ids fdArray t) (h : Lossless ids fdArray t) {i origin : ℕ}
    {m : Message M} {queue : List (ℕ × Message M)} {rows : List ℕ} {ready : ℤ → Bool}
    (hpc : ∀ a fd, t.pc.pending a fd = []) (hq : t.toDispatcher (fdArray i).fd = (origin,m)::queue) :
    Lossless ids fdArray ⟨Function.update t.toDispatcher (fdArray i).fd queue,t.toModule,
      .forward (collected ids fdArray m) origin m.msg rows ready,t.sent,t.received⟩ := by
  intro a r hr
  have hfrom := (hI.origin (fdArray i).fd (origin,m) (by rw [hq]; exact List.mem_cons_self)).2
  refine Between.take (h a r hr) (hpc a _) hq (fun ho => ?_) ?_
  · rw [← ho]
    exact hfrom.symm
  · rw [collected_eq,decide_eq_true_iff]
    rfl

theorem forward_lossless (hI : Inv ids fdArray t) (h : Lossless ids fdArray t) {fd : ℤ} {fds : List ℤ}
    {origin : ℕ} {msg : M} {rows : List ℕ} {ready : ℤ → Bool}
    (hpc : t.pc = .forward (fd::fds) origin msg rows ready) :
    Lossless ids fdArray ⟨t.toDispatcher,Function.update t.toModule fd (t.toModule fd ++ [(origin,msg)]),
      .forward fds origin msg rows ready,t.sent,t.received⟩ := by
  intro a r hr
  have hnotin : fd ∉ fds := by
    have hd := hI.distinct
    rw [hpc] at hd
    exact (List.nodup_cons.mp hd).1
  have hcopies : fd = (fdArray r).fd → [msg] = [msg] := fun _ => rfl
  exact Between.forward (h a r hr) hpc hcopies fun heq => heq ▸ hnotin

theorem recv_lossless (hreg : Registered ids fdArray) (h : Lossless ids fdArray t) {k : ℕ}
    (hk : HasChannel ids fdArray k) {c : ℕ × M} {queue : List (ℕ × M)}
    (hq : t.toModule (fdArray k).fd = c::queue) :
    Lossless ids fdArray ⟨t.toDispatcher,Function.update t.toModule (fdArray k).fd queue,t.pc,t.sent,
      Function.update t.received k (t.received k ++ [c])⟩ :=
  fun a r hr => Between.recv (h a r hr) ⟨fun heq => by rw [heq],hreg.distinct k hk.1 r hr.1 hk.2⟩ hq

theorem step_lossless (hreg : Registered ids fdArray) (hI : Inv ids fdArray s)
    (h : Lossless ids fdArray s) {l : Label M} (hl : Accepted s l)
    (ht : s.step ids fdArray localFd l = some t) : Lossless ids fdArray t := by
  cases l with
  | sendMsg k dest msg out =>
    obtain ⟨-,ht⟩ := Option.ite_none_right_eq_some.mp ht
    cases ht
    exact push_lossless h k _
  | sendMultimsg k msg out =>
    obtain ⟨-,ht⟩ := Option.ite_none_right_eq_some.mp ht
    cases ht
    exact push_lossless h k _
  | select ready =>
    rcases select_cases ht with rfl | ⟨hpc,rfl⟩
    · exact h
    · exact pc_lossless h fun a fd => by rw [hpc]; rfl
  | row =>
    rcases row_cases ht with ⟨ready,hpc,rfl⟩ | ⟨i,rows,ready,hpc,rfl⟩ |
      ⟨i,rows,ready,origin,m,queue,hpc,-,-,hq,rfl⟩
    · exact pc_lossless h fun a fd => by rw [hpc]; rfl
    · exact pc_lossless h fun a fd => by rw [hpc]; rfl
    · exact take_lossless hI h (fun a fd => by rw [hpc]; rfl) hq
  | forward out =>
    rcases forward_cases ht with ⟨origin,msg,rows,ready,hpc,rfl⟩ |
      ⟨fd,fds,origin,msg,rows,ready,hpc,rfl⟩
    · exact pc_lossless h fun a fd => by simp [hpc,Pc.pending]
    · have hok : (dispatchSend out fd msg []).2 = .ok := by
        simp only [Accepted,hpc] at hl
        exact hl
      rw [dispatchSend_copiesOn,if_pos hok]
      exact forward_lossless hI h hpc
  | recv k =>
    rcases recv_cases ht with rfl | ⟨hk,c,queue,hq,rfl⟩
    · exact h
    · exact recv_lossless hreg h hk hq

theorem exec_lossless (hreg : Registered ids fdArray) {ls : List (Label M)} (hI : Inv ids fdArray s)
    (h : Lossless ids fdArray s) (hls : Meets (System.step ids fdArray localFd) Accepted s ls)
    (ht : exec (System.step ids fdArray localFd) s ls = some t) :
    Inv ids fdArray t ∧ Lossless ids fdArray t := by
  refine exec_invariant (I:=fun s => Inv ids fdArray s ∧ Lossless ids fdArray s)
    (fun s l t h hl ht => ?_) ls ⟨hI,h⟩ hls ht
  exact ⟨step_inv hreg h.1 l ht,step_lossless hreg h.1 h.2 hl ht⟩

/-- Whatever the interleaving: if the channels take every forward, each module has been handed, in
order and once, what each other has sent it, except for what is still on its way. -/
theorem nothing_lost (hreg : Registered ids fdArray) (ls : List (Label M))
    (hls : Meets (System.step ids fdArray localFd) Accepted System.init ls)
    (hs : exec (System.step ids fdArray localFd) System.init ls = some s) (a r : ℕ)
    (hr : HasChannel ids fdArray r) :
    delivered fdArray s a r ++ onTheWay ids fdArray s a r = meantFor ids fdArray r (s.sent a) :=
  (exec_lossless hreg init_inv (fun _ _ _ => rfl) hls hs).2 a r hr

theorem nothing_lost_two : ∃ s : System String,
    exec (System.step threeIds threeRows fun _ => 11) System.init
      [.sendMsg 1 2 "on" fun _ => .sent,.select fun _ => true,.sendMsg 1 2 "off" fun _ => .sent,.row,
        .forward fun _ => .sent,.forward fun _ => .sent,.recv 2] = some s ∧
    s.received 2 = [(1,"on")] ∧ onTheWay threeIds threeRows s 1 2 = ["off"] ∧
    delivered threeRows s 1 2 ++ onTheWay threeIds threeRows s 1 2 =
      meantFor threeIds threeRows 2 (s.sent 1) := by
  obtain ⟨s,hs,hreceived,hway⟩ : ∃ s : System String, exec (System.step threeIds threeRows fun _ => 11)
      System.init [.sendMsg 1 2 "on" fun _ => .sent,.select fun _ => true,
        .sendMsg 1 2 "off" fun _ => .sent,.row,.forward fun _ => .sent,.forward fun _ => .sent,
        .recv 2] = some s ∧ s.received 2 = [(1,"on")] ∧
      onTheWay threeIds threeRows s 1 2 = ["off"] := ⟨_,rfl,rfl,rfl⟩
  refine ⟨s,hs,hreceived,hway,nothing_lost threeRows_registered _ ?_ hs 1 2 ⟨by decide,by decide⟩⟩
  refine meets_cons trivial rfl (meets_cons trivial rfl (meets_cons trivial rfl ?_))
  refine meets_cons trivial rfl (meets_cons rfl rfl ?_)
  exact meets_cons trivial rfl (meets_cons trivial rfl trivial)

end Lossless

section Rounds
variable {ids : ModuleIds} {fdArray : FdArray} {localFd : ℕ → ℤ} {s t : System M} {i : ℕ}

/-- The rows that the scan has still to visit, with the readable descriptors. -/
def Pc.ahead : Pc M → List ℕ × (ℤ → Bool)
  | .select => ([],fun _ => false)
  | .scan rows ready => (rows,ready)
  | .forward _ _ _ rows ready => (rows,ready)

def Pc.Visits (pc : Pc M) (fdArray : FdArray) (i : ℕ) : Prop :=
  i ∈ (Pc.ahead pc).1 ∧ (Pc.ahead pc).2 (fdArray i).fd = true

instance (pc : Pc M) (fdArray : FdArray) (i : ℕ) : Decidable (Pc.Visits pc fdArray i) :=
  inferInstanceAs (Decidable (_ ∧ _))

def backlog (fdArray : FdArray) (t : System M) (i : ℕ) : ℕ :=
  (t.toDispatcher (fdArray i).fd).length - if Pc.Visits t.pc fdArray i then 1 else 0

/-- The modules send nothing, and `select` finds every channel readable that has a message. -/
def Quiet (t : System M) : Label M → Prop
  | .sendMsg _ _ _ _ => False
  | .sendMultimsg _ _ _ => False
  | .select ready => ∀ fd, t.toDispatcher fd ≠ [] → ready fd = true
  | .row => True
  | .forward _ => True
  | .recv _ => True

def Label.begins : Label M → Bool
  | .select _ => true
  | _ => false

def rounds (ls : List (Label M)) : ℕ := ls.countP Label.begins

theorem backlog_of_visits (h : Pc.Visits t.pc fdArray i) :
    backlog fdArray t i = (t.toDispatcher (fdArray i).fd).length-1 := by
  rw [backlog,if_pos h]

theorem not_visits_of_nil {pc : Pc M} (h : (Pc.ahead pc).1 = []) : ¬ Pc.Visits pc fdArray i := by
  intro hvisits
  have hmem := hvisits.1
  rw [h] at hmem
  exact List.not_mem_nil hmem

theorem backlog_of_not_visits (h : ¬ Pc.Visits t.pc fdArray i) :
    backlog fdArray t i = (t.toDispatcher (fdArray i).fd).length := by
  rw [backlog,if_neg h,Nat.sub_zero]

theorem backlog_le (fdArray : FdArray) (t : System M) (i : ℕ) :
    backlog fdArray t i ≤ (t.toDispatcher (fdArray i).fd).length := Nat.sub_le _ _

theorem maxFd_nonneg (hreg : Registered ids fdArray) (hi : HasChannel ids fdArray i) :
    ¬ (buildFdSets ids fdArray).2 < 0 := by
  have hmem : (fdArray i).fd ∈ fdSetCalls ids fdArray := mem_registeredFds.mpr ⟨i,hi.1,rfl,hi.2⟩
  have hmax := (maxFd_spec ids fdArray).2 _ (List.mem_cons_of_mem _ hmem)
  have hpos := hreg.positive i hi.1 hi.2
  omega

theorem skip_reason {k : ℕ} {rows : List ℕ} {ready : ℤ → Bool} (hpc : s.pc = .scan (k::rows) ready)
    (ht : s.step ids fdArray localFd .row = some {s with pc := .scan rows ready}) :
    (fdArray k).fd = dispatchInvalidFd ∨ ready (fdArray k).fd = false ∨
      s.toDispatcher (fdArray k).fd = [] := by
  simp only [System.step,hpc] at ht
  by_cases hidle : (fdArray k).fd = dispatchInvalidFd ∨ ready (fdArray k).fd = false
  · exact hidle.imp_right Or.inl
  · rw [if_neg hidle] at ht
    cases hq : s.toDispatcher (fdArray k).fd with
    | nil => exact Or.inr (Or.inr rfl)
    | cons e queue =>
      simp only [hq] at ht
      have hpcs := congrArg System.pc (Option.some.inj ht)
      cases hpcs

theorem select_backlog (hreg : Registered ids fdArray) (hi : HasChannel ids fdArray i)
    {ready : ℤ → Bool} (hl : Quiet s (.select ready))
    (ht : s.step ids fdArray localFd (.select ready) = some t) :
    backlog fdArray t i ≤ backlog fdArray s i-1 := by
  cases hpc : s.pc with
  | scan _ _ => simp only [System.step,hpc] at ht; cases ht
  | forward _ _ _ _ _ => simp only [System.step,hpc] at ht; cases ht
  | select =>
    simp only [System.step,hpc,if_neg (maxFd_nonneg hreg hi)] at ht
    cases ht
    have hbefore : ¬ Pc.Visits s.pc fdArray i := by
      rw [hpc]
      exact not_visits_of_nil rfl
    rw [backlog_of_not_visits hbefore]
    by_cases hq : s.toDispatcher (fdArray i).fd = []
    · refine (backlog_le _ _ _).trans ?_
      rw [hq]
      exact Nat.zero_le _
    · have hset : (buildFdSets ids fdArray).1 (fdArray i).fd = true :=
        buildFdSets_mem.mpr ⟨i,hi.1,rfl,hi.2⟩
      refine (backlog_of_visits ⟨hi.1,?_⟩).le
      change ((buildFdSets ids fdArray).1 (fdArray i).fd && ready (fdArray i).fd) = true
      rw [hset,hl _ hq]
      rfl

section Rows

variable {k : ℕ} {rows : List ℕ} {ready : ℤ → Bool}

theorem skip_backlog (hi : HasChannel ids fdArray i) (hpc : s.pc = .scan (k::rows) ready)
    (ht : s.step ids fdArray localFd .row = some {s with pc := .scan rows ready}) :
    backlog fdArray {s with pc := .scan rows ready} i ≤ backlog fdArray s i := by
  by_cases hvisits : Pc.Visits s.pc fdArray i
  · have hscan : Pc.Visits (.scan (k::rows) ready : Pc M) fdArray i := hpc ▸ hvisits
    rcases List.mem_cons.mp hscan.1 with rfl | hmem
    · rcases skip_reason hpc ht with hfd | hready | hq
      · exact absurd hfd hi.2
      · exact absurd (hready.symm.trans hscan.2) Bool.false_ne_true
      · refine (backlog_le _ _ _).trans ?_
        rw [show ({s with pc := .scan rows ready} : System M).toDispatcher (fdArray i).fd = [] from hq]
        exact Nat.zero_le _
    · have hafter : Pc.Visits (.scan rows ready : Pc M) fdArray i := ⟨hmem,hscan.2⟩
      rw [backlog_of_visits hvisits]
      exact (backlog_of_visits hafter).le
  · rw [backlog_of_not_visits hvisits]
    exact backlog_le _ _ _

variable {queue : List (ℕ × Message M)} {fds : List ℤ} {origin : ℕ} {msg : M}

theorem take_backlog {e : ℕ × Message M} (hpc : s.pc = .scan (i::rows) ready)
    (hready : ready (fdArray i).fd = true)
    (hq : s.toDispatcher (fdArray i).fd = e::queue)
    (htaken : t.toDispatcher = Function.update s.toDispatcher (fdArray i).fd queue) :
    backlog fdArray t i ≤ backlog fdArray s i := by
  have hvisits : Pc.Visits s.pc fdArray i := by
    rw [hpc]
    exact ⟨List.mem_cons_self,hready⟩
  rw [backlog_of_visits hvisits,hq]
  refine (backlog_le _ _ _).trans ?_
  rw [htaken,Function.update_self]
  exact Nat.le_refl _

theorem other_backlog (hki : i ≠ k) (hfds : (fdArray i).fd ≠ (fdArray k).fd)
    (hpc : s.pc = .scan (k::rows) ready) (hafter : t.pc = .forward fds origin msg rows ready)
    (htaken : t.toDispatcher = Function.update s.toDispatcher (fdArray k).fd queue) :
    backlog fdArray t i ≤ backlog fdArray s i := by
  have hsame : t.toDispatcher (fdArray i).fd = s.toDispatcher (fdArray i).fd := by
    rw [htaken,Function.update_of_ne hfds]
  by_cases hvisits : Pc.Visits s.pc fdArray i
  · have hscan : Pc.Visits (.scan (k::rows) ready : Pc M) fdArray i := hpc ▸ hvisits
    have hvisits' : Pc.Visits t.pc fdArray i := by
      rw [hafter]
      exact ⟨(List.mem_cons.mp hscan.1).resolve_left hki,hscan.2⟩
    rw [backlog_of_visits hvisits,← hsame]
    exact (backlog_of_visits hvisits').le
  · rw [backlog_of_not_visits hvisits,← hsame]
    exact backlog_le _ _ _

end Rows

theorem row_backlog (hreg : Registered ids fdArray) (hI : Inv ids fdArray s)
    (hi : HasChannel ids fdArray i) (ht : s.step ids fdArray localFd .row = some t) :
    backlog fdArray t i ≤ backlog fdArray s i := by
  have hrows := hI.rows
  rcases row_cases ht with ⟨ready,hpc,rfl⟩ | ⟨k,rows,ready,hpc,rfl⟩ |
    ⟨k,rows,ready,origin,m,queue,hpc,hfd,hready,hq,rfl⟩
  · have hbefore : ¬ Pc.Visits s.pc fdArray i := by
      rw [hpc]
      exact not_visits_of_nil rfl
    rw [backlog_of_not_visits hbefore]
    exact backlog_le _ _ _
  · exact skip_backlog hi hpc ht
  · rw [hpc] at hrows
    by_cases hik : i = k
    · subst hik
      exact take_backlog hpc hready hq rfl
    · have hfds : (fdArray i).fd ≠ (fdArray k).fd := fun he =>
        hik (hreg.distinct k (hrows k List.mem_cons_self) i hi.1 hfd he.symm).symm
      exact other_backlog hik hfds hpc rfl rfl

/-- A round that begins reaches one message more; no other step adds to what is not reached. -/
theorem step_backlog (hreg : Registered ids fdArray) (hI : Inv ids fdArray s)
    (hi : HasChannel ids fdArray i) {l : Label M} (hl : Quiet s l)
    (ht : s.step ids fdArray localFd l = some t) :
    backlog fdArray t i ≤ backlog fdArray s i - if Label.begins l then 1 else 0 := by
  cases l with
  | sendMsg k dest msg out => exact hl.elim
  | sendMultimsg k msg out => exact hl.elim
  | select ready => exact select_backlog hreg hi hl ht
  | row => exact row_backlog hreg hI hi ht
  | forward out =>
    change backlog fdArray t i ≤ backlog fdArray s i
    rcases forward_cases ht with ⟨origin,msg,rows,ready,hpc,rfl⟩ |
      ⟨fd,fds,origin,msg,rows,ready,hpc,rfl⟩
    · rw [backlog,backlog,hpc]
      exact le_rfl
    · rw [backlog,backlog,hpc]
      exact le_rfl
  | recv k =>
    rcases recv_cases ht with rfl | ⟨-,c,queue,-,rfl⟩
    · exact le_rfl
    · exact le_rfl

theorem step_sent {l : Label M} (hl : Quiet s l) (ht : s.step ids fdArray localFd l = some t) :
    t.sent = s.sent := by
  cases l with
  | sendMsg k dest msg out => exact hl.elim
  | sendMultimsg k msg out => exact hl.elim
  | select ready =>
    rcases select_cases ht with rfl | ⟨-,rfl⟩
    · rfl
    · rfl
  | row =>
    rcases row_cases ht with ⟨_,_,rfl⟩ | ⟨_,_,_,_,rfl⟩ | ⟨_,_,_,_,_,_,_,_,_,_,rfl⟩
    · rfl
    · rfl
    · rfl
  | forward out =>
    rcases forward_cases ht with ⟨_,_,_,_,_,rfl⟩ | ⟨_,_,_,_,_,_,_,rfl⟩
    · rfl
    · rfl
  | recv k =>
    rcases recv_cases ht with rfl | ⟨_,_,_,_,rfl⟩
    · rfl
    · rfl

theorem exec_backlog (hreg : Registered ids fdArray) {ls : List (Label M)} (hI : Inv ids fdArray s)
    (hls : Meets (System.step ids fdArray localFd) Quiet s ls)
    (ht : exec (System.step ids fdArray localFd) s ls = some t) :
    t.sent = s.sent ∧ ∀ i, HasChannel ids fdArray i →
      backlog fdArray t i ≤ backlog fdArray s i - rounds ls := by
  induction ls generalizing s with
  | nil =>
    cases ht
    exact ⟨rfl,fun _ _ => le_rfl⟩
  | cons l ls ih =>
    obtain ⟨hl,hrest⟩ := hls
    obtain ⟨u,hu,ht⟩ := exec_cons.mp ht
    obtain ⟨hsent,hback⟩ := ih (step_inv hreg hI l hu) (hrest u hu) ht
    refine ⟨hsent.trans (step_sent hl hu),fun i hi => ?_⟩
    have hstep := step_backlog hreg hI hi hl hu
    have hrun := hback i hi
    rw [rounds,List.countP_cons] at *
    omega

end Rounds

end DispatchDelivery
end IotBase
