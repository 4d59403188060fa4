import IotBase.DispatchFifo

/-! Whom a broadcast reaches, for the two functions that can start one, and what
`dispatch_transfer_msg` says about the sends it made. -/
namespace IotBase
namespace DispatchOutcome
open DispatchTransfer DispatchFifo

variable {M : Type*}

/-- The dispatcher forwards the message to module `i`: whatever the kernel answers, it sends on
the module's channel, and the channel takes the payload `m` once or, if the last `send` fails,
not at all. -/
def DeliveredTo (ids : ModuleIds) (fdArray : FdArray) (message : Message M) (m : M) (i : ℕ) : Prop :=
  i ∈ ids.real ∧ (fdArray i).fd ≠ dispatchInvalidFd ∧ ∀ out,
    callsOn (fdArray i).fd (dispatchTransferMsg ids fdArray out message []).1 ≠ [] ∧
    copiesOn (fdArray i).fd (dispatchTransferMsg ids fdArray out message []).1 =
      if finallySent (fdArray i).fd (dispatchTransferMsg ids fdArray out message []).1 then [m] else []

/-- Both ways of broadcasting a payload from module `s` deliver it to the same modules: the
other registered ones that receive. -/
structure BroadcastsAgree (ids : ModuleIds) (fdArray : FdArray) (s : ℕ) (localFd : ℤ) (m : M) :
    Prop where
  same : ∀ out₁ out₂, ∀ a ∈ copiesOn localFd (dispatchSendMsg localFd ids.all m out₁).1,
    ∀ b ∈ copiesOn localFd (dispatchSendMultimsg ids localFd s m out₂).1,
    ∀ i, DeliveredTo ids fdArray a m i ↔ DeliveredTo ids fdArray b m i
  others : ∀ out, ∀ a ∈ copiesOn localFd (dispatchSendMsg localFd ids.all m out).1,
    ∀ i, DeliveredTo ids fdArray a m i ↔ i ∈ ids.real ∧ (fdArray i).fd ≠ dispatchInvalidFd ∧ i ≠ s ∧
      (fdArray i).mode = dispatchModeSendRecv

theorem dispatchSend_copies {out : ℕ → SendResult} {fd : ℤ} {msg a : M}
    (h : a ∈ copiesOn fd (dispatchSend out fd msg []).1) : a = msg := by
  rw [dispatchSend_copiesOn] at h
  split at h
  · exact List.mem_singleton.mp h
  · cases h

theorem dispatchSend_taken {fd : ℤ} (hfd : 0 ≤ fd) (msg : M) :
    msg ∈ copiesOn fd (dispatchSend (fun _ => .sent) fd msg []).1 := by
  have hret : (dispatchSend (fun _ => .sent) fd msg []).2 = .ok := by
    rw [dispatchSend,if_neg (by omega)]
    simp [sendLoop]
  rw [dispatchSend_copiesOn,if_pos hret]
  exact List.mem_singleton_self msg

theorem deliveredTo_iff {ids : ModuleIds} {fdArray : FdArray} (h : Registered ids fdArray) (src : ℤ)
    (m : M) (i : ℕ) :
    DeliveredTo ids fdArray ⟨src,ids.all,m⟩ m i ↔ i ∈ broadcastTo ids fdArray src := by
  constructor
  · rintro ⟨hi,hfd,htried⟩
    have hmem := (transferMsg_attempted_iff h (fun _ => .sent) ⟨src,ids.all,m⟩ _).mp
      (htried fun _ => .sent).1
    rw [addressed,if_pos rfl] at hmem
    obtain ⟨k,hk,hsame⟩ := List.mem_map.mp hmem
    obtain rfl : i = k := h.distinct i hi k (mem_broadcastTo.mp hk).1 hfd hsame.symm
    exact hk
  · intro hi
    obtain ⟨hreal,hfd,-,-⟩ := mem_broadcastTo.mp hi
    refine ⟨hreal,hfd,fun out => ⟨?_,transferMsg_copiesOn h out _ _⟩⟩
    rw [transferMsg_attempted_iff h,addressed,if_pos rfl]
    exact List.mem_map_of_mem hi

/-- The two ways of broadcasting agree exactly when the sender does not receive. -/
theorem broadcasts_agree_iff {ids : ModuleIds} {fdArray : FdArray} (h : Registered ids fdArray)
    {s : ℕ} (hs : s ∈ ids.real) (hreg : (fdArray s).fd ≠ dispatchInvalidFd) {localFd : ℤ}
    (hfd : 0 ≤ localFd) (m : M) :
    BroadcastsAgree ids fdArray s localFd m ↔ (fdArray s).mode ≠ dispatchModeSendRecv := by
  have hreal : ∀ i ∈ ids.real, (i : ℤ) ≠ moduleIdUnspecified := by
    intro i hi
    have hlo := (mem_real.mp hi).1
    have hpos := ids.specified
    rw [moduleIdUnspecified]
    omega
  constructor
  · intro hagree hmode
    have hown := (hagree.others (fun _ => .sent) _ (dispatchSend_taken hfd _) s).mp
      ((deliveredTo_iff h _ m s).mpr (mem_broadcastTo.mpr ⟨hs,hreg,hreal s hs,hmode⟩))
    exact hown.2.2.1 rfl
  · intro hmode
    have hmsg : ∀ i, i ∈ broadcastTo ids fdArray moduleIdUnspecified ↔ i ∈ ids.real ∧
        (fdArray i).fd ≠ dispatchInvalidFd ∧ i ≠ s ∧ (fdArray i).mode = dispatchModeSendRecv := by
      intro i
      rw [mem_broadcastTo]
      constructor
      · rintro ⟨hi,hvalid,-,hrecv⟩
        exact ⟨hi,hvalid,fun he => hmode (he ▸ hrecv),hrecv⟩
      · rintro ⟨hi,hvalid,-,hrecv⟩
        exact ⟨hi,hvalid,hreal i hi,hrecv⟩
    have hmulti : ∀ i, i ∈ broadcastTo ids fdArray s ↔ i ∈ ids.real ∧
        (fdArray i).fd ≠ dispatchInvalidFd ∧ i ≠ s ∧ (fdArray i).mode = dispatchModeSendRecv := by
      intro i
      have hne : (i : ℤ) ≠ s ↔ i ≠ s := by omega
      rw [mem_broadcastTo,hne]
    constructor
    · intro _ _ a ha b hb i
      rw [dispatchSend_copies ha,dispatchSend_copies hb,deliveredTo_iff h,deliveredTo_iff h,hmsg,hmulti]
    · intro _ a ha i
      rw [dispatchSend_copies ha,deliveredTo_iff h,hmsg]

theorem broadcasts_agree_sendOnly : BroadcastsAgree threeIds threeRows 3 10 "on" :=
  (broadcasts_agree_iff threeRows_registered (by decide) (by decide) (by decide) "on").mpr (by decide)

/-- Module 1 receives: its `dispatch_send_msg` to everyone comes back to it. -/
theorem broadcasts_differ_sendRecv : ¬ BroadcastsAgree threeIds threeRows 1 6 "on" := by
  intro h
  have hmem : (⟨moduleIdUnspecified,threeIds.all,"on"⟩ : Message String) ∈
      copiesOn 6 (dispatchSendMsg 6 threeIds.all "on" fun _ => .sent).1 :=
    dispatchSend_taken (by decide) _
  have hown := (h.others _ _ hmem 1).mp
    ((deliveredTo_iff threeRows_registered _ _ _).mpr (by decide))
  exact hown.2.2.1 rfl

/-- The last answer of a `dispatch_send` whose first `send` is call `k`, and the next call;
`left` attempts may follow an interrupted one. -/
def settle (out : ℕ → SendResult) : ℕ → ℕ → SendResult × ℕ
  | 0, k => (out k,k+1)
  | left+1, k => if out k = .eintr then settle out left (k+1) else (out k,k+1)

/-- Which of `n` destinations, tried one after the other from call `k` on, accept. -/
def accepts (out : ℕ → SendResult) : ℕ → ℕ → List Bool
  | 0, _ => []
  | n+1, k => decide ((settle out 2 k).1 = .sent)::accepts out n (settle out 2 k).2

def LastSpeaksForAll (bs : List Bool) : Prop := bs.getLast? = some true → ∀ b ∈ bs, b = true

instance (bs : List Bool) : Decidable (LastSpeaksForAll bs) :=
  inferInstanceAs (Decidable (_ → _))

/-- The return value of `dispatch_transfer_msg` says whether something was addressed and
everything addressed took the message. -/
structure Truthful (ids : ModuleIds) (fdArray : FdArray) (out : ℕ → SendResult)
    (message : Message M) : Prop where
  ok : (dispatchTransferMsg ids fdArray out message []).2 = .ok ↔
    addressed ids fdArray message.dest message.src ≠ [] ∧
    ∀ fd ∈ addressed ids fdArray message.dest message.src,
      copiesOn fd (dispatchTransferMsg ids fdArray out message []).1 = [message.msg]
  fail : ∀ fd ∈ addressed ids fdArray message.dest message.src,
    copiesOn fd (dispatchTransferMsg ids fdArray out message []).1 = [] →
      (dispatchTransferMsg ids fdArray out message []).2 = .fail

theorem sendLoop_settle (out : ℕ → SendResult) (fd : ℤ) (msg : M) (left : ℕ)
    (log : List (SendCall M)) : (sendLoop out fd msg left log).2 = (settle out left log.length).1 ∧
      (sendLoop out fd msg left log).1.length = (settle out left log.length).2 := by
  induction left generalizing log with
  | zero => simp [sendLoop,settle]
  | succ left ih =>
    by_cases h : out log.length = .eintr
    · obtain ⟨hres,hlen⟩ := ih (log++[⟨fd,msg,.eintr⟩])
      rw [List.length_append,List.length_singleton] at hres hlen
      rw [sendLoop,settle,if_pos h,if_pos h]
      exact ⟨hres,hlen⟩
    · simp [sendLoop,settle,h]

theorem dispatchGetFd_nonempty {ids : ModuleIds} {fdArray : FdArray} {dest src : ℤ} {info : FdInfo}
    (h : dispatchGetFd ids fdArray dest src = some info) : info.list ≠ [] := by
  have hcnt : info.cnt ≠ 0 := by
    simp only [dispatchGetFd] at h
    split at h
    · cases h
    · split at h
      · split at h
        · cases h
          exact Nat.one_ne_zero
        · cases h
      · split at h
        · cases h
        · rename_i hcnt
          cases h
          exact hcnt
  intro hnil
  have hlen : info.list.length = info.cnt := by simp [FdInfo.list]
  rw [hnil] at hlen
  exact hcnt hlen.symm

@[simp] theorem accepts_length (out : ℕ → SendResult) (n k : ℕ) : (accepts out n k).length = n := by
  induction n generalizing k with
  | zero => rfl
  | succ n ih => simp [accepts,ih]

theorem dispatchSend_settle (out : ℕ → SendResult) {fd : ℤ} (hfd : 0 ≤ fd) (msg : M)
    (log : List (SendCall M)) :
    (dispatchSend out fd msg log).1.length = (settle out 2 log.length).2 ∧
    (dispatchSend out fd msg log).2 = (if (settle out 2 log.length).1 = .sent then .ok else .fail) ∧
    ∀ fd', copiesOn fd' (dispatchSend out fd msg log).1 = copiesOn fd' log ++
      if fd' = fd ∧ (settle out 2 log.length).1 = .sent then [msg] else [] := by
  obtain ⟨hres,hlen⟩ := sendLoop_settle out fd msg 2 log
  have hret : (dispatchSend out fd msg log).2 =
      if (settle out 2 log.length).1 = .sent then .ok else .fail := by
    rw [← hres,dispatchSend,if_neg (by omega)]
  refine ⟨by rw [dispatchSend,if_neg (by omega)]; exact hlen,hret,fun fd' => ?_⟩
  obtain ⟨calls,hcalls,hlog⟩ := dispatchSend_spec out hfd msg log
  rw [hlog,copiesOn,callsOn,List.filter_append,List.filter_append,List.map_append]
  refine congrArg (copiesOn fd' log ++ ·) ?_
  by_cases heq : fd' = fd
  · subst heq
    have hcopies := hcalls.copies
    rw [← hcalls.callsOn_self,callsOn] at hcopies
    refine hcopies.trans ?_
    rw [hret] at hcalls
    rw [← callsOn,hcalls.callsOn_self]
    obtain ⟨n,r,rfl,hr⟩ := hcalls
    cases r <;> by_cases hs : (settle out 2 log.length).1 = .sent <;> simp_all
  · have hnone := hcalls.callsOn_other (Ne.symm heq)
    rw [callsOn] at hnone
    simp [hnone,heq]

/-- The copies that the loop leaves on its descriptors, and the value it returns: that of the
last destination. -/
theorem transferLoop_accepts (out : ℕ → SendResult) (msg : M) (fds : List ℤ)
    (log : List (SendCall M)) (ret : Ret) (hpos : ∀ fd ∈ fds, 0 < fd) (hn : fds.Nodup) :
    (∀ q ∈ fds.zip (accepts out fds.length log.length),
      copiesOn q.1 (transferLoop out msg fds log ret).1 =
        copiesOn q.1 log ++ if q.2 then [msg] else []) ∧
    (transferLoop out msg fds log ret).2 =
      ((accepts out fds.length log.length).getLast?.map fun b => if b then .ok else .fail).getD ret := by
  induction fds generalizing log ret with
  | nil => exact ⟨by simp,rfl⟩
  | cons fd fds ih =>
    obtain ⟨hfd,hn⟩ := List.nodup_cons.mp hn
    obtain ⟨hlen,hret,hcopies⟩ :=
      dispatchSend_settle out (Int.le_of_lt (hpos fd List.mem_cons_self)) msg log
    have htail : ∀ fd' ∈ fds, 0 < fd' := fun fd' h => hpos fd' (List.mem_cons_of_mem _ h)
    obtain ⟨hzip,hlast⟩ := ih (dispatchSend out fd msg log).1 (dispatchSend out fd msg log).2 htail hn
    rw [hlen] at hzip hlast
    rw [transferLoop,List.length_cons,accepts,List.zip_cons_cons]
    refine ⟨List.forall_mem_cons.mpr ⟨?_,fun q hq => ?_⟩,?_⟩
    · have hkept := (transferLoop_callsOn out msg fd fds (dispatchSend out fd msg log).1
        (dispatchSend out fd msg log).2 htail hn).1 hfd
      have hcopy : copiesOn fd (transferLoop out msg fds (dispatchSend out fd msg log).1
          (dispatchSend out fd msg log).2).1 = copiesOn fd (dispatchSend out fd msg log).1 :=
        congrArg (fun calls => (calls.filter fun c => decide (c.result = .sent)).map SendCall.msg) hkept
      rw [hcopy]
      simpa using hcopies fd
    · have hmem : q.1 ∈ fds := (List.of_mem_zip hq).1
      have hother : q.1 ≠ fd := ne_of_mem_of_not_mem hmem hfd
      rw [hzip q hq,hcopies,if_neg fun h => hother h.1,List.append_nil]
    · rw [hlast,hret,List.getLast?_cons]
      cases (accepts out fds.length (settle out 2 log.length).2).getLast? <;> simp

theorem transferMsg_accepts {ids : ModuleIds} {fdArray : FdArray} (h : Registered ids fdArray)
    (out : ℕ → SendResult) (message : Message M) :
    (∀ q ∈ (addressed ids fdArray message.dest message.src).zip
        (accepts out (addressed ids fdArray message.dest message.src).length 0),
      copiesOn q.1 (dispatchTransferMsg ids fdArray out message []).1 =
        if q.2 then [message.msg] else []) ∧
    (dispatchTransferMsg ids fdArray out message []).2 =
      ((accepts out (addressed ids fdArray message.dest message.src).length 0).getLast?.map
        fun b => if b then .ok else .fail).getD .fail := by
  rcases dispatchGetFd_spec ids fdArray message.dest message.src with
    ⟨hnone,haddr⟩ | ⟨info,hsome,haddr⟩
  · simp only [dispatchTransferMsg,hnone,haddr]
    exact ⟨by simp,rfl⟩
  · obtain ⟨hzip,hlast⟩ := transferLoop_accepts out message.msg info.list [] .ok
      (fun fd hfd => addressed_positive h (haddr ▸ hfd)) (haddr ▸ addressed_nodup h _ _)
    rw [haddr] at hzip hlast
    simp only [dispatchTransferMsg,hsome,haddr]
    refine ⟨hzip,hlast.trans ?_⟩
    have hne : addressed ids fdArray message.dest message.src ≠ [] := haddr ▸ dispatchGetFd_nonempty hsome
    obtain ⟨fd,fds,hcons⟩ := List.exists_cons_of_ne_nil hne
    rw [hcons,List.length_cons,accepts,accepts,List.getLast?_cons,List.getLast?_cons]
    rfl

theorem all_taken_iff {ids : ModuleIds} {fdArray : FdArray} (h : Registered ids fdArray)
    (out : ℕ → SendResult) (message : Message M) :
    (∀ fd ∈ addressed ids fdArray message.dest message.src,
      copiesOn fd (dispatchTransferMsg ids fdArray out message []).1 = [message.msg]) ↔
    ∀ b ∈ accepts out (addressed ids fdArray message.dest message.src).length 0, b = true := by
  have hzip := (transferMsg_accepts h out message).1
  generalize hfds : addressed ids fdArray message.dest message.src = fds at hzip ⊢
  have hlen := accepts_length out fds.length 0
  constructor
  · intro hall b hb
    obtain ⟨fd,hmem⟩ : ∃ fd, (fd,b) ∈ fds.zip (accepts out fds.length 0) := by
      have hsnd : (fds.zip (accepts out fds.length 0)).map Prod.snd = accepts out fds.length 0 :=
        List.map_snd_zip (by omega)
      rw [← hsnd] at hb
      obtain ⟨q,hq,rfl⟩ := List.mem_map.mp hb
      exact ⟨q.1,hq⟩
    have hcopy := hzip _ hmem
    rw [hall fd (List.of_mem_zip hmem).1] at hcopy
    cases b with
    | true => rfl
    | false => cases hcopy
  · intro hall fd hfd
    obtain ⟨b,hmem⟩ : ∃ b, (fd,b) ∈ fds.zip (accepts out fds.length 0) := by
      have hfst : (fds.zip (accepts out fds.length 0)).map Prod.fst = fds :=
        List.map_fst_zip (by omega)
      rw [← hfst] at hfd
      obtain ⟨q,hq,rfl⟩ := List.mem_map.mp hfd
      exact ⟨q.2,hq⟩
    rw [hzip _ hmem,hall b (List.of_mem_zip hmem).2]
    rfl

/-- The forwarding result is truthful exactly when the last destination does not accept what
an earlier one has refused. -/
theorem transfer_truthful_iff {ids : ModuleIds} {fdArray : FdArray} (h : Registered ids fdArray)
    (out : ℕ → SendResult) (message : Message M) : Truthful ids fdArray out message ↔
      LastSpeaksForAll (accepts out (addressed ids fdArray message.dest message.src).length 0) := by
  have htaken := all_taken_iff h out message
  obtain ⟨hzip,hret⟩ := transferMsg_accepts h out message
  have hlen := accepts_length out (addressed ids fdArray message.dest message.src).length 0
  have hok : (dispatchTransferMsg ids fdArray out message []).2 = .ok ↔
      (accepts out (addressed ids fdArray message.dest message.src).length 0).getLast? = some true := by
    rw [hret]
    cases (accepts out (addressed ids fdArray message.dest message.src).length 0).getLast? with
    | none => simp
    | some b => cases b <;> simp
  constructor
  · intro htrue hlast
    exact htaken.mp (htrue.ok.mp (hok.mpr hlast)).2
  · intro hlast
    have hiff : (dispatchTransferMsg ids fdArray out message []).2 = .ok ↔
        addressed ids fdArray message.dest message.src ≠ [] ∧
        ∀ fd ∈ addressed ids fdArray message.dest message.src,
          copiesOn fd (dispatchTransferMsg ids fdArray out message []).1 = [message.msg] := by
      rw [hok,htaken]
      constructor
      · intro hl
        refine ⟨fun hnil => ?_,hlast hl⟩
        rw [hnil] at hl
        cases hl
      · rintro ⟨hne,hall⟩
        have hne' : accepts out (addressed ids fdArray message.dest message.src).length 0 ≠ [] := by
          rw [← List.length_pos_iff,hlen]
          exact List.length_pos_iff.mpr hne
        rw [List.getLast?_eq_getLast_of_ne_nil hne',hall _ (List.getLast_mem hne')]
    refine ⟨hiff,fun fd hfd hnone => ?_⟩
    cases hr : (dispatchTransferMsg ids fdArray out message []).2 with
    | fail => rfl
    | ok =>
      have hcopy := (hiff.mp hr).2 fd hfd
      rw [hnone] at hcopy
      cases hcopy

def refusesTwo : ℕ → SendResult := fun k => if k < 2 then .failed else .sent

def fourIds : ModuleIds := {threeIds with all := 5}

def fourRows : FdArray
  | 1 => ⟨5,dispatchModeSendRecv⟩
  | 2 => ⟨7,dispatchModeSendRecv⟩
  | 3 => ⟨9,dispatchModeSendRecv⟩
  | 4 => ⟨11,dispatchModeSendRecv⟩
  | _ => ⟨dispatchInvalidFd,dispatchModeSendRecv⟩

theorem fourRows_registered : Registered fourIds fourRows := ⟨by decide,by decide⟩

def refusesThird : ℕ → SendResult := fun k => if k < 2 then .sent else .failed

theorem transfer_truthful_broadcast :
    (dispatchTransferMsg fourIds fourRows refusesThird ⟨1,5,"on"⟩ []).2 = .fail ∧
    Truthful fourIds fourRows refusesThird ⟨1,5,"on"⟩ :=
  ⟨by decide,(transfer_truthful_iff fourRows_registered refusesThird ⟨1,5,"on"⟩).mpr (by decide)⟩

/-- A broadcast of module 1 that two of three destinations refused is reported as a success. -/
theorem transfer_reports_success : Registered fourIds fourRows ∧
    ¬ Truthful fourIds fourRows refusesTwo ⟨1,5,"on"⟩ := by
  refine ⟨fourRows_registered,fun h => ?_⟩
  have hret : (dispatchTransferMsg fourIds fourRows refusesTwo ⟨1,5,"on"⟩ []).2 = .ok := by decide
  have hnone : copiesOn 7 (dispatchTransferMsg fourIds fourRows refusesTwo ⟨1,5,"on"⟩ []).1 = [] := by
    decide
  have hfail := h.fail 7 (by decide) hnone
  rw [hret] at hfail
  cases hfail

end DispatchOutcome
end IotBase
