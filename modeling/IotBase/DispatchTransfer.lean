import Mathlib.Data.List.Nodup
import Mathlib.Data.Int.Cast.Basic
import Mathlib.Logic.Function.Basic

/-! Routing in `dispatch.c`: the address collection, the retry loop of one send and
the forwarding of one message to everything addressed. What the kernel answers
to each `send` is an argument. -/
namespace IotBase
namespace DispatchTransfer

inductive Ret
  | ok | fail
  deriving DecidableEq

/-- The ends of `dispatch_module_id_t`; the modules of a product lie in between, after
`MODULE_ID_UNSPECIFIED`, which is 0. -/
structure ModuleIds where
  mainConsole : ℕ
  all : ℕ
  specified : 0 < mainConsole

def moduleIdUnspecified : ℤ := 0

def dispatchInvalidFd : ℤ := 0

def dispatchModeSendRecv : ℤ := 0
def dispatchModeSendOnly : ℤ := 1

structure Message (M : Type*) where
  src : ℤ
  dest : ℤ
  msg : M

structure Row where
  fd : ℤ
  mode : ℤ

abbrev FdArray := ℕ → Row

structure FdInfo where
  cnt : ℕ
  fds : ℕ → ℤ

def FdInfo.zero : FdInfo := ⟨0,fun _ => 0⟩

def FdInfo.list (info : FdInfo) : List ℤ := (List.range info.cnt).map info.fds

def ModuleIds.real (ids : ModuleIds) : List ℕ :=
  List.range' ids.mainConsole (ids.all-ids.mainConsole)

/-- The loop of `dispatch_get_fd` over the rows; `j` is where the next descriptor goes. -/
def getFdLoop (fdArray : FdArray) (src : ℤ) : List ℕ → FdInfo → ℕ → FdInfo
  | [], info, _ => info
  | i::is, info, j =>
    let fd := (fdArray i).fd
    let mode := (fdArray i).mode
    if fd ≠ dispatchInvalidFd ∧ (i : ℤ) ≠ src ∧ mode = dispatchModeSendRecv then
      getFdLoop fdArray src is ⟨info.cnt+1,Function.update info.fds j fd⟩ (j+1)
    else getFdLoop fdArray src is info j

def dispatchGetFd (ids : ModuleIds) (fdArray : FdArray) (dest src : ℤ) : Option FdInfo :=
  if dest > ids.all ∨ dest < ids.mainConsole then none
  else if dest ≠ ids.all then
    let fd := (fdArray dest.toNat).fd
    if fd ≠ dispatchInvalidFd then some ⟨1,Function.update FdInfo.zero.fds 0 fd⟩ else none
  else
    let info := getFdLoop fdArray src ids.real FdInfo.zero 0
    if info.cnt = 0 then none else some info

/-- What `send` does with a message on a `SOCK_SEQPACKET` socket: all of it or nothing. -/
inductive SendResult
  | sent | eintr | failed
  deriving DecidableEq

structure SendCall (M : Type*) where
  fd : ℤ
  msg : M
  result : SendResult

variable {M : Type*}

/-- The `do … while` of `dispatch_send`; `left` counts the attempts after this one. -/
def sendLoop (out : ℕ → SendResult) (fd : ℤ) (msg : M) :
    ℕ → List (SendCall M) → List (SendCall M) × SendResult
  | 0, log => (log++[⟨fd,msg,out log.length⟩],out log.length)
  | left+1, log =>
    if out log.length = .eintr then sendLoop out fd msg left (log++[⟨fd,msg,.eintr⟩])
    else (log++[⟨fd,msg,out log.length⟩],out log.length)

/-- `dispatch_send` of a non-empty message; `log` lists the `send` calls so far and
`out` is what the kernel answers to each. -/
def dispatchSend (out : ℕ → SendResult) (fd : ℤ) (msg : M) (log : List (SendCall M)) :
    List (SendCall M) × Ret :=
  if fd < 0 then (log,.fail)
  else
    let r := sendLoop out fd msg 2 log
    (r.1,if r.2 = .sent then .ok else .fail)

/-- The loop of `dispatch_transfer_msg`; `ret` is the last send's. -/
def transferLoop (out : ℕ → SendResult) (msg : M) :
    List ℤ → List (SendCall M) → Ret → List (SendCall M) × Ret
  | [], log, ret => (log,ret)
  | fd::fds, log, _ =>
    let r := dispatchSend out fd msg log
    transferLoop out msg fds r.1 r.2

def dispatchTransferMsg (ids : ModuleIds) (fdArray : FdArray) (out : ℕ → SendResult)
    (message : Message M) (log : List (SendCall M)) : List (SendCall M) × Ret :=
  match dispatchGetFd ids fdArray message.dest message.src with
  | none => (log,.fail)
  | some info => transferLoop out message.msg info.list log .ok

/-- The registered rows, as `dispatch_register_channel` leaves them. -/
structure Registered (ids : ModuleIds) (fdArray : FdArray) : Prop where
  positive : ∀ i ∈ ids.real, (fdArray i).fd ≠ dispatchInvalidFd → 0 < (fdArray i).fd
  distinct : ∀ i ∈ ids.real, ∀ k ∈ ids.real, (fdArray i).fd ≠ dispatchInvalidFd →
    (fdArray i).fd = (fdArray k).fd → i = k

def broadcastTo (ids : ModuleIds) (fdArray : FdArray) (src : ℤ) : List ℕ :=
  ids.real.filter fun i => decide ((fdArray i).fd ≠ dispatchInvalidFd ∧ (i : ℤ) ≠ src ∧
    (fdArray i).mode = dispatchModeSendRecv)

/-- The descriptors that a message goes to, in the order they are tried. -/
def addressed (ids : ModuleIds) (fdArray : FdArray) (dest src : ℤ) : List ℤ :=
  if dest = ids.all then (broadcastTo ids fdArray src).map fun i => (fdArray i).fd
  else if (ids.mainConsole : ℤ) ≤ dest ∧ dest < ids.all ∧
      (fdArray dest.toNat).fd ≠ dispatchInvalidFd then [(fdArray dest.toNat).fd]
  else []

theorem mem_real {ids : ModuleIds} {i : ℕ} : i ∈ ids.real ↔ ids.mainConsole ≤ i ∧ i < ids.all := by
  rw [ModuleIds.real,List.mem_range'_1]
  omega

theorem real_nodup (ids : ModuleIds) : ids.real.Nodup := List.nodup_range'

theorem list_push (info : FdInfo) (fd : ℤ) :
    FdInfo.list ⟨info.cnt+1,Function.update info.fds info.cnt fd⟩ = info.list++[fd] := by
  have hold : (List.range info.cnt).map (Function.update info.fds info.cnt fd) = info.list :=
    List.map_congr_left fun k hk =>
      Function.update_of_ne (Nat.ne_of_lt (List.mem_range.mp hk)) _ _
  show (List.range (info.cnt+1)).map (Function.update info.fds info.cnt fd) = _
  rw [List.range_succ,List.map_append,hold,List.map_singleton,Function.update_self]

theorem getFdLoop_list (fdArray : FdArray) (src : ℤ) (is : List ℕ) (info : FdInfo) :
    (getFdLoop fdArray src is info info.cnt).list =
      info.list ++ (is.filter fun i => decide ((fdArray i).fd ≠ dispatchInvalidFd ∧ (i : ℤ) ≠ src ∧
        (fdArray i).mode = dispatchModeSendRecv)).map fun i => (fdArray i).fd := by
  induction is generalizing info with
  | nil => simp [getFdLoop]
  | cons i is ih =>
    by_cases h : (fdArray i).fd ≠ dispatchInvalidFd ∧ (i : ℤ) ≠ src ∧
        (fdArray i).mode = dispatchModeSendRecv
    · have hstep := ih ⟨info.cnt+1,Function.update info.fds info.cnt (fdArray i).fd⟩
      simp only [getFdLoop,if_pos h]
      rw [hstep,list_push,List.filter_cons_of_pos (by simpa using h),List.map_cons,
        List.append_assoc]
      rfl
    · simp only [getFdLoop,if_neg h]
      rw [ih,List.filter_cons_of_neg (by simpa using h)]

/-- Address collection finds exactly what is addressed and fails when that is nothing. -/
theorem dispatchGetFd_spec (ids : ModuleIds) (fdArray : FdArray) (dest src : ℤ) :
    (dispatchGetFd ids fdArray dest src = none ∧ addressed ids fdArray dest src = []) ∨
    ∃ info, dispatchGetFd ids fdArray dest src = some info ∧
      info.list = addressed ids fdArray dest src := by
  by_cases hall : dest = ids.all
  · subst hall
    have hloop := getFdLoop_list fdArray src ids.real FdInfo.zero
    rw [show FdInfo.zero.list = [] from rfl,List.nil_append] at hloop
    have haddr : addressed ids fdArray ids.all src =
        (getFdLoop fdArray src ids.real FdInfo.zero 0).list := by
      rw [addressed,if_pos rfl]
      exact hloop.symm
    by_cases hrange : (ids.all : ℤ) < ids.mainConsole
    · have hnone : ids.real = [] := by
        rw [ModuleIds.real,Nat.sub_eq_zero_of_le (by omega)]
        rfl
      refine .inl ⟨if_pos (.inr hrange),?_⟩
      rw [haddr,hnone]
      rfl
    · have hin : ¬ ((ids.all : ℤ) > ids.all ∨ (ids.all : ℤ) < ids.mainConsole) := by omega
      simp only [dispatchGetFd,if_neg hin,ne_eq,not_true_eq_false,if_false]
      by_cases hcnt : (getFdLoop fdArray src ids.real FdInfo.zero 0).cnt = 0
      · refine .inl ⟨if_pos hcnt,?_⟩
        rw [haddr,FdInfo.list,hcnt]
        rfl
      · exact .inr ⟨_,if_neg hcnt,haddr.symm⟩
  · by_cases hrange : dest > ids.all ∨ dest < ids.mainConsole
    · refine .inl ⟨if_pos hrange,?_⟩
      rw [addressed,if_neg hall,if_neg (by omega)]
    · simp only [dispatchGetFd,if_neg hrange,ne_eq,hall,not_false_eq_true,if_true]
      by_cases hfd : (fdArray dest.toNat).fd = dispatchInvalidFd
      · refine .inl ⟨if_neg (not_not.mpr hfd),?_⟩
        rw [addressed,if_neg hall,if_neg fun h => h.2.2 hfd]
      · refine .inr ⟨_,if_pos hfd,?_⟩
        rw [addressed,if_neg hall,if_pos ⟨by omega,by omega,hfd⟩]
        rfl

theorem mem_broadcastTo {ids : ModuleIds} {fdArray : FdArray} {src : ℤ} {i : ℕ} :
    i ∈ broadcastTo ids fdArray src ↔ i ∈ ids.real ∧ (fdArray i).fd ≠ dispatchInvalidFd ∧
      (i : ℤ) ≠ src ∧ (fdArray i).mode = dispatchModeSendRecv := by
  simp [broadcastTo]

theorem addressed_nodup {ids : ModuleIds} {fdArray : FdArray} (h : Registered ids fdArray)
    (dest src : ℤ) : (addressed ids fdArray dest src).Nodup := by
  rw [addressed]
  by_cases hall : dest = ids.all
  · rw [if_pos hall]
    refine List.Nodup.map_on (fun i hi k hk hik => ?_) ((real_nodup ids).filter _)
    obtain ⟨hi,hfd,-,-⟩ := mem_broadcastTo.mp hi
    exact h.distinct i hi k (mem_broadcastTo.mp hk).1 hfd hik
  · rw [if_neg hall]
    by_cases hdest : (ids.mainConsole : ℤ) ≤ dest ∧ dest < ids.all ∧
        (fdArray dest.toNat).fd ≠ dispatchInvalidFd
    · rw [if_pos hdest]
      exact List.nodup_singleton _
    · rw [if_neg hdest]
      exact List.nodup_nil

theorem addressed_registered {ids : ModuleIds} {fdArray : FdArray} {dest src fd : ℤ}
    (h : fd ∈ addressed ids fdArray dest src) : ∃ i ∈ ids.real, (fdArray i).fd = fd ∧
      (fdArray i).fd ≠ dispatchInvalidFd ∧ (dest = i ∨ dest = ids.all) := by
  rw [addressed] at h
  by_cases hall : dest = ids.all
  · rw [if_pos hall] at h
    obtain ⟨i,hi,rfl⟩ := List.mem_map.mp h
    obtain ⟨hi,hfd,-,-⟩ := mem_broadcastTo.mp hi
    exact ⟨i,hi,rfl,hfd,.inr hall⟩
  · rw [if_neg hall] at h
    by_cases hdest : (ids.mainConsole : ℤ) ≤ dest ∧ dest < ids.all ∧
        (fdArray dest.toNat).fd ≠ dispatchInvalidFd
    · rw [if_pos hdest,List.mem_singleton] at h
      exact ⟨dest.toNat,mem_real.mpr (by omega),h.symm,hdest.2.2,.inl (by omega)⟩
    · rw [if_neg hdest] at h
      cases h

/-- The `send` calls of one `dispatch_send`: interrupted ones, then the one that counts. -/
def Attempts (fd : ℤ) (msg : M) (calls : List (SendCall M)) (ret : Ret) : Prop :=
  ∃ n r, calls = List.replicate n ⟨fd,msg,.eintr⟩ ++ [⟨fd,msg,r⟩] ∧
    ret = if r = .sent then .ok else .fail

theorem sendLoop_spec (out : ℕ → SendResult) (fd : ℤ) (msg : M) (left : ℕ)
    (log : List (SendCall M)) : ∃ n, (sendLoop out fd msg left log).1 =
      log ++ (List.replicate n ⟨fd,msg,.eintr⟩ ++ [⟨fd,msg,(sendLoop out fd msg left log).2⟩]) := by
  induction left generalizing log with
  | zero => exact ⟨0,rfl⟩
  | succ left ih =>
    by_cases h : out log.length = .eintr
    · obtain ⟨n,hn⟩ := ih (log++[⟨fd,msg,.eintr⟩])
      rw [sendLoop,if_pos h]
      refine ⟨n+1,?_⟩
      rw [hn,List.append_assoc,List.replicate_succ,List.cons_append]
      rfl
    · rw [sendLoop,if_neg h]
      exact ⟨0,rfl⟩

theorem dispatchSend_spec (out : ℕ → SendResult) {fd : ℤ} (hfd : 0 ≤ fd) (msg : M)
    (log : List (SendCall M)) : ∃ calls, Attempts fd msg calls (dispatchSend out fd msg log).2 ∧
      (dispatchSend out fd msg log).1 = log++calls := by
  obtain ⟨n,hn⟩ := sendLoop_spec out fd msg 2 log
  rw [dispatchSend,if_neg (by omega)]
  exact ⟨_,⟨n,_,rfl,rfl⟩,hn⟩

def callsOn (fd : ℤ) (log : List (SendCall M)) : List (SendCall M) :=
  log.filter fun c => decide (c.fd = fd)

def copiesOn (fd : ℤ) (log : List (SendCall M)) : List M :=
  ((callsOn fd log).filter fun c => decide (c.result = .sent)).map SendCall.msg

def finallySent (fd : ℤ) (log : List (SendCall M)) : Prop :=
  ((callsOn fd log).getLast?).map SendCall.result = some .sent

instance (fd : ℤ) (log : List (SendCall M)) : Decidable (finallySent fd log) :=
  inferInstanceAs (Decidable (_ = _))

theorem Attempts.callsOn_self {fd : ℤ} {msg : M} {calls : List (SendCall M)} {ret : Ret}
    (h : Attempts fd msg calls ret) : callsOn fd calls = calls := by
  obtain ⟨n,r,rfl,-⟩ := h
  simp [callsOn]

theorem Attempts.callsOn_other {fd fd' : ℤ} {msg : M} {calls : List (SendCall M)} {ret : Ret}
    (h : Attempts fd msg calls ret) (hne : fd ≠ fd') : callsOn fd' calls = [] := by
  obtain ⟨n,r,rfl,-⟩ := h
  simp [callsOn,hne]

theorem transferLoop_callsOn (out : ℕ → SendResult) (msg : M) (fd : ℤ) (fds : List ℤ)
    (log : List (SendCall M)) (ret : Ret) (hpos : ∀ fd ∈ fds, 0 < fd) (hn : fds.Nodup) :
    (fd ∉ fds → callsOn fd (transferLoop out msg fds log ret).1 = callsOn fd log) ∧
    (fd ∈ fds → ∃ calls ret', Attempts fd msg calls ret' ∧
      callsOn fd (transferLoop out msg fds log ret).1 = callsOn fd log ++ calls) := by
  induction fds generalizing log ret with
  | nil => exact ⟨fun _ => rfl,fun h => by cases h⟩
  | cons fd' fds ih =>
    obtain ⟨hfd',hn⟩ := List.nodup_cons.mp hn
    obtain ⟨calls,hcalls,hlog⟩ := dispatchSend_spec out (Int.le_of_lt (hpos fd' List.mem_cons_self)) msg log
    obtain ⟨hout,hin⟩ := ih (dispatchSend out fd' msg log).1 (dispatchSend out fd' msg log).2
      (fun fd hfd => hpos fd (List.mem_cons_of_mem _ hfd)) hn
    rw [transferLoop]
    by_cases heq : fd' = fd
    · subst heq
      refine ⟨fun h => absurd List.mem_cons_self h,fun _ => ⟨calls,_,hcalls,?_⟩⟩
      rw [hout hfd',hlog,callsOn,List.filter_append]
      exact congrArg _ hcalls.callsOn_self
    · have hsame : callsOn fd (dispatchSend out fd' msg log).1 = callsOn fd log := by
        rw [hlog,callsOn,List.filter_append]
        exact (congrArg _ (hcalls.callsOn_other heq)).trans (List.append_nil _)
      rw [hsame] at hout hin
      refine ⟨fun h => hout fun h' => h (List.mem_cons_of_mem _ h'),fun h => hin ?_⟩
      exact (List.mem_cons.mp h).resolve_left (Ne.symm heq)

theorem Attempts.copies {fd : ℤ} {msg : M} {calls : List (SendCall M)} {ret : Ret}
    (h : Attempts fd msg calls ret) :
    (calls.filter fun c => decide (c.result = .sent)).map SendCall.msg =
      if (calls.getLast?).map SendCall.result = some .sent then [msg] else [] := by
  obtain ⟨n,r,rfl,-⟩ := h
  by_cases hr : r = .sent
  · simp [hr]
  · simp [hr]

theorem dispatchSend_copiesOn (out : ℕ → SendResult) (fd : ℤ) (msg : M) :
    copiesOn fd (dispatchSend out fd msg []).1 =
      if (dispatchSend out fd msg []).2 = .ok then [msg] else [] := by
  by_cases hfd : fd < 0
  · rw [dispatchSend,if_pos hfd]
    rfl
  · obtain ⟨calls,hcalls,hlog⟩ := dispatchSend_spec out (Int.not_lt.mp hfd) msg []
    rw [hlog,List.nil_append,copiesOn,hcalls.callsOn_self,hcalls.copies]
    obtain ⟨n,r,rfl,hret⟩ := hcalls
    rw [hret]
    by_cases hr : r = .sent
    · simp [hr]
    · simp [hr]

theorem addressed_positive {ids : ModuleIds} {fdArray : FdArray} (h : Registered ids fdArray)
    {dest src fd : ℤ} (hfd : fd ∈ addressed ids fdArray dest src) : 0 < fd := by
  obtain ⟨i,hi,rfl,hreg,-⟩ := addressed_registered hfd
  exact h.positive i hi hreg

/-- What is addressed gets the calls of one `dispatch_send` and nothing else gets any. -/
theorem transferMsg_callsOn {ids : ModuleIds} {fdArray : FdArray} (h : Registered ids fdArray)
    (out : ℕ → SendResult) (message : Message M) (fd : ℤ) :
    (fd ∉ addressed ids fdArray message.dest message.src →
      callsOn fd (dispatchTransferMsg ids fdArray out message []).1 = []) ∧
    (fd ∈ addressed ids fdArray message.dest message.src → ∃ ret, Attempts fd message.msg
      (callsOn fd (dispatchTransferMsg ids fdArray out message []).1) ret) := by
  rcases dispatchGetFd_spec ids fdArray message.dest message.src with
    ⟨hnone,haddr⟩ | ⟨info,hsome,haddr⟩
  · simp only [dispatchTransferMsg,hnone,haddr]
    exact ⟨fun _ => rfl,fun hfd => by cases hfd⟩
  · simp only [dispatchTransferMsg,hsome]
    obtain ⟨hout,hin⟩ := transferLoop_callsOn out message.msg fd info.list [] .ok
      (fun fd hfd => addressed_positive h (haddr ▸ hfd)) (haddr ▸ addressed_nodup h _ _)
    rw [haddr] at hout hin
    rw [haddr]
    refine ⟨hout,fun hfd => ?_⟩
    obtain ⟨calls,ret,hcalls,hlog⟩ := hin hfd
    rw [hlog]
    exact ⟨ret,hcalls⟩

theorem transferMsg_attempted_iff {ids : ModuleIds} {fdArray : FdArray}
    (h : Registered ids fdArray) (out : ℕ → SendResult) (message : Message M) (fd : ℤ) :
    callsOn fd (dispatchTransferMsg ids fdArray out message []).1 ≠ [] ↔
      fd ∈ addressed ids fdArray message.dest message.src := by
  obtain ⟨hout,hin⟩ := transferMsg_callsOn h out message fd
  constructor
  · intro hne
    by_contra hfd
    exact hne (hout hfd)
  · intro hfd hnil
    obtain ⟨ret,n,r,hcalls,-⟩ := hin hfd
    rw [hnil] at hcalls
    simp at hcalls

theorem transferMsg_copiesOn {ids : ModuleIds} {fdArray : FdArray}
    (h : Registered ids fdArray) (out : ℕ → SendResult) (message : Message M) (fd : ℤ) :
    copiesOn fd (dispatchTransferMsg ids fdArray out message []).1 =
      if finallySent fd (dispatchTransferMsg ids fdArray out message []).1 then [message.msg]
      else [] := by
  obtain ⟨hout,hin⟩ := transferMsg_callsOn h out message fd
  by_cases hfd : fd ∈ addressed ids fdArray message.dest message.src
  · obtain ⟨ret,hcalls⟩ := hin hfd
    exact hcalls.copies
  · simp [copiesOn,finallySent,hout hfd]

/-- A unicast goes to its destination alone, a broadcast to every receiving module but its
source, anything else to nobody; each descriptor that took the message took it once. -/
theorem transfer_routes_exactly (ids : ModuleIds) (fdArray : FdArray)
    (h : Registered ids fdArray) (message : Message M) (out : ℕ → SendResult) :
    (∀ i ∈ ids.real, message.dest = i → (fdArray i).fd ≠ dispatchInvalidFd →
      (fdArray i).mode = dispatchModeSendRecv → ∀ fd,
      (callsOn fd (dispatchTransferMsg ids fdArray out message []).1 ≠ [] ↔
        fd = (fdArray i).fd)) ∧
    (message.dest = ids.all → ∀ fd,
      (callsOn fd (dispatchTransferMsg ids fdArray out message []).1 ≠ [] ↔
        ∃ i ∈ ids.real, (fdArray i).fd ≠ dispatchInvalidFd ∧ (i : ℤ) ≠ message.src ∧
          (fdArray i).mode = dispatchModeSendRecv ∧ fd = (fdArray i).fd)) ∧
    (message.dest < ids.mainConsole ∨ message.dest > ids.all ∨
        (∃ i ∈ ids.real, message.dest = i ∧ (fdArray i).fd = dispatchInvalidFd) →
      ∀ fd, callsOn fd (dispatchTransferMsg ids fdArray out message []).1 = []) ∧
    ∀ fd, copiesOn fd (dispatchTransferMsg ids fdArray out message []).1 =
      if finallySent fd (dispatchTransferMsg ids fdArray out message []).1 then [message.msg]
      else [] := by
  refine ⟨?unicast,?broadcast,?nobody,transferMsg_copiesOn h out message⟩
  case unicast =>
    intro i hi hdest hfd _ fd
    obtain ⟨hlo,hhi⟩ := mem_real.mp hi
    rw [transferMsg_attempted_iff h,addressed,hdest,if_neg (by omega),Int.toNat_natCast,
      if_pos ⟨by omega,by omega,hfd⟩,List.mem_singleton]
  case broadcast =>
    intro hdest fd
    rw [transferMsg_attempted_iff h,addressed,if_pos hdest,List.mem_map]
    constructor
    · rintro ⟨i,hi,rfl⟩
      obtain ⟨hi,hfd,hsrc,hmode⟩ := mem_broadcastTo.mp hi
      exact ⟨i,hi,hfd,hsrc,hmode,rfl⟩
    · rintro ⟨i,hi,hfd,hsrc,hmode,rfl⟩
      exact ⟨i,mem_broadcastTo.mpr ⟨hi,hfd,hsrc,hmode⟩,rfl⟩
  case nobody =>
    intro hdest fd
    refine (transferMsg_callsOn h out message fd).1 fun hfd => ?_
    obtain ⟨i,hi,-,hreg,hto⟩ := addressed_registered hfd
    obtain ⟨hlo,hhi⟩ := mem_real.mp hi
    rcases hdest with hlow | hhigh | ⟨k,hkreal,hk,hinvalid⟩
    · omega
    · omega
    · have hkall := (mem_real.mp hkreal).2
      obtain rfl : i = k := by omega
      exact hreg hinvalid

def threeIds : ModuleIds := ⟨1,4,by decide⟩

def threeRows : FdArray
  | 1 => ⟨5,dispatchModeSendRecv⟩
  | 2 => ⟨7,dispatchModeSendRecv⟩
  | 3 => ⟨9,dispatchModeSendOnly⟩
  | _ => ⟨dispatchInvalidFd,dispatchModeSendRecv⟩

theorem threeRows_registered : Registered threeIds threeRows := ⟨by decide,by decide⟩

/-- A broadcast of module 1: module 2 gets it once, module 3 only sends. -/
theorem transfer_routes_exactly_broadcast :
    copiesOn 7 (dispatchTransferMsg threeIds threeRows (fun _ => .sent) ⟨1,4,"on"⟩ []).1 = ["on"] ∧
    ∀ fd, fd = 5 ∨ fd = 9 →
      callsOn fd (dispatchTransferMsg threeIds threeRows (fun _ => .sent) ⟨1,4,"on"⟩ []).1 = [] := by
  obtain ⟨-,hbroadcast,-,hcopies⟩ := transfer_routes_exactly threeIds threeRows threeRows_registered
    ⟨1,4,"on"⟩ fun _ => .sent
  refine ⟨(hcopies 7).trans (by decide),fun fd hfd => ?_⟩
  by_contra hcalls
  obtain ⟨i,hi,-,hsrc,hmode,hto⟩ := (hbroadcast rfl fd).mp hcalls
  obtain ⟨hlo,hhi⟩ := mem_real.mp hi
  have hreal : i = 1 ∨ i = 2 ∨ i = 3 := by
    change 1 ≤ i at hlo
    change i < 4 at hhi
    omega
  rcases hreal with rfl | rfl | rfl
  · exact hsrc rfl
  · rcases hfd with rfl | rfl <;> exact absurd hto (by decide)
  · exact absurd hmode (by decide)

end DispatchTransfer
end IotBase
