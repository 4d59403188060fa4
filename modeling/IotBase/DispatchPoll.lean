import IotBase.DispatchDelivery

/-! The receiving side. A module takes its messages with `dispatch_recv_msg`, which reports a timeout,
a failing system call and a message `DP_GATEWAY_INVAILD` alike; its other results are the messages that
the others have sent. -/
namespace IotBase
namespace DispatchPoll
open DispatchTransfer DispatchFifo DispatchDelivery LabelledRun

def dpGatewayInvaild : ℤ := -1

inductive Selected
  | readable | timeout | error

/-- `dispatch_recv_msg` on a queue: the result and what stays in the queue. A `recv` that fails, or
finds nothing, takes nothing. -/
def dispatchRecvMsg (sel : Selected) (recvFails : Bool) (queue : List (ℕ × ℤ)) :
    ℤ × List (ℕ × ℤ) :=
  match sel with
  | .readable =>
    if recvFails then (dpGatewayInvaild,queue)
    else
      match queue with
      | [] => (dpGatewayInvaild,[])
      | c::queue => (c.2,queue)
  | .timeout => (dpGatewayInvaild,queue)
  | .error => (dpGatewayInvaild,queue)

/-- The dispatcher and its modules, with the results of each module's calls of `dispatch_recv_msg`. -/
structure Polling where
  system : System ℤ
  results : ℕ → List ℤ

def Polling.init : Polling := ⟨System.init,fun _ => []⟩

inductive PollLabel
  | system (l : Label ℤ)
  | poll (r : ℕ) (sel : Selected) (recvFails : Bool)

def Label.receives : Label ℤ → Bool
  | .recv _ => true
  | _ => false

section Steps
variable (ids : ModuleIds) (fdArray : FdArray) (localFd : ℕ → ℤ)

/-- Module `r` calls `dispatch_recv_msg`; what leaves the queue has been received. -/
def Polling.poll (t : Polling) (r : ℕ) (sel : Selected) (recvFails : Bool) : Polling :=
  let queue := t.system.toModule (fdArray r).fd
  let result := dispatchRecvMsg sel recvFails queue
  ⟨⟨t.system.toDispatcher,Function.update t.system.toModule (fdArray r).fd result.2,t.system.pc,
      t.system.sent,Function.update t.system.received r
        (t.system.received r ++ queue.take (queue.length-result.2.length))⟩,
    Function.update t.results r (t.results r ++ [result.1])⟩

def Polling.step (t : Polling) : PollLabel → Option Polling
  | .system l =>
    -- modules receive by polling
    if Label.receives l then none
    else (t.system.step ids fdArray localFd l).map fun s => ⟨s,t.results⟩
  | .poll r sel recvFails =>
    if HasChannel ids fdArray r then some (t.poll fdArray r sel recvFails) else none

def Taken (t : Polling) : PollLabel → Prop
  | .system l => Accepted t.system l
  | .poll _ _ _ => True

end Steps

def messages (l : List ℤ) : List ℤ := l.filter fun m => decide (m ≠ dpGatewayInvaild)

section Polls
variable {ids : ModuleIds} {fdArray : FdArray} {localFd : ℕ → ℤ} {s t : Polling}

theorem recvMsg_cases (sel : Selected) (recvFails : Bool) (queue : List (ℕ × ℤ)) :
    dispatchRecvMsg sel recvFails queue = (dpGatewayInvaild,queue) ∨
      ∃ c rest, queue = c::rest ∧ dispatchRecvMsg sel recvFails queue = (c.2,rest) := by
  cases sel with
  | readable =>
    cases recvFails with
    | true => exact Or.inl rfl
    | false =>
      cases queue with
      | nil => exact Or.inl rfl
      | cons c rest => exact Or.inr ⟨c,rest,rfl,rfl⟩
  | timeout => exact Or.inl rfl
  | error => exact Or.inl rfl

theorem poll_cases (t : Polling) (r : ℕ) (sel : Selected) (recvFails : Bool) :
    t.poll fdArray r sel recvFails =
        ⟨t.system,Function.update t.results r (t.results r ++ [dpGatewayInvaild])⟩ ∨
      ∃ c rest, t.system.toModule (fdArray r).fd = c::rest ∧ t.poll fdArray r sel recvFails =
        ⟨⟨t.system.toDispatcher,Function.update t.system.toModule (fdArray r).fd rest,t.system.pc,
            t.system.sent,Function.update t.system.received r (t.system.received r ++ [c])⟩,
          Function.update t.results r (t.results r ++ [c.2])⟩ := by
  rcases recvMsg_cases sel recvFails (t.system.toModule (fdArray r).fd) with hnone | ⟨c,rest,hq,hcall⟩
  · left
    simp only [Polling.poll,hnone,Nat.sub_self,List.take_zero,List.append_nil,Function.update_eq_self]
  · right
    refine ⟨c,rest,hq,?_⟩
    have htake : (c::rest).take ((c::rest).length-rest.length) = [c] := by
      rw [List.length_cons,Nat.add_sub_cancel_left]
      rfl
    rw [hq] at hcall
    simp only [Polling.poll,hq,hcall,htake]

/-- Nothing is lost, and what the module has got are the results of its calls. -/
structure Inv (ids : ModuleIds) (fdArray : FdArray) (t : Polling) : Prop where
  system : DispatchFifo.Inv ids fdArray t.system
  lossless : Lossless ids fdArray t.system
  results : ∀ r, messages (t.results r) = messages ((t.system.received r).map Prod.snd)

theorem init_inv : Inv ids fdArray Polling.init where
  system := DispatchFifo.init_inv
  lossless _ _ _ := rfl
  results _ := rfl

theorem messages_append (l m : List ℤ) : messages (l++m) = messages l ++ messages m :=
  List.filter_append _ _

theorem received_of_step {l : Label ℤ} {u v : System ℤ} (hl : Label.receives l = false)
    (hu : u.step ids fdArray localFd l = some v) : v.received = u.received := by
  cases l with
  | sendMsg k dest msg out =>
    obtain ⟨-,hu⟩ := Option.ite_none_right_eq_some.mp hu
    cases hu
    rfl
  | sendMultimsg k msg out =>
    obtain ⟨-,hu⟩ := Option.ite_none_right_eq_some.mp hu
    cases hu
    rfl
  | select ready =>
    rcases select_cases hu with rfl | ⟨-,rfl⟩
    · rfl
    · rfl
  | row =>
    rcases row_cases hu with ⟨_,_,rfl⟩ | ⟨_,_,_,_,rfl⟩ | ⟨_,_,_,_,_,_,_,_,_,_,rfl⟩
    · rfl
    · rfl
    · rfl
  | forward out =>
    rcases forward_cases hu with ⟨_,_,_,_,_,rfl⟩ | ⟨_,_,_,_,_,_,_,rfl⟩
    · rfl
    · rfl
  | recv k => cases hl

theorem poll_inv (hreg : Registered ids fdArray) (h : Inv ids fdArray s) {r : ℕ}
    (hr : HasChannel ids fdArray r) (localFd : ℕ → ℤ) (sel : Selected) (recvFails : Bool) :
    Inv ids fdArray (s.poll fdArray r sel recvFails) := by
  rcases poll_cases s r sel recvFails with hnone | ⟨c,rest,hq,hcall⟩
  · rw [hnone]
    refine ⟨h.system,h.lossless,fun k => ?_⟩
    dsimp only
    by_cases hk : k = r
    · subst hk
      rw [Function.update_self,messages_append,h.results k]
      exact List.append_nil _
    · rw [Function.update_of_ne hk]
      exact h.results k
  · have hstep : s.system.step ids fdArray localFd (.recv r) = some
        ⟨s.system.toDispatcher,Function.update s.system.toModule (fdArray r).fd rest,s.system.pc,
          s.system.sent,Function.update s.system.received r (s.system.received r ++ [c])⟩ := by
      simp only [System.step,if_pos hr,hq]
    rw [hcall]
    refine ⟨DispatchFifo.step_inv hreg h.system _ hstep,recv_lossless hreg h.lossless hr hq,fun k => ?_⟩
    dsimp only
    by_cases hk : k = r
    · subst hk
      rw [Function.update_self,Function.update_self,messages_append,List.map_append,messages_append,
        h.results k]
      rfl
    · rw [Function.update_of_ne hk,Function.update_of_ne hk]
      exact h.results k

theorem step_inv (hreg : Registered ids fdArray) (h : Inv ids fdArray s) {l : PollLabel} (hl : Taken s l)
    (ht : s.step ids fdArray localFd l = some t) : Inv ids fdArray t := by
  cases l with
  | system l =>
    simp only [Polling.step] at ht
    cases hreceives : Label.receives l with
    | true => simp [hreceives] at ht
    | false =>
      rw [hreceives,if_neg Bool.false_ne_true] at ht
      obtain ⟨u,hu,rfl⟩ := Option.map_eq_some_iff.mp ht
      refine ⟨DispatchFifo.step_inv hreg h.system l hu,step_lossless hreg h.system h.lossless hl hu,
        fun r => ?_⟩
      rw [received_of_step hreceives hu]
      exact h.results r
  | poll r sel recvFails =>
    obtain ⟨hr,ht⟩ := Option.ite_none_right_eq_some.mp ht
    cases ht
    exact poll_inv hreg h hr localFd sel recvFails

end Polls

/-- Whatever the interleaving and whatever `select` and `recv` answer: if the channels take every
forward, the messages that the calls of `dispatch_recv_msg` of a module have returned are, for each
sender, what the sender has sent to the module, in order and once, except for what is still on its way
and for messages that are `DP_GATEWAY_INVAILD` themselves. -/
theorem polls_deliver {ids : ModuleIds} {fdArray : FdArray} {localFd : ℕ → ℤ} {s : Polling}
    (hreg : Registered ids fdArray) (ls : List PollLabel)
    (hls : Meets (Polling.step ids fdArray localFd) Taken Polling.init ls)
    (hs : exec (Polling.step ids fdArray localFd) Polling.init ls = some s) (r : ℕ)
    (hr : HasChannel ids fdArray r) :
    ∃ got : List (ℕ × ℤ), messages (s.results r) = messages (got.map Prod.snd) ∧
      ∀ a, fromOrigin a got ++ (fromOrigin a (s.system.toModule (fdArray r).fd) ++
        onTheWay ids fdArray s.system a r) = meantFor ids fdArray r (s.system.sent a) := by
  obtain h := exec_invariant (fun _ _ _ h hl ht => step_inv hreg h hl ht) ls init_inv hls hs
  refine ⟨s.system.received r,h.results r,fun a => ?_⟩
  rw [← List.append_assoc]
  exact h.lossless a r hr

theorem polls_deliver_one : ∃ s : Polling,
    exec (Polling.step threeIds threeRows fun _ => 11) Polling.init
      [.system (.sendMsg 1 2 1 fun _ => .sent),.poll 2 .timeout false,.system (.select fun _ => true),
        .system .row,.system (.forward fun _ => .sent),.poll 2 .readable false] = some s ∧
    s.results 2 = [dpGatewayInvaild,1] ∧
    ∃ got : List (ℕ × ℤ), messages (s.results 2) = messages (got.map Prod.snd) ∧
      ∀ a, fromOrigin a got ++ (fromOrigin a (s.system.toModule (threeRows 2).fd) ++
        onTheWay threeIds threeRows s.system a 2) = meantFor threeIds threeRows 2 (s.system.sent a) := by
  obtain ⟨s,hs,hresults⟩ : ∃ s : Polling, exec (Polling.step threeIds threeRows fun _ => 11) Polling.init
      [.system (.sendMsg 1 2 1 fun _ => .sent),.poll 2 .timeout false,.system (.select fun _ => true),
        .system .row,.system (.forward fun _ => .sent),.poll 2 .readable false] = some s ∧
      s.results 2 = [dpGatewayInvaild,1] := ⟨_,rfl,rfl⟩
  refine ⟨s,hs,hresults,polls_deliver threeRows_registered _ ?_ hs 2 ⟨by decide,by decide⟩⟩
  refine meets_cons trivial rfl (meets_cons trivial rfl (meets_cons trivial rfl ?_))
  exact meets_cons trivial rfl (meets_cons rfl rfl (meets_cons trivial rfl trivial))

end DispatchPoll
end IotBase
