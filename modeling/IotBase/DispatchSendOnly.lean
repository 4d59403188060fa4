import IotBase.DispatchFifo

/-! Modules that only send. Broadcasts pass them by, but the unicast branch of
`dispatch_get_fd` does not look at the mode, so a message addressed to such a module is
sent into a channel that nobody reads. -/
namespace IotBase
namespace DispatchSendOnly
open DispatchTransfer DispatchFifo LabelledRun

variable {M : Type*}

/-- A step of the system, or a broadcast that gives any module id as its own. -/
inductive Step (M : Type*)
  | label (l : Label M)
  | sendMultimsg (s : ℕ) (localId : ℤ) (msg : M) (out : ℕ → SendResult)

section

variable (ids : ModuleIds) (fdArray : FdArray) (localFd : ℕ → ℤ)

def step (t : System M) : Step M → Option (System M)
  | .label l => t.step ids fdArray localFd l
  | .sendMultimsg s localId msg out =>
    if HasChannel ids fdArray s then
      some (t.push fdArray s
        (copiesOn (localFd s) (dispatchSendMultimsg ids (localFd s) localId msg out).1))
    else none

def SendOnly (i : ℕ) : Prop := HasChannel ids fdArray i ∧ (fdArray i).mode = dispatchModeSendOnly

/-- The message that the dispatcher takes next is not addressed to a module that only sends. -/
def TakesNone (t : System M) : Step M → Prop
  | .label .row => ∀ i rows ready origin m queue, t.pc = .scan (i::rows) ready →
      (fdArray i).fd ≠ dispatchInvalidFd → ready (fdArray i).fd = true →
      t.toDispatcher (fdArray i).fd = (origin,m)::queue →
      ∀ k, SendOnly ids fdArray k → m.dest ≠ k
  | _ => True

end

/-- The dispatcher is in its sending loop with the descriptor still to come. -/
def SendsTo (fd : ℤ) : Pc M → Prop
  | .forward fds _ _ _ _ => fd ∈ fds
  | _ => False

/-- Nothing has been enqueued for module `i` and nothing is being sent to it. -/
structure Spared (fdArray : FdArray) (t : System M) (i : ℕ) : Prop where
  queue : t.toModule (fdArray i).fd = []
  received : t.received i = []
  idle : ¬ SendsTo (fdArray i).fd t.pc

variable {ids : ModuleIds} {fdArray : FdArray} {localFd : ℕ → ℤ} {s t : System M} {i : ℕ}

/-- A module that only sends is addressed by its own id alone. -/
theorem mem_addressed_iff (hreg : Registered ids fdArray) (hi : SendOnly ids fdArray i)
    (dest src : ℤ) : (fdArray i).fd ∈ addressed ids fdArray dest src ↔ dest = i := by
  obtain ⟨⟨hreal,hfd⟩,hmode⟩ := hi
  have hbounds := mem_real.mp hreal
  constructor
  · intro h
    by_cases hall : dest = ids.all
    · rw [addressed,if_pos hall] at h
      obtain ⟨k,hk,hkfd⟩ := List.mem_map.mp h
      obtain ⟨hkreal,hkne,-,hkmode⟩ := mem_broadcastTo.mp hk
      obtain rfl := hreg.distinct k hkreal i hreal hkne hkfd
      rw [hmode] at hkmode
      cases hkmode
    · obtain ⟨k,hk,hkfd,hkne,hdest⟩ := addressed_registered h
      obtain rfl := hreg.distinct k hk i hreal hkne hkfd
      exact hdest.resolve_right hall
  · rintro rfl
    rw [addressed,if_neg (by omega),Int.toNat_natCast,if_pos ⟨by omega,by omega,hfd⟩]
    exact List.mem_singleton_self _

theorem init_spared : Spared fdArray (System.init : System M) i := ⟨rfl,rfl,id⟩

theorem Spared.pc (h : Spared fdArray s i) (hq : t.toModule = s.toModule)
    (hr : t.received = s.received) (hpc : ¬ SendsTo (fdArray i).fd t.pc) : Spared fdArray t i where
  queue := by
    rw [hq]
    exact h.queue
  received := by
    rw [hr]
    exact h.received
  idle := hpc

theorem Spared.forward (h : Spared fdArray s i) {fd : ℤ} {fds : List ℤ} {origin : ℕ} {msg : M}
    {rows : List ℕ} {ready : ℤ → Bool} (hpc : s.pc = .forward (fd::fds) origin msg rows ready)
    (copies : List (ℕ × M)) : Spared fdArray ⟨s.toDispatcher,
      Function.update s.toModule fd copies,.forward fds origin msg rows ready,s.sent,s.received⟩ i := by
  have hidle := h.idle
  rw [hpc] at hidle
  have hne : (fdArray i).fd ≠ fd := fun he => hidle (by rw [he]; exact List.mem_cons_self)
  exact ⟨(Function.update_of_ne hne _ _).trans h.queue,h.received,
    fun hmem => hidle (List.mem_cons_of_mem _ hmem)⟩

theorem Spared.recv (h : Spared fdArray s i) {k : ℕ} {c : ℕ × M} {queue : List (ℕ × M)}
    (hq : s.toModule (fdArray k).fd = c::queue) : Spared fdArray ⟨s.toDispatcher,
      Function.update s.toModule (fdArray k).fd queue,s.pc,s.sent,
      Function.update s.received k (s.received k ++ [c])⟩ i := by
  have hfd : (fdArray i).fd ≠ (fdArray k).fd := by
    intro he
    rw [← he,h.queue] at hq
    cases hq
  have hk : i ≠ k := by
    rintro rfl
    exact hfd rfl
  exact ⟨(Function.update_of_ne hfd _ _).trans h.queue,(Function.update_of_ne hk _ _).trans h.received,
    h.idle⟩

theorem row_spared (hreg : Registered ids fdArray) (hi : SendOnly ids fdArray i)
    (h : Spared fdArray s i) (hC : TakesNone ids fdArray s (.label .row))
    (ht : s.step ids fdArray localFd .row = some t) : Spared fdArray t i := by
  rcases row_cases ht with ⟨ready,hpc,rfl⟩ | ⟨k,rows,ready,hpc,rfl⟩ |
    ⟨k,rows,ready,origin,m,queue,hpc,hfd,hready,hq,rfl⟩
  · exact h.pc rfl rfl id
  · exact h.pc rfl rfl id
  · refine h.pc rfl rfl fun hmem => ?_
    have hdest := hC k rows ready origin m queue hpc hfd hready hq i hi
    have hmem : (fdArray i).fd ∈ collected ids fdArray m := hmem
    rw [collected_eq] at hmem
    exact hdest ((mem_addressed_iff hreg hi _ _).mp hmem)

theorem label_spared (hreg : Registered ids fdArray) (hi : SendOnly ids fdArray i)
    (h : Spared fdArray s i) {l : Label M} (hC : TakesNone ids fdArray s (.label l))
    (ht : s.step ids fdArray localFd l = some t) : Spared fdArray t i := by
  cases l with
  | sendMsg k dest msg out =>
    obtain ⟨-,ht⟩ := Option.ite_none_right_eq_some.mp ht
    cases ht
    exact h.pc rfl rfl h.idle
  | sendMultimsg k msg out =>
    obtain ⟨-,ht⟩ := Option.ite_none_right_eq_some.mp ht
    cases ht
    exact h.pc rfl rfl h.idle
  | select ready =>
    rcases select_cases ht with rfl | ⟨-,rfl⟩
    · exact h
    · exact h.pc rfl rfl id
  | row => exact row_spared hreg hi h hC ht
  | forward out =>
    rcases forward_cases ht with ⟨_,_,_,_,-,rfl⟩ | ⟨fd,fds,origin,msg,rows,ready,hpc,rfl⟩
    · exact h.pc rfl rfl id
    · exact h.forward hpc _
  | recv k =>
    rcases recv_cases ht with rfl | ⟨-,c,queue,hq,rfl⟩
    · exact h
    · exact h.recv hq

theorem step_spared (hreg : Registered ids fdArray) (hi : SendOnly ids fdArray i)
    (h : Spared fdArray s i) {a : Step M} (hC : TakesNone ids fdArray s a)
    (ht : step ids fdArray localFd s a = some t) : Spared fdArray t i := by
  cases a with
  | label l => exact label_spared hreg hi h hC ht
  | sendMultimsg k localId msg out =>
    obtain ⟨-,ht⟩ := Option.ite_none_right_eq_some.mp ht
    cases ht
    exact h.pc rfl rfl h.idle

theorem takesNone_of_spared (hreg : Registered ids fdArray) {a : Step M}
    (ht : step ids fdArray localFd s a = some t)
    (h : ∀ k, SendOnly ids fdArray k → Spared fdArray t k) : TakesNone ids fdArray s a := by
  cases a with
  | sendMultimsg k localId msg out => trivial
  | label l =>
    cases l with
    | row =>
      intro i rows ready origin m queue hpc hfd hready hq k hk hdest
      have hbusy : ¬ ((fdArray i).fd = dispatchInvalidFd ∨ ready (fdArray i).fd = false) := by
        rw [hready]
        simp [hfd]
      simp only [step,System.step,hpc,if_neg hbusy,hq] at ht
      cases ht
      refine (h k hk).idle ?_
      show (fdArray k).fd ∈ collected ids fdArray m
      rw [collected_eq]
      exact (mem_addressed_iff hreg hk _ _).mpr hdest
    | sendMsg _ _ _ _ => trivial
    | sendMultimsg _ _ _ => trivial
    | select _ => trivial
    | forward _ => trivial
    | recv _ => trivial

/-- Along a run the modules that only send are spared in every state exactly when the
dispatcher takes no message addressed to one of them. -/
theorem send_only_spared_iff (hreg : Registered ids fdArray) (ls : List (Step M)) (s : System M)
    (hs : exec (step ids fdArray localFd) System.init ls = some s) :
    Meets (step ids fdArray localFd) (TakesNone ids fdArray) System.init ls ↔
      ∀ pre t, pre <+: ls → exec (step ids fdArray localFd) System.init pre = some t →
        ∀ i, SendOnly ids fdArray i → t.toModule (fdArray i).fd = [] ∧ t.received i = [] ∧
          ¬ SendsTo (fdArray i).fd t.pc := by
  have hiff : ∀ t : System M, (∀ i, SendOnly ids fdArray i → Spared fdArray t i) ↔
      ∀ i, SendOnly ids fdArray i → t.toModule (fdArray i).fd = [] ∧ t.received i = [] ∧
        ¬ SendsTo (fdArray i).fd t.pc := fun t =>
    forall₂_congr fun i _ => ⟨fun h => ⟨h.queue,h.received,h.idle⟩,fun h => ⟨h.1,h.2.1,h.2.2⟩⟩
  simp only [← hiff]
  exact meets_iff_forall_reached (I:=fun t => ∀ i, SendOnly ids fdArray i → Spared fdArray t i)
    (fun _ _ _ h hC ht i hi => step_spared hreg hi (h i hi) hC ht) (fun _ h => h)
    (fun _ _ _ _ ht h => takesNone_of_spared hreg ht h) (fun _ _ => init_spared) hs

/-- Module 1 sends to module 3, which only sends: the message is in module 3's queue. -/
theorem send_only_enqueued : ∃ s : System String,
    exec (step threeIds threeRows fun _ => 11) System.init
      [.label (.sendMsg 1 3 "on" fun _ => .sent),.label (.select fun _ => true),.label .row,
        .label (.forward fun _ => .sent)] = some s ∧
    SendOnly threeIds threeRows 3 ∧ s.toModule (threeRows 3).fd = [(1,"on")] :=
  ⟨_,rfl,⟨by decide,rfl⟩,rfl⟩

/-- A broadcast of module 1 that the dispatcher forwards and module 2 receives. -/
def broadcastRun : List (Step String) :=
  [.sendMultimsg 1 1 "on" fun _ => .sent,.label (.select fun _ => true),.label .row,
    .label (.forward fun _ => .sent),.label (.forward fun _ => .sent),.label (.recv 2)]

theorem broadcastRun_takesNone : Meets (step threeIds threeRows fun _ => 11)
    (TakesNone threeIds threeRows) (System.init : System String) broadcastRun := by
  refine meets_cons trivial rfl (meets_cons trivial rfl (meets_cons ?_ rfl ?_))
  · intro i rows ready origin m queue hpc _ _ hq k hk hdest
    cases hpc
    have hq : [(1,(⟨1,4,"on"⟩ : Message String))] = (origin,m)::queue := hq
    cases hq
    have hk : k < 4 := (mem_real.mp hk.1.1).2
    have hdest : (4 : ℤ) = k := hdest
    omega
  · exact meets_cons trivial rfl (meets_cons trivial rfl (meets_cons trivial rfl trivial))

theorem send_only_spared_broadcast : ∃ s : System String,
    exec (step threeIds threeRows fun _ => 11) System.init broadcastRun = some s ∧
    s.received 2 = [(1,"on")] ∧
    ∀ i, SendOnly threeIds threeRows i → s.toModule (threeRows i).fd = [] ∧ s.received i = [] ∧
      ¬ SendsTo (threeRows i).fd s.pc := by
  obtain ⟨s,hs,hreceived⟩ : ∃ s : System String,
    exec (step threeIds threeRows fun _ => 11) System.init broadcastRun = some s ∧
    s.received 2 = [(1,"on")] := ⟨_,rfl,rfl⟩
  exact ⟨s,hs,hreceived,(send_only_spared_iff threeRows_registered broadcastRun s hs).mp
    broadcastRun_takesNone broadcastRun s (List.prefix_refl _) hs⟩

end DispatchSendOnly
end IotBase
