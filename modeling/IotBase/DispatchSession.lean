import IotBase.DispatchRegistry
import IotBase.KeyedHistory

/-! Registration and deletion one after the other, with the descriptors the kernel hands out.
The registry tracks what is registered exactly as long as no channel gets descriptor 0, which
`fd_array` uses to mark a row as not registered and `dispatch_del_channel` does not close. -/
namespace IotBase
namespace DispatchSession
open DispatchTransfer DispatchRegistry KeyedHistory LabelledRun

def retFail : ℤ := -1

/-- `fd_array` and the open ends; `made` numbers the pairs. -/
structure Registry where
  fdArray : FdArray
  kernel : ℤ → Option End
  made : ℕ

def Registry.init : Registry := ⟨fun _ => ⟨dispatchInvalidFd,dispatchModeSendRecv⟩,fun _ => none,0⟩

def Registry.setRow (r : Registry) (i : ℕ) (row : Row) : Registry :=
  {r with fdArray := Function.update r.fdArray i row}

def Registry.close (r : Registry) (fd : ℤ) : Registry :=
  {r with kernel := Function.update r.kernel fd none}

def Registry.socketpair (r : Registry) (moduleId : ℕ) (mode fd0 fd1 : ℤ) : Registry :=
  {r with
    kernel := Function.update (Function.update r.kernel fd0 (some ⟨⟨r.made,moduleId,mode⟩,true⟩))
      fd1 (some ⟨⟨r.made,moduleId,mode⟩,false⟩)
    made := r.made+1}

/-- `dispatch_register_channel`; `pair` is what `socketpair` answers. -/
def dispatchRegisterChannel (ids : ModuleIds) (r : Registry) (moduleId mode : ℤ)
    (pair : Option (ℤ × ℤ)) : Registry × ℤ :=
  if moduleId ≥ ids.all ∨ moduleId < ids.mainConsole then (r,retFail)
  else if (r.fdArray moduleId.toNat).fd ≠ dispatchInvalidFd then (r,retFail)
  else
    match pair with
    | none => (r,retFail)
    | some (fd0,fd1) =>
      ((r.socketpair moduleId.toNat mode fd0 fd1).setRow moduleId.toNat ⟨fd0,mode⟩,fd1)

def dispatchDelChannel (ids : ModuleIds) (r : Registry) (moduleId fd : ℤ) : Registry :=
  if moduleId ≥ ids.all ∨ moduleId < ids.mainConsole then r
  else
    let dispatchFd := (r.fdArray moduleId.toNat).fd
    let r := if dispatchFd ≠ dispatchInvalidFd then
      (r.close dispatchFd).setRow moduleId.toNat ⟨dispatchInvalidFd,dispatchModeSendRecv⟩ else r
    if fd > 0 then r.close fd else r

structure Registration where
  mode : ℤ
  fd0 : ℤ
  fd1 : ℤ

/-- The registry and the history of returned registrations and deletions. -/
structure Session where
  registry : Registry
  history : List (Event ℕ Registration)

def Session.init : Session := ⟨Registry.init,[]⟩

inductive Op
  | register (moduleId mode : ℤ) (pair : Option (ℤ × ℤ))
  | del (moduleId fd : ℤ)

def Registry.Free (r : Registry) (pair : ℤ × ℤ) : Prop :=
  0 ≤ pair.1 ∧ 0 ≤ pair.2 ∧ pair.1 ≠ pair.2 ∧ r.kernel pair.1 = none ∧ r.kernel pair.2 = none

instance (r : Registry) (pair : ℤ × ℤ) : Decidable (r.Free pair) :=
  inferInstanceAs (Decidable (_ ∧ _))

def Reaches (ids : ModuleIds) (r : Registry) (moduleId : ℤ) : Prop :=
  ids.mainConsole ≤ moduleId ∧ moduleId < ids.all ∧
    (r.fdArray moduleId.toNat).fd = dispatchInvalidFd

instance (ids : ModuleIds) (r : Registry) (moduleId : ℤ) : Decidable (Reaches ids r moduleId) :=
  inferInstanceAs (Decidable (_ ∧ _))

/-- A deletion is given what the registration in force returned, or with none in force a
number that is not open. -/
def Session.Passed (s : Session) (moduleId fd : ℤ) : Prop :=
  match read s.history moduleId.toNat with
  | some p => fd = p.fd1
  | none => s.registry.kernel fd = none

instance (s : Session) (moduleId fd : ℤ) : Decidable (s.Passed moduleId fd) :=
  match h : read s.history moduleId.toNat with
  | some p => decidable_of_iff (fd = p.fd1) (by rw [Session.Passed,h])
  | none => decidable_of_iff (s.registry.kernel fd = none) (by rw [Session.Passed,h])

def Session.step (ids : ModuleIds) (s : Session) : Op → Option Session
  | .register moduleId mode none =>
    some ⟨(dispatchRegisterChannel ids s.registry moduleId mode none).1,s.history⟩
  | .register moduleId mode (some pair) =>
    if s.registry.Free pair then
      let r := dispatchRegisterChannel ids s.registry moduleId mode (some pair)
      some ⟨r.1,if r.2 = retFail then s.history
        else s.history++[.put moduleId.toNat ⟨mode,pair.1,r.2⟩]⟩
    else none
  | .del moduleId fd =>
    if s.Passed moduleId fd then
      some ⟨dispatchDelChannel ids s.registry moduleId fd,s.history++[.erase moduleId.toNat]⟩
    else none

def Positive (ids : ModuleIds) (s : Session) : Op → Prop
  | .register moduleId _ (some pair) =>
    Reaches ids s.registry moduleId → pair.1 ≠ 0 ∧ pair.2 ≠ 0
  | _ => True

instance (ids : ModuleIds) (s : Session) : ∀ op, Decidable (Positive ids s op)
  | .register moduleId _ (some pair) =>
    inferInstanceAs (Decidable (Reaches ids s.registry moduleId → pair.1 ≠ 0 ∧ pair.2 ≠ 0))
  | .register _ _ none => .isTrue trivial
  | .del _ _ => .isTrue trivial

/-- The registry says what is registered: every id in force is addressed by its own descriptor
in its mode, refuses another registration and can be closed for good; no other id is. -/
structure Tracks (ids : ModuleIds) (s : Session) : Prop where
  addressed : ∀ i p, read s.history i = some p → ∀ src, ∃ info,
    dispatchGetFd ids s.registry.fdArray i src = some info ∧ info.list = [p.fd0]
  mode : ∀ i p, read s.history i = some p → (s.registry.fdArray i).mode = p.mode
  refused : ∀ (i : ℕ) p, read s.history i = some p → ∀ mode pair,
    dispatchRegisterChannel ids s.registry i mode pair = (s.registry,retFail)
  own : ∀ i p, read s.history i = some p → ∀ k ∈ ids.real, k ≠ i → (s.registry.fdArray k).fd ≠ p.fd0
  unaddressed : ∀ dest : ℤ, read s.history dest.toNat = none → dest ≠ ids.all → ∀ src,
    dispatchGetFd ids s.registry.fdArray dest src = none
  closed : ∀ (i : ℕ) p, read s.history i = some p →
    (dispatchDelChannel ids s.registry i p.fd1).kernel p.fd0 = none ∧
    (dispatchDelChannel ids s.registry i p.fd1).kernel p.fd1 = none

/-- What is in force is in its row under numbers that are not 0, and its ends are open. -/
structure Inv (ids : ModuleIds) (s : Session) : Prop where
  rows : ∀ i p, read s.history i = some p →
    i ∈ ids.real ∧ s.registry.fdArray i = ⟨p.fd0,p.mode⟩ ∧ 0 < p.fd0 ∧ 0 < p.fd1
  opened : ∀ i p, read s.history i = some p → ∃ c : Channel, c.moduleId = i ∧
    s.registry.kernel p.fd0 = some ⟨c,true⟩ ∧ s.registry.kernel p.fd1 = some ⟨c,false⟩
  free : ∀ i, read s.history i = none → (s.registry.fdArray i).fd = dispatchInvalidFd

section Invariant

variable {ids : ModuleIds} {s t : Session}

theorem init_inv : Inv ids Session.init where
  rows := fun i p h => by simp [Session.init] at h
  opened := fun i p h => by simp [Session.init] at h
  free := fun _ _ => rfl

theorem Inv.fd_ne (h : Inv ids s) {i k : ℕ} {p q : Registration} (hp : read s.history i = some p)
    (hq : read s.history k = some q) (hk : k ≠ i) :
    q.fd0 ≠ p.fd0 ∧ q.fd0 ≠ p.fd1 ∧ q.fd1 ≠ p.fd0 ∧ q.fd1 ≠ p.fd1 := by
  obtain ⟨c,hc,hc0,hc1⟩ := h.opened i p hp
  obtain ⟨d,hd,hd0,hd1⟩ := h.opened k q hq
  have hne : c ≠ d := by
    rintro rfl
    exact hk (hd.symm.trans hc)
  refine ⟨fun he => ?_,fun he => ?_,fun he => ?_,fun he => ?_⟩
  · rw [he,hc0] at hd0
    cases hd0
    exact hne rfl
  · rw [he,hc1] at hd0
    cases hd0
  · rw [he,hc0] at hd1
    cases hd1
  · rw [he,hc1] at hd1
    cases hd1
    exact hne rfl

theorem inRange {i : ℕ} (hi : i ∈ ids.real) : ¬ ((i : ℤ) ≥ ids.all ∨ (i : ℤ) < ids.mainConsole) := by
  have := mem_real.mp hi
  omega

theorem Inv.del_eq (h : Inv ids s) {i : ℕ} {p : Registration} (hp : read s.history i = some p) :
    dispatchDelChannel ids s.registry i p.fd1 =
      ((s.registry.close p.fd0).setRow i ⟨dispatchInvalidFd,dispatchModeSendRecv⟩).close p.fd1 := by
  obtain ⟨hreal,hrow,h0,h1⟩ := h.rows i p hp
  have hfd : (s.registry.fdArray i).fd = p.fd0 := by rw [hrow]
  have hne : p.fd0 ≠ dispatchInvalidFd := by
    rw [dispatchInvalidFd]
    omega
  simp only [dispatchDelChannel,if_neg (inRange hreal),Int.toNat_natCast,hfd,if_pos hne,if_pos h1]

theorem Inv.tracks (h : Inv ids s) : Tracks ids s where
  addressed := by
    intro i p hp src
    obtain ⟨hreal,hrow,h0,-⟩ := h.rows i p hp
    have hbounds := mem_real.mp hreal
    have hfd : (s.registry.fdArray i).fd = p.fd0 := by rw [hrow]
    have hne : p.fd0 ≠ dispatchInvalidFd := by
      rw [dispatchInvalidFd]
      omega
    have haddr : addressed ids s.registry.fdArray i src = [p.fd0] := by
      rw [addressed,if_neg (by omega),Int.toNat_natCast,hfd,if_pos ⟨by omega,by omega,hne⟩]
    rcases dispatchGetFd_spec ids s.registry.fdArray i src with ⟨-,hnone⟩ | ⟨info,hinfo,hlist⟩
    · rw [haddr] at hnone
      cases hnone
    · exact ⟨info,hinfo,hlist.trans haddr⟩
  mode := by
    intro i p hp
    rw [(h.rows i p hp).2.1]
  refused := by
    intro i p hp mode pair
    obtain ⟨hreal,hrow,h0,-⟩ := h.rows i p hp
    have hne : (s.registry.fdArray i).fd ≠ dispatchInvalidFd := by
      rw [hrow,dispatchInvalidFd]
      show p.fd0 ≠ 0
      omega
    simp only [dispatchRegisterChannel,if_neg (inRange hreal),Int.toNat_natCast,if_pos hne]
  own := by
    intro i p hp k hk hki hfd
    obtain ⟨-,-,h0,-⟩ := h.rows i p hp
    cases hq : read s.history k with
    | none =>
      rw [h.free k hq,dispatchInvalidFd] at hfd
      omega
    | some q =>
      rw [(h.rows k q hq).2.1] at hfd
      exact (h.fd_ne hp hq hki).1 hfd
  unaddressed := by
    intro dest hnone hall src
    have hrow := h.free _ hnone
    by_cases hrange : dest > ids.all ∨ dest < ids.mainConsole
    · exact if_pos hrange
    · simp [dispatchGetFd,hrange,hall,hrow]
  closed := by
    intro i p hp
    rw [h.del_eq hp]
    simp only [Registry.close,Registry.setRow]
    refine ⟨?_,Function.update_self _ _ _⟩
    by_cases heq : p.fd0 = p.fd1
    · rw [heq,Function.update_self]
    · rw [Function.update_of_ne heq,Function.update_self]

theorem register_reaches {r : Registry} {moduleId : ℤ} (h : Reaches ids r moduleId) (mode : ℤ)
    (pair : ℤ × ℤ) : dispatchRegisterChannel ids r moduleId mode (some pair) =
      ((r.socketpair moduleId.toNat mode pair.1 pair.2).setRow moduleId.toNat ⟨pair.1,mode⟩,pair.2) := by
  have hrange : ¬ (moduleId ≥ ids.all ∨ moduleId < ids.mainConsole) := by
    have := h.1
    have := h.2.1
    omega
  simp only [dispatchRegisterChannel,if_neg hrange,if_neg (not_not.mpr h.2.2)]

theorem register_refused {r : Registry} {moduleId : ℤ} {pair : Option (ℤ × ℤ)}
    (h : pair = none ∨ ¬ Reaches ids r moduleId) (mode : ℤ) :
    dispatchRegisterChannel ids r moduleId mode pair = (r,retFail) := by
  rw [dispatchRegisterChannel.eq_def]
  by_cases hrange : moduleId ≥ ids.all ∨ moduleId < ids.mainConsole
  · rw [if_pos hrange]
  · rw [if_neg hrange]
    by_cases hfd : (r.fdArray moduleId.toNat).fd ≠ dispatchInvalidFd
    · rw [if_pos hfd]
    · rw [if_neg hfd,h.resolve_right fun hr => hr ⟨by omega,by omega,not_not.mp hfd⟩]

theorem Inv.register (h : Inv ids s) {moduleId mode : ℤ} {pair : ℤ × ℤ}
    (hreach : Reaches ids s.registry moduleId) (hfree : s.registry.Free pair)
    (hne : pair.1 ≠ 0 ∧ pair.2 ≠ 0) :
    Inv ids ⟨(s.registry.socketpair moduleId.toNat mode pair.1 pair.2).setRow moduleId.toNat
      ⟨pair.1,mode⟩,s.history++[.put moduleId.toNat ⟨mode,pair.1,pair.2⟩]⟩ := by
  obtain ⟨h0,h1,hpair,hk0,hk1⟩ := hfree
  obtain ⟨hlow,hhigh,-⟩ := hreach
  have hread : ∀ i, read (s.history++[.put moduleId.toNat ⟨mode,pair.1,pair.2⟩]) i =
      if i = moduleId.toNat then some ⟨mode,pair.1,pair.2⟩ else read s.history i := by
    intro i
    rw [read_concat,Event.apply,Function.update_apply]
  refine ⟨fun i p hp => ?_,fun i p hp => ?_,fun i hi => ?_⟩
  · rw [hread] at hp
    by_cases him : i = moduleId.toNat
    · rw [if_pos him] at hp
      cases hp
      refine ⟨mem_real.mpr (by omega),?_,by show 0 < pair.1; omega,by show 0 < pair.2; omega⟩
      simp [Registry.setRow,him]
    · rw [if_neg him] at hp
      obtain ⟨hreal,hrow,hpos⟩ := h.rows i p hp
      exact ⟨hreal,by simpa [Registry.setRow,Registry.socketpair,him] using hrow,hpos⟩
  · rw [hread] at hp
    by_cases him : i = moduleId.toNat
    · rw [if_pos him] at hp
      cases hp
      refine ⟨⟨s.registry.made,moduleId.toNat,mode⟩,him.symm,?_,?_⟩
      · simp [Registry.setRow,Registry.socketpair,hpair]
      · simp [Registry.setRow,Registry.socketpair]
    · rw [if_neg him] at hp
      obtain ⟨c,hc,hc0,hc1⟩ := h.opened i p hp
      have hkept : ∀ {fd e}, s.registry.kernel fd = some e →
          (s.registry.socketpair moduleId.toNat mode pair.1 pair.2).kernel fd = some e := by
        intro fd e hfd
        have hfd0 : fd ≠ pair.1 := fun he => by rw [he,hk0] at hfd; cases hfd
        have hfd1 : fd ≠ pair.2 := fun he => by rw [he,hk1] at hfd; cases hfd
        simpa [Registry.socketpair,hfd0,hfd1] using hfd
      exact ⟨c,hc,hkept hc0,hkept hc1⟩
  · rw [hread] at hi
    by_cases him : i = moduleId.toNat
    · rw [if_pos him] at hi
      cases hi
    · rw [if_neg him] at hi
      simpa [Registry.setRow,Registry.socketpair,him] using h.free i hi

theorem read_erase (history : List (Event ℕ Registration)) (i k : ℕ) :
    read (history++[.erase i]) k = if k = i then none else read history k := by
  rw [read_concat,Event.apply,Function.update_apply]

theorem Inv.del (h : Inv ids s) {i : ℕ} {p : Registration} (hp : read s.history i = some p) :
    Inv ids ⟨dispatchDelChannel ids s.registry i p.fd1,s.history++[.erase i]⟩ := by
  rw [h.del_eq hp]
  refine ⟨fun k q hq => ?_,fun k q hq => ?_,fun k hk => ?_⟩
  · rw [read_erase] at hq
    by_cases hki : k = i
    · rw [if_pos hki] at hq
      cases hq
    · rw [if_neg hki] at hq
      simpa [Registry.setRow,Registry.close,hki] using h.rows k q hq
  · rw [read_erase] at hq
    by_cases hki : k = i
    · rw [if_pos hki] at hq
      cases hq
    · rw [if_neg hki] at hq
      obtain ⟨c,hc,hc0,hc1⟩ := h.opened k q hq
      obtain ⟨h00,h01,h10,h11⟩ := h.fd_ne hp hq hki
      refine ⟨c,hc,?_,?_⟩
      · simpa [Registry.setRow,Registry.close,h00,h01] using hc0
      · simpa [Registry.setRow,Registry.close,h10,h11] using hc1
  · rw [read_erase] at hk
    by_cases hki : k = i
    · simp [Registry.setRow,Registry.close,hki]
    · rw [if_neg hki] at hk
      simpa [Registry.setRow,Registry.close,hki] using h.free k hk

theorem Inv.del_none (h : Inv ids s) {moduleId fd : ℤ} (hnone : read s.history moduleId.toNat = none)
    (hfd : s.registry.kernel fd = none) :
    Inv ids ⟨dispatchDelChannel ids s.registry moduleId fd,s.history++[.erase moduleId.toNat]⟩ := by
  have hsame : dispatchDelChannel ids s.registry moduleId fd = s.registry := by
    have hclose : s.registry.close fd = s.registry := by
      rw [Registry.close,← hfd,Function.update_eq_self]
    simp only [dispatchDelChannel,h.free _ hnone,ne_eq,not_true_eq_false,if_false,hclose,ite_self]
  have hread : ∀ k, read (s.history++[.erase moduleId.toNat]) k = read s.history k := by
    intro k
    rw [read_erase]
    by_cases hk : k = moduleId.toNat
    · rw [if_pos hk,hk,hnone]
    · rw [if_neg hk]
  rw [hsame]
  refine ⟨fun i p hp => ?_,fun i p hp => ?_,fun i hi => ?_⟩
  · rw [hread] at hp
    exact h.rows i p hp
  · rw [hread] at hp
    exact h.opened i p hp
  · rw [hread] at hi
    exact h.free i hi

theorem step_register {moduleId mode : ℤ} {pair : ℤ × ℤ} (hfree : s.registry.Free pair)
    (hreach : Reaches ids s.registry moduleId) :
    s.step ids (.register moduleId mode (some pair)) =
      some ⟨(s.registry.socketpair moduleId.toNat mode pair.1 pair.2).setRow moduleId.toNat
        ⟨pair.1,mode⟩,s.history++[.put moduleId.toNat ⟨mode,pair.1,pair.2⟩]⟩ := by
  have hret : pair.2 ≠ retFail := by
    have := hfree.2.1
    rw [retFail]
    omega
  simp only [Session.step,if_pos hfree,register_reaches hreach,if_neg hret]

theorem step_inv (h : Inv ids s) {op : Op} (hC : Positive ids s op) (ht : s.step ids op = some t) :
    Inv ids t := by
  cases op with
  | register moduleId mode pair =>
    cases pair with
    | none =>
      simp only [Session.step,register_refused (Or.inl rfl)] at ht
      cases ht
      exact h
    | some pair =>
      by_cases hfree : s.registry.Free pair
      · by_cases hreach : Reaches ids s.registry moduleId
        · rw [step_register hfree hreach] at ht
          cases ht
          exact h.register hreach hfree (hC hreach)
        · simp only [Session.step,if_pos hfree,register_refused (Or.inr hreach),if_true] at ht
          cases ht
          exact h
      · simp only [Session.step,if_neg hfree] at ht
        cases ht
  | del moduleId fd =>
    obtain ⟨hpassed,ht⟩ := Option.ite_none_right_eq_some.mp ht
    cases ht
    cases hp : read s.history moduleId.toNat with
    | none =>
      rw [Session.Passed,hp] at hpassed
      exact h.del_none hp hpassed
    | some p =>
      rw [Session.Passed,hp] at hpassed
      have hid : moduleId = moduleId.toNat := by
        have := (mem_real.mp (h.rows _ p hp).1).1
        have := ids.specified
        omega
      have hdel := h.del hp
      rw [← hid] at hdel
      rw [hpassed]
      exact hdel

/-- A channel on descriptor 0 is not tracked: its row looks unregistered, or its local end
cannot be closed. -/
theorem positive_of_tracks {op : Op} (ht : s.step ids op = some t) (h : Tracks ids t) :
    Positive ids s op := by
  cases op with
  | del moduleId fd => trivial
  | register moduleId mode pair =>
    cases pair with
    | none => trivial
    | some pair =>
      intro hreach
      have hfree : s.registry.Free pair := by
        by_contra hfree
        simp only [Session.step,if_neg hfree] at ht
        cases ht
      rw [step_register hfree hreach] at ht
      cases ht
      obtain ⟨hlow,hhigh,-⟩ := hreach
      obtain ⟨i,rfl⟩ := Int.eq_ofNat_of_zero_le (by omega : 0 ≤ moduleId)
      simp only [Int.toNat_natCast] at h
      have hread : read (s.history++[.put i ⟨mode,pair.1,pair.2⟩]) i =
          some ⟨mode,pair.1,pair.2⟩ := by
        rw [read_concat,Event.apply,Function.update_self]
      have hreal : i ∈ ids.real := mem_real.mpr (by omega)
      have hrange : ¬ ((i : ℤ) > ids.all ∨ (i : ℤ) < ids.mainConsole) := by omega
      have hall : (i : ℤ) ≠ ids.all := by omega
      have h0 : pair.1 ≠ 0 := by
        intro h0
        obtain ⟨info,hinfo,-⟩ := h.addressed _ _ hread 0
        rw [dispatchGetFd,if_neg hrange] at hinfo
        simp [hall,Registry.setRow,h0,dispatchInvalidFd] at hinfo
      refine ⟨h0,fun h1 => ?_⟩
      have hclosed := (h.closed _ _ hread).2
      rw [dispatchDelChannel,if_neg (inRange hreal)] at hclosed
      simp [Registry.setRow,Registry.close,Registry.socketpair,dispatchInvalidFd,h0,h1,
        Ne.symm h0] at hclosed

/-- Along a run the registry tracks what is registered in every state exactly when no
registration is made on descriptor 0. -/
theorem registry_tracks_iff (ids : ModuleIds) (ops : List Op) (s : Session)
    (hs : exec (Session.step ids) Session.init ops = some s) :
    Meets (Session.step ids) (Positive ids) Session.init ops ↔
      ∀ pre t, pre <+: ops → exec (Session.step ids) Session.init pre = some t → Tracks ids t :=
  meets_iff_forall_reached (I:=Inv ids) (fun _ _ _ h hC ht => step_inv h hC ht)
    (fun _ h => h.tracks) (fun _ _ _ _ ht h => positive_of_tracks ht h) init_inv hs

end Invariant

/-- The kernel gives module 1 the lowest free number, 0: the registration succeeds and the
module cannot be addressed. -/
theorem registered_not_addressed : ∃ s : Session,
    exec (Session.step threeIds) Session.init [.register 1 dispatchModeSendRecv (some (0,3))] =
      some s ∧
    read s.history 1 = some ⟨dispatchModeSendRecv,0,3⟩ ∧
    dispatchGetFd threeIds s.registry.fdArray 1 0 = none ∧ ¬ Tracks threeIds s := by
  refine ⟨_,rfl,rfl,rfl,fun h => ?_⟩
  obtain ⟨info,hinfo,-⟩ := h.addressed 1 ⟨dispatchModeSendRecv,0,3⟩ rfl 0
  cases hinfo

/-- Module 1 registers, is refused a second pair, is deleted and gets the same numbers the other way
round. -/
def sameNumbers : List Op :=
  [.register 1 dispatchModeSendRecv (some (5,6)),.register 1 dispatchModeSendRecv (some (7,8)),.del 1 6,
    .register 1 dispatchModeSendOnly (some (6,5))]

theorem registry_tracks_sameNumbers : ∃ s : Session,
    exec (Session.step threeIds) Session.init sameNumbers = some s ∧
    read s.history 1 = some ⟨dispatchModeSendOnly,6,5⟩ ∧
    ∀ pre t, pre <+: sameNumbers →
      exec (Session.step threeIds) Session.init pre = some t → Tracks threeIds t := by
  obtain ⟨s,hs,hread⟩ : ∃ s, exec (Session.step threeIds) Session.init sameNumbers = some s ∧
    read s.history 1 = some ⟨dispatchModeSendOnly,6,5⟩ := ⟨_,rfl,rfl⟩
  have hpositive : Meets (Session.step threeIds) (Positive threeIds) Session.init sameNumbers := by decide
  exact ⟨s,hs,hread,(registry_tracks_iff threeIds _ s hs).mp hpositive⟩

section Threads

variable {T M : Type*} [DecidableEq T] {ids : ModuleIds} {s s' : State T M} {t : T}
  {pair : Option (ℤ × ℤ)} {r : Registry} {moduleId : ℕ} {mode fd0 fd1 fd : ℤ}

def registryOf (s : State T M) : Registry := ⟨s.fdArray,s.kernel,s.made⟩

/-- Left alone, thread `t` leaves its call with the registry `r` and the lock free. -/
def Ends (ids : ModuleIds) (s : State T M) (t : T) (pair : Option (ℤ × ℤ)) (r : Registry) : Prop :=
  ∃ n s', exec (State.step ids) s (List.replicate n (.next t pair)) = some s' ∧ registryOf s' = r ∧
    s'.lock = none ∧ s'.thread t = .idle

theorem Ends.done (hidle : s.thread t = .idle) (hlock : s.lock = none) (hr : registryOf s = r) :
    Ends ids s t pair r := ⟨0,s,rfl,hr,hlock,hidle⟩

theorem Ends.step (hs : s.threadStep t pair = some s') (h : Ends ids s' t pair r) :
    Ends ids s t pair r := by
  obtain ⟨n,u,hu,hend⟩ := h
  exact ⟨n+1,u,exec_cons.mpr ⟨s',hs,hu⟩,hend⟩

@[simp] theorem goto_thread (s : State T M) (t : T) (pc : ThreadPc) : (s.goto t pc).thread t = pc :=
  Function.update_self _ _ _

@[simp] theorem registryOf_goto (s : State T M) (t : T) (pc : ThreadPc) :
    registryOf (s.goto t pc) = registryOf s := rfl

theorem ends_registered (h : s.thread t = .registered fd1) : Ends ids s t pair (registryOf s) := by
  have hstep : s.threadStep t pair = some (s.release.goto t .idle) := by
    simp only [State.threadStep,h]
  exact .step hstep (.done (goto_thread _ _ _) rfl rfl)

theorem ends_storingFd (h : s.thread t = .storingFd moduleId mode fd0 fd1) :
    Ends ids s t pair ((registryOf s).setRow moduleId ⟨fd0,mode⟩) := by
  have hstep : s.threadStep t pair =
      some ((s.setFd moduleId fd0).goto t (.storingMode moduleId mode fd0 fd1)) := by
    simp only [State.threadStep,h]
  generalize hs₁ : (s.setFd moduleId fd0).goto t (.storingMode moduleId mode fd0 fd1) = s₁ at hstep
  have hthread : s₁.thread t = .storingMode moduleId mode fd0 fd1 := by
    rw [← hs₁,goto_thread]
  have hstep' : s₁.threadStep t pair = some ((s₁.setMode moduleId mode).goto t (.registered fd1)) := by
    simp only [State.threadStep,hthread]
  have hrow : registryOf ((s₁.setMode moduleId mode).goto t (.registered fd1)) =
      (registryOf s).setRow moduleId ⟨fd0,mode⟩ := by
    rw [← hs₁]
    simp [registryOf,State.setMode,State.setFd,State.setRow,State.goto,Registry.setRow]
  refine .step hstep (.step hstep' ?_)
  rw [← hrow]
  exact ends_registered (goto_thread _ _ _)

/-- A registering thread that nobody disturbs makes the call. -/
theorem register_alone (h : s.thread t = .idle) (hlock : s.lock = none) (moduleId mode : ℤ)
    (hpair : ∀ p, pair = some p → (registryOf s).Free p) :
    ∃ s', s.step ids (.register t moduleId mode) = some s' ∧ Ends ids s' t pair
      (dispatchRegisterChannel ids (registryOf s) moduleId mode pair).1 := by
  by_cases hreach : Reaches ids (registryOf s) moduleId
  · have hrange : ¬ (moduleId ≥ ids.all ∨ moduleId < ids.mainConsole) := by
      have := hreach.1
      have := hreach.2.1
      omega
    have hfd : ¬ (s.fdArray moduleId.toNat).fd ≠ dispatchInvalidFd := not_not.mpr hreach.2.2
    refine ⟨s.goto t (.registering moduleId.toNat mode),?_,?_⟩
    · simp only [State.step,h,if_neg hrange,if_neg hfd]
    cases pair with
    | none =>
      have hstep : (s.goto t (.registering moduleId.toNat mode)).threadStep t none =
          some ((s.goto t (.registering moduleId.toNat mode)).goto t .idle) := by
        simp only [State.threadStep,goto_thread]
      rw [register_refused (Or.inl rfl)]
      exact .step hstep (.done (goto_thread _ _ _) hlock rfl)
    | some pair =>
      obtain ⟨h0,h1,hne,hk0,hk1⟩ := hpair pair rfl
      have hfree : 0 ≤ pair.1 ∧ 0 ≤ pair.2 ∧ pair.1 ≠ pair.2 ∧ s.kernel pair.1 = none ∧
          s.kernel pair.2 = none := ⟨h0,h1,hne,hk0,hk1⟩
      generalize hs₁ : s.goto t (.registering moduleId.toNat mode) = s₁
      have hstep : s₁.threadStep t (some pair) =
          some ((s₁.socketpair moduleId.toNat mode pair.1 pair.2).goto t
            (.created moduleId.toNat mode pair.1 pair.2)) := by
        rw [← hs₁]
        simp only [State.threadStep,goto_thread]
        exact if_pos hfree
      generalize hs₂ : (s₁.socketpair moduleId.toNat mode pair.1 pair.2).goto t
        (.created moduleId.toNat mode pair.1 pair.2) = s₂ at hstep
      have hthread : s₂.thread t = .created moduleId.toNat mode pair.1 pair.2 := by
        rw [← hs₂,goto_thread]
      have hlock₂ : s₂.lock = none := by
        rw [← hs₂,← hs₁]
        exact hlock
      have hstep' : s₂.threadStep t (some pair) =
          some ((s₂.acquire t).goto t (.storingFd moduleId.toNat mode pair.1 pair.2)) := by
        simp only [State.threadStep,hthread,if_pos hlock₂]
      have hreg : registryOf ((s₂.acquire t).goto t (.storingFd moduleId.toNat mode pair.1 pair.2)) =
          (registryOf s).socketpair moduleId.toNat mode pair.1 pair.2 := by
        rw [← hs₂,← hs₁]
        rfl
      rw [register_reaches hreach,← hreg]
      exact .step hstep (.step hstep' (ends_storingFd (goto_thread _ _ _)))
  · rw [register_refused (Or.inr hreach)]
    refine ⟨s,?_,.done h hlock rfl⟩
    by_cases hrange : moduleId ≥ ids.all ∨ moduleId < ids.mainConsole
    · simp only [State.step,h,if_pos hrange]
    · have hfd : (s.fdArray moduleId.toNat).fd ≠ dispatchInvalidFd := fun hfd =>
        hreach ⟨by omega,by omega,hfd⟩
      simp only [State.step,h,if_neg hrange,if_pos hfd]

theorem ends_closingLocal (h : s.thread t = .closingLocal fd) (hlock : s.lock = none) :
    Ends ids s t pair (if fd > 0 then (registryOf s).close fd else registryOf s) := by
  have hstep : s.threadStep t pair = some ((if fd > 0 then s.close fd else s).goto t .idle) := by
    simp only [State.threadStep,h]
  refine .step hstep (.done (goto_thread _ _ _) ?_ ?_)
  · by_cases hfd : fd > 0
    · rw [if_pos hfd]
      exact hlock
    · rw [if_neg hfd]
      exact hlock
  · by_cases hfd : fd > 0
    · rw [if_pos hfd,if_pos hfd]
      rfl
    · rw [if_neg hfd,if_neg hfd]
      rfl

theorem ends_deleted (h : s.thread t = .deleted fd) :
    Ends ids s t pair (if fd > 0 then (registryOf s).close fd else registryOf s) := by
  have hstep : s.threadStep t pair = some (s.release.goto t (.closingLocal fd)) := by
    simp only [State.threadStep,h]
  exact .step hstep (ends_closingLocal (goto_thread _ _ _) rfl)

theorem delete_alone (h : s.thread t = .idle) (hlock : s.lock = none) (moduleId fd : ℤ) :
    ∃ s', s.step ids (.delete t moduleId fd) = some s' ∧
      Ends ids s' t pair (dispatchDelChannel ids (registryOf s) moduleId fd) := by
  by_cases hrange : moduleId ≥ ids.all ∨ moduleId < ids.mainConsole
  · refine ⟨s,?_,?_⟩
    · simp only [State.step,h,if_pos hrange]
    · rw [dispatchDelChannel,if_pos hrange]
      exact .done h hlock rfl
  refine ⟨s.goto t (.deleting moduleId.toNat fd),?_,?_⟩
  · simp only [State.step,h,if_neg hrange]
  rw [dispatchDelChannel,if_neg hrange]
  generalize hs₁ : s.goto t (.deleting moduleId.toNat fd) = s₁
  have hthread : s₁.thread t = .deleting moduleId.toNat fd := by
    rw [← hs₁,goto_thread]
  have hlock₁ : s₁.lock = none := by
    rw [← hs₁]
    exact hlock
  have hreg : registryOf s₁ = registryOf s := by
    rw [← hs₁,registryOf_goto]
  rw [← hreg]
  by_cases hfd : (s₁.fdArray moduleId.toNat).fd ≠ dispatchInvalidFd
  · have hstep : s₁.threadStep t pair = some ((s₁.acquire t).goto t
        (.closing moduleId.toNat fd (s₁.fdArray moduleId.toNat).fd)) := by
      simp only [State.threadStep,hthread,if_pos hlock₁,if_pos hfd]
    generalize hs₂ : (s₁.acquire t).goto t
      (.closing moduleId.toNat fd (s₁.fdArray moduleId.toNat).fd) = s₂ at hstep
    have hclosing : s₂.threadStep t pair = some ((s₂.close (s₁.fdArray moduleId.toNat).fd).goto t
        (.resettingFd moduleId.toNat fd)) := by
      rw [← hs₂]
      simp only [State.threadStep,goto_thread]
    generalize hs₃ : (s₂.close (s₁.fdArray moduleId.toNat).fd).goto t
      (.resettingFd moduleId.toNat fd) = s₃ at hclosing
    have hresetFd : s₃.threadStep t pair = some ((s₃.setFd moduleId.toNat dispatchInvalidFd).goto t
        (.resettingMode moduleId.toNat fd)) := by
      rw [← hs₃]
      simp only [State.threadStep,goto_thread]
    generalize hs₄ : (s₃.setFd moduleId.toNat dispatchInvalidFd).goto t
      (.resettingMode moduleId.toNat fd) = s₄ at hresetFd
    have hresetMode : s₄.threadStep t pair =
        some ((s₄.setMode moduleId.toNat dispatchModeSendRecv).goto t (.deleted fd)) := by
      rw [← hs₄]
      simp only [State.threadStep,goto_thread]
    have hreg' : registryOf ((s₄.setMode moduleId.toNat dispatchModeSendRecv).goto t (.deleted fd)) =
        ((registryOf s₁).close ((registryOf s₁).fdArray moduleId.toNat).fd).setRow moduleId.toNat
          ⟨dispatchInvalidFd,dispatchModeSendRecv⟩ := by
      rw [← hs₄,← hs₃,← hs₂]
      simp [registryOf,State.setMode,State.setFd,State.setRow,State.goto,State.close,State.acquire,
        Registry.setRow,Registry.close]
    have hrow : ((registryOf s₁).fdArray moduleId.toNat).fd ≠ dispatchInvalidFd := hfd
    refine .step hstep (.step hclosing (.step hresetFd (.step hresetMode ?_)))
    simp only [if_pos hrow]
    rw [← hreg']
    exact ends_deleted (goto_thread _ _ _)
  · have hstep : s₁.threadStep t pair = some ((s₁.acquire t).goto t (.deleted fd)) := by
      simp only [State.threadStep,hthread,if_pos hlock₁,if_neg hfd]
    have hrow : ¬ ((registryOf s₁).fdArray moduleId.toNat).fd ≠ dispatchInvalidFd := hfd
    simp only [if_neg hrow]
    exact .step hstep (ends_deleted (goto_thread _ _ _))

end Threads

end DispatchSession
end IotBase
