import IotBase.SubdevRefinement
import IotBase.LabelledRun

/-! Topology comparison over whole runs: `find_ex` marks the devices that the cloud
knows and the iterator reports the others. The flag byte of an entry is tied to
the history of the calls since the entry was inserted and since the last sweep. -/
namespace IotBase
namespace SubdevSweep
open RawBytes CString OrderedTable SubdevTable SubdevRefinement LabelledRun

/-- One call; the lock is always acquired and `malloc` is what the allocator answers. -/
inductive Op
  | add (a : Addr) (v : UInt16) (malloc : Option ℕ)
  | delete (a : Addr)
  | deleteAll
  | find (a : Addr)
  | findEx (a : Addr)
  | iterator

inductive Event
  | inserted (a : CStr) | matched (a : CStr) | swept
  deriving DecidableEq

/-- The table and, newest first, what the calls so far did to it. -/
structure Run where
  table : Table
  log : List Event

def Run.init : Run := ⟨Table.empty,[]⟩

/-- One call; not enabled when `malloc` answers with a cell that is in use. -/
def Run.step (s : Run) : Op → Option Run
  | .add a v malloc =>
    if malloc.all fun p => (s.table.heap p).isNone then
      let r := subdevAddressHashAdd s.table (some a) v malloc true
      some ⟨r.1,if hashFindStr s.table a = none ∧ r.2 = 0 then .inserted a::s.log else s.log⟩
    else none
  | .delete a => some ⟨(subdevAddressHashDelete s.table (some a) true).1,s.log⟩
  | .deleteAll => some ⟨subdevAddressHashDeleteAll s.table true,s.log⟩
  | .find _ => some s
  | .findEx a =>
    some ⟨(subdevAddressHashFindEx s.table (some a) true).1,
      if (hashFindStr s.table a).isSome then .matched a::s.log else s.log⟩
  | .iterator => some ⟨(subdevAddressHashIterator s.table true).1,.swept::s.log⟩

/-- A `find_ex` of the address succeeded since its insertion and since the last sweep. -/
def matchedSince (log : List Event) (a : CStr) : Bool :=
  decide (.matched a ∈ log.takeWhile fun e => decide (e ≠ .inserted a ∧ e ≠ .swept))

def flagOf (matched : Bool) : UInt8 := if matched then cloudDeviceMatch else cloudDeviceNotMatch

def Flagged (log : List Event) (l : List Device) : Prop :=
  ∀ d ∈ l, d.flag = flagOf (matchedSince log d.address)

structure Inv (s : Run) : Prop where
  valid : Valid s.table
  flagged : Flagged s.log (devices s.table)

theorem matchedSince_inserted_self (log : List Event) (a : CStr) :
    matchedSince (.inserted a::log) a = false := by
  simp [matchedSince]

theorem matchedSince_inserted_ne (log : List Event) {a b : CStr} (h : a ≠ b) :
    matchedSince (.inserted a::log) b = matchedSince log b := by
  simp [matchedSince,h]

theorem matchedSince_matched_self (log : List Event) (a : CStr) :
    matchedSince (.matched a::log) a = true := by
  simp [matchedSince]

theorem matchedSince_matched_ne (log : List Event) {a b : CStr} (h : a ≠ b) :
    matchedSince (.matched a::log) b = matchedSince log b := by
  simp [matchedSince,h.symm]

theorem matchedSince_swept (log : List Event) (a : CStr) :
    matchedSince (.swept::log) a = false := by
  simp [matchedSince]

section Flags

variable {log : List Event} {l : List Device}

theorem mapAdd_flagged (h : Flagged log l) (a : CStr) (v : UInt16) (room : Bool) :
    Flagged (if lookup Device.address a l = none ∧ (mapAdd a v room l).2 = 0
      then .inserted a::log else log) (mapAdd a v room l).1 := by
  cases ha : lookup Device.address a l with
  | some d =>
    simp only [mapAdd,ha,reduceCtorEq,false_and,if_false]
    intro d hd
    obtain ⟨d',hd',rfl⟩ := List.mem_map.mp hd
    by_cases hda : d'.address = a
    · simpa [hda] using h d' hd'
    · simpa [hda] using h d' hd'
  | none =>
    cases room with
    | false => simpa [mapAdd,ha] using h
    | true =>
      simp only [mapAdd,ha,if_true,and_self]
      intro d hd
      rcases List.mem_append.mp hd with hold | hnew
      · have hne : a ≠ d.address := fun he =>
          lookup_eq_none.mp ha (List.mem_map.mpr ⟨d,hold,he.symm⟩)
        rw [matchedSince_inserted_ne log hne]
        exact h d hold
      · rw [List.mem_singleton.mp hnew,matchedSince_inserted_self]
        rfl

theorem mapDelete_flagged (h : Flagged log l) (a : CStr) : Flagged log (mapDelete a l).1 := by
  intro d hd
  cases ha : lookup Device.address a l with
  | none =>
    simp only [mapDelete,ha] at hd
    exact h d hd
  | some _ =>
    simp only [mapDelete,ha] at hd
    exact h d (List.mem_of_mem_filter hd)

theorem mapFindEx_flagged (h : Flagged log l) (a : CStr) :
    Flagged (if (lookup Device.address a l).isSome then .matched a::log else log)
      (mapFindEx a l).1 := by
  cases ha : lookup Device.address a l with
  | none =>
    rw [mapFindEx,modify_of_notMem (lookup_eq_none.mp ha)]
    exact h
  | some _ =>
    intro d hd
    obtain ⟨d',hd',rfl⟩ := List.mem_map.mp hd
    by_cases hda : d'.address = a
    · simp [hda,matchedSince_matched_self,flagOf]
    · have hne : a ≠ d'.address := fun he => hda he.symm
      simpa [hda,matchedSince_matched_ne log hne] using h d' hd'

theorem sweepFlag_flagOf (m : Bool) : sweepFlag (flagOf m) = cloudDeviceNotMatch := by
  cases m <;> rfl

theorem mapSweep_eq (h : Flagged log l) :
    mapSweep l = (l.map fun d => {d with flag := cloudDeviceNotMatch},
      (l.filter fun d => !matchedSince log d.address).map Device.address) := by
  refine Prod.ext (List.map_congr_left fun d hd => ?_)
    (congrArg (List.map Device.address) (List.filter_congr fun d hd => ?_))
  · rw [h d hd,sweepFlag_flagOf]
  · rw [h d hd]
    cases matchedSince log d.address <;> rfl

theorem mapSweep_flagged (h : Flagged log l) : Flagged (.swept::log) (mapSweep l).1 := by
  rw [mapSweep_eq h]
  intro d hd
  obtain ⟨d',-,rfl⟩ := List.mem_map.mp hd
  rw [matchedSince_swept]
  rfl

end Flags

theorem find_isSome (t : Table) (a : CStr) :
    (hashFindStr t a).isSome = (lookup Device.address a (devices t)).isSome := by
  cases hf : hashFindStr t a with
  | none => rw [lookup_devices_eq_none.mpr hf]; rfl
  | some p =>
    obtain ⟨d,hd⟩ := lookup_of_linkedAt (linkedAt_of_find hf)
    rw [hd]; rfl

theorem step_inv (s : Run) (op : Op) (t : Run) (h : Inv s) (ht : s.step op = some t) : Inv t := by
  cases op with
  | add a v malloc =>
    obtain ⟨hfree,ht⟩ := Option.ite_none_right_eq_some.mp ht
    cases ht
    have hm : ∀ p, malloc = some p → s.table.heap p = none := by
      rintro p rfl
      simpa using hfree
    obtain ⟨hvalid,hadd⟩ := add_spec (v:=v) h.valid a.2 hm
    obtain ⟨hdev,hret⟩ := Prod.ext_iff.mp hadd
    refine ⟨hvalid,?_⟩
    have hflags := mapAdd_flagged h.flagged a v malloc.isSome
    rw [← hdev,← hret] at hflags
    simpa only [lookup_devices_eq_none] using hflags
  | delete a =>
    cases ht
    obtain ⟨hvalid,hdel⟩ := delete_spec h.valid a
    refine ⟨hvalid,?_⟩
    have hflags := mapDelete_flagged h.flagged a
    rwa [← hdel] at hflags
  | deleteAll =>
    cases ht
    obtain ⟨hvalid,hdev⟩ := deleteAll_spec s.table
    refine ⟨hvalid,?_⟩
    show Flagged s.log (devices (subdevAddressHashDeleteAll s.table true))
    rw [hdev]
    intro d hd
    cases hd
  | find a =>
    cases ht
    exact h
  | findEx a =>
    cases ht
    obtain ⟨hvalid,-,hfind⟩ := findEx_spec h.valid a
    refine ⟨hvalid,?_⟩
    have hflags := mapFindEx_flagged h.flagged a
    rwa [← hfind,← find_isSome] at hflags
  | iterator =>
    cases ht
    obtain ⟨hvalid,-,hsweep⟩ := iterator_spec h.valid
    refine ⟨hvalid,?_⟩
    have hflags := mapSweep_flagged h.flagged
    rwa [← hsweep] at hflags

/-- What a call makes of the devices. -/
def mapStep (l : List Device) : Op → List Device
  | .add a v malloc => (mapAdd a v malloc.isSome l).1
  | .delete a => (mapDelete a l).1
  | .deleteAll => []
  | .find _ => l
  | .findEx a => (mapFindEx a l).1
  | .iterator => (mapSweep l).1

theorem step_devices {s t : Run} {op : Op} (hv : Valid s.table) (ht : s.step op = some t) :
    devices t.table = mapStep (devices s.table) op := by
  cases op with
  | add a v malloc =>
    obtain ⟨hfree,ht⟩ := Option.ite_none_right_eq_some.mp ht
    cases ht
    have hm : ∀ p, malloc = some p → s.table.heap p = none := by
      rintro p rfl
      simpa using hfree
    exact congrArg Prod.fst (add_spec (v:=v) hv a.2 hm).2
  | delete a =>
    cases ht
    exact congrArg Prod.fst (delete_spec hv a).2
  | deleteAll =>
    cases ht
    exact (deleteAll_spec s.table).2
  | find a =>
    cases ht
    rfl
  | findEx a =>
    cases ht
    exact congrArg Prod.fst (findEx_spec hv a).2.2
  | iterator =>
    cases ht
    exact congrArg Prod.fst (iterator_spec hv).2.2

/-- The table holds what the calls have made of the empty map. -/
theorem run_devices (ops : List Op) : ∀ {s t : Run}, Inv s → exec Run.step s ops = some t →
    devices t.table = ops.foldl mapStep (devices s.table) := by
  induction ops with
  | nil =>
    intro s t _ ht
    cases ht
    rfl
  | cons op ops ih =>
    intro s t h ht
    obtain ⟨u,hu,ht⟩ := exec_cons.mp ht
    rw [ih (step_inv s op u h hu) ht,step_devices h.valid hu,List.foldl_cons]

theorem init_inv : Inv Run.init := ⟨empty_valid,fun _ hd => nomatch hd⟩

/-- In every reachable state the table holds the devices that the calls have left, and the iterator
reports, once each and in insertion order, those not matched since their insertion and since the last
sweep, and leaves the addresses, types and order as they were with every flag cleared. -/
theorem iterator_reports_unmatched (ops : List Op) (s : Run)
    (h : exec Run.step Run.init ops = some s) :
    devices s.table = ops.foldl mapStep [] ∧
    (subdevAddressHashIterator s.table true).2 =
      ((devices s.table).filter fun d => !matchedSince s.log d.address).map Device.address ∧
    (subdevAddressHashIterator s.table true).2.Nodup ∧
    devices (subdevAddressHashIterator s.table true).1 =
      (devices s.table).map fun d => {d with flag := cloudDeviceNotMatch} := by
  have hI : Inv s := exec_invariant_of_step step_inv ops init_inv h
  obtain ⟨-,-,hsweep⟩ := iterator_spec hI.valid
  rw [mapSweep_eq hI.flagged] at hsweep
  obtain ⟨hdev,hcalls⟩ := Prod.mk.inj hsweep
  refine ⟨run_devices ops init_inv h,hcalls,?_,hdev⟩
  rw [hcalls]
  exact hI.valid.addresses_nodup.sublist (List.filter_sublist.map _)

def lockAddr : Addr := ⟨⟨[49,50],by decide⟩,by decide⟩
def sensorAddr : Addr := ⟨⟨[49,51],by decide⟩,by decide⟩

theorem iterator_reports_unmatched_two : ∃ s, exec Run.step Run.init
      [.add lockAddr 1203 (some 0),.add sensorAddr 1204 (some 1),.findEx lockAddr] = some s ∧
    devices s.table = [⟨lockAddr,1203,cloudDeviceMatch⟩,⟨sensorAddr,1204,cloudDeviceNotMatch⟩] ∧
    (subdevAddressHashIterator s.table true).2 = [sensorAddr.1] ∧
    devices (subdevAddressHashIterator s.table true).1 =
      [⟨lockAddr,1203,cloudDeviceNotMatch⟩,⟨sensorAddr,1204,cloudDeviceNotMatch⟩] := by
  obtain ⟨s,hs,hlog⟩ : ∃ s, exec Run.step Run.init
      [.add lockAddr 1203 (some 0),.add sensorAddr 1204 (some 1),.findEx lockAddr] = some s ∧
    s.log = [.matched lockAddr,.inserted sensorAddr,.inserted lockAddr] := ⟨_,rfl,rfl⟩
  obtain ⟨hdev,hreport,-,hafter⟩ := iterator_reports_unmatched _ s hs
  rw [hlog,hdev] at hreport
  rw [hdev] at hafter
  exact ⟨s,hs,hdev.trans (by decide),hreport.trans (by decide),hafter.trans (by decide)⟩

end SubdevSweep
end IotBase
