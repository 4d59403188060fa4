import IotBase.SubdevRefinement
import IotBase.LabelledRun

/-! The two threads of the sub-device table. The device thread looks an entry up
without the lock and acts on the pointer under it; the cloud thread only reads
links and writes flags. Every interleaving answers like some sequential order. -/
namespace IotBase
namespace SubdevThreads
open RawBytes CString OrderedTable SubdevTable SubdevRefinement LabelledRun

/-- A device type of at most four digits. -/
abbrev DevType := {v : UInt16 // v ≤ 9999}

inductive CloudCall
  | find (a : Addr)
  | findEx (a : Addr)
  | iterator
  | getKeys (type : UInt16) (list : ℕ → Bytes) (n : ℤ)

/-- `room` is whether the allocator could serve the call. -/
inductive Call
  | add (a : Addr) (v : DevType) (room : Bool)
  | delete (a : Addr)
  | deleteAll
  | cloud (c : CloudCall)

def Call.isCloud : Call → Bool
  | .cloud _ => true
  | _ => false

/-- What a call hands back; a lookup that finds nothing returns 65535. -/
inductive Answer
  | code (r : ℤ)
  | done
  | type (r : Option UInt16)
  | reported (l : List CStr)
  | keys (list : ℕ → Bytes) (n : ℤ)

def foundType (r : UInt16) : Option UInt16 := if r = hashAddrTypeNoFind then none else some r

def answerCloud (l : List Device) : CloudCall → List Device × Answer
  | .find a => (l,.type ((lookup Device.address a l).map Device.type))
  | .findEx a => ((mapFindEx a l).1,.type ((lookup Device.address a l).map Device.type))
  | .iterator => ((mapSweep l).1,.reported (mapSweep l).2)
  | .getKeys type list n => (l,.keys (mapKeys type list n l).1 (mapKeys type list n l).2)

def answer (l : List Device) : Call → List Device × Answer
  | .add a v room => ((mapAdd a v room l).1,.code (mapAdd a v room l).2)
  | .delete a => ((mapDelete a l).1,.code (mapDelete a l).2)
  | .deleteAll => ([],.done)
  | .cloud c => answerCloud l c

inductive DevicePc
  | idle
  | adding (a : Addr) (v : DevType) (plan : AddPlan)
  | deleting (a : Addr) (p : ℕ)
  | freeing (a : Addr) (p : ℕ)

/-- The table, the device thread and what either thread's calls have returned. -/
structure System where
  table : Table
  pc : DevicePc
  device : List (Call × Answer)
  cloud : List (Call × Answer)

def System.init : System := ⟨Table.empty,.idle,[],[]⟩

inductive Label
  | addBegin (a : Addr) (v : DevType) (malloc : Option ℕ)
  | addEnd
  | deleteBegin (a : Addr)
  | deleteLocked
  | deleteEnd
  | deleteAll
  | cloud (c : CloudCall)

/-- A call of the cloud thread, all of it under the read lock. -/
def cloudStep (t : Table) : CloudCall → Table × Answer
  | .find a => (t,.type (foundType (subdevAddressHashFind t (some a) true)))
  | .findEx a =>
    let r := subdevAddressHashFindEx t (some a) true
    (r.1,.type (foundType r.2))
  | .iterator =>
    let r := subdevAddressHashIterator t true
    (r.1,.reported r.2)
  | .getKeys type list n =>
    let r := subdevAddressHashGetKeys t type list n true
    (t,.keys r.1 r.2)

def System.step (s : System) : Label → Option System
  | .addBegin a v malloc =>
    match s.pc with
    | .idle =>
      if malloc.all fun p => (s.table.heap p).isNone then
        let r := addLookup s.table a v malloc
        some ⟨r.1,.adding a v r.2,s.device,s.cloud⟩
      else none
    | _ => none
  | .addEnd =>
    match s.pc with
    | .adding a v plan =>
      let r := addLocked s.table v true plan
      some ⟨r.1,.idle,s.device++[(.add a v (hasRoom plan),.code r.2)],s.cloud⟩
    | _ => none
  | .deleteBegin a =>
    match s.pc with
    | .idle =>
      match hashFindStr s.table a with
      | none => some ⟨s.table,.idle,s.device++[(.delete a,.code (-1))],s.cloud⟩
      | some p => some ⟨s.table,.deleting a p,s.device,s.cloud⟩
    | _ => none
  | .deleteLocked =>
    match s.pc with
    | .deleting a p => some ⟨hashDel s.table p,.freeing a p,s.device,s.cloud⟩
    | _ => none
  | .deleteEnd =>
    match s.pc with
    | .freeing a p => some ⟨free s.table p,.idle,s.device++[(.delete a,.code 0)],s.cloud⟩
    | _ => none
  | .deleteAll =>
    match s.pc with
    | .idle =>
      some ⟨subdevAddressHashDeleteAll s.table true,.idle,s.device++[(.deleteAll,.done)],s.cloud⟩
    | _ => none
  | .cloud c =>
    let r := cloudStep s.table c
    some ⟨r.1,s.pc,s.device,s.cloud++[(.cloud c,r.2)]⟩

/-- A deletion that has unlinked its entry but not returned yet. -/
def System.committed (s : System) : List (Call × Answer) :=
  match s.pc with
  | .freeing a _ => [(.delete a,.code 0)]
  | _ => []

/-- The entries whose memory a step touches: the linked ones, which every search and
iteration walks, and the one the device thread holds. -/
def System.uses (s : System) : Label → List ℕ
  | .deleteEnd =>
    match s.pc with
    | .freeing _ p => [p]
    | _ => []
  | .addEnd =>
    match s.pc with
    | .adding _ _ (.link p) => p::s.table.order
    | .adding _ _ (.retype p) => p::s.table.order
    | _ => s.table.order
  | .deleteLocked =>
    match s.pc with
    | .deleting _ p => p::s.table.order
    | _ => s.table.order
  | _ => s.table.order

def PcOk (t : Table) : DevicePc → Prop
  | .idle => True
  | .adding a v plan => AddReady t a v plan
  | .deleting a p => LinkedAt t p a
  | .freeing _ p => p ∉ t.order ∧ ∃ e, t.heap p = some e

def Typed (l : List Device) : Prop := ∀ d ∈ l, d.type ≤ 9999

/-- Some sequential order of the calls returned so far leads to these devices. -/
def Explained (l : List Device) (device cloud : List (Call × Answer)) : Prop :=
  ∃ order, Replays answer [] order l ∧ order.filter (fun e => !e.1.isCloud) = device ∧
    order.filter (fun e => e.1.isCloud) = cloud

structure Inv (s : System) : Prop where
  valid : Valid s.table
  pc : PcOk s.table s.pc
  typed : Typed (devices s.table)
  explained : Explained (devices s.table) (s.device++s.committed) s.cloud

theorem PcOk.sameKeys {t u : Table} {pc : DevicePc} (h : SameKeys t u) (hp : PcOk t pc) :
    PcOk u pc := by
  cases pc with
  | idle => trivial
  | adding a v plan => exact h.addReady hp
  | deleting a p => exact h.linkedAt hp
  | freeing a p =>
    obtain ⟨hmem,e,he⟩ := hp
    exact ⟨h.order ▸ hmem,e,(h.unlinked p hmem).trans he⟩

theorem foundType_mapFind {l : List Device} (hl : Typed l) (a : CStr) :
    foundType (mapFind a l) = (lookup Device.address a l).map Device.type := by
  cases h : lookup Device.address a l with
  | none =>
    rw [mapFind,h]
    rfl
  | some d =>
    have hd : d.type ≤ 9999 := hl d (mem_of_lookup h)
    have hne : d.type ≠ hashAddrTypeNoFind := by
      intro he
      rw [he] at hd
      exact absurd hd (by decide)
    rw [mapFind,h]
    exact if_neg hne

theorem Explained.device {l l' : List Device} {device cloud : List (Call × Answer)} {c : Call}
    {r : Answer} (h : Explained l device cloud) (hr : answer l c = (l',r))
    (hc : c.isCloud = false) : Explained l' (device++[(c,r)]) cloud := by
  obtain ⟨order,hrep,hdev,hcloud⟩ := h
  exact ⟨order++[(c,r)],hrep.concat hr,by simp [hdev,hc],by simp [hcloud,hc]⟩

theorem Explained.cloud {l l' : List Device} {device cloud : List (Call × Answer)}
    {c : CloudCall} {r : Answer} (h : Explained l device cloud) (hr : answerCloud l c = (l',r)) :
    Explained l' device (cloud++[(.cloud c,r)]) := by
  obtain ⟨order,hrep,hdev,hcloud⟩ := h
  have hans : answer l (.cloud c) = (l',r) := hr
  have hc : (Call.cloud c).isCloud = true := rfl
  exact ⟨order++[(.cloud c,r)],hrep.concat hans,by simp [hdev,hc],by simp [hcloud,hc]⟩

theorem cloudStep_spec {t : Table} (hv : Valid t) (ht : Typed (devices t)) (c : CloudCall) :
    Valid (cloudStep t c).1 ∧ SameKeys t (cloudStep t c).1 ∧
    answerCloud (devices t) c = (devices (cloudStep t c).1,(cloudStep t c).2) := by
  cases c with
  | find a =>
    refine ⟨hv,.refl t,?_⟩
    rw [answerCloud,cloudStep,find_spec hv,foundType_mapFind ht]
  | findEx a =>
    obtain ⟨hvalid,hsame,hfind⟩ := findEx_spec hv a
    obtain ⟨hdev,htype⟩ := Prod.mk.inj hfind
    refine ⟨hvalid,hsame,?_⟩
    simp only [answerCloud,cloudStep,← foundType_mapFind ht,mapFindEx,hdev,htype]
  | iterator =>
    obtain ⟨hvalid,hsame,hsweep⟩ := iterator_spec hv
    refine ⟨hvalid,hsame,?_⟩
    rw [answerCloud,cloudStep,← hsweep]
  | getKeys type list n =>
    refine ⟨hv,.refl t,?_⟩
    rw [answerCloud,cloudStep,getKeys_spec]

theorem typed_map {l : List Device} {f : Device → Device}
    (hf : ∀ d ∈ l, (f d).type ≤ 9999) : Typed (l.map f) := by
  intro d hd
  obtain ⟨d',hd',rfl⟩ := List.mem_map.mp hd
  exact hf d' hd'

theorem Typed.modify {l : List Device} (h : Typed l) {a : CStr} {f : Device → Device}
    (hf : ∀ d ∈ l, (f d).type ≤ 9999) : Typed (modify Device.address a f l) := by
  refine typed_map fun d hd => ?_
  by_cases hda : d.address = a
  · rw [if_pos hda]
    exact hf d hd
  · rw [if_neg hda]
    exact h d hd

theorem answerCloud_typed {l : List Device} (h : Typed l) (c : CloudCall) :
    Typed (answerCloud l c).1 := by
  cases c with
  | find a => exact h
  | findEx a => exact h.modify h
  | iterator => exact typed_map h
  | getKeys type list n => exact h

theorem mapAdd_typed {l : List Device} (h : Typed l) (a : CStr) (v : DevType) (room : Bool) :
    Typed (mapAdd a v room l).1 := by
  cases hl : lookup Device.address a l with
  | some d =>
    simp only [mapAdd,hl]
    exact h.modify fun _ _ => v.2
  | none =>
    cases room with
    | false => simpa [mapAdd,hl] using h
    | true =>
      simp only [mapAdd,hl,if_true]
      intro d hd
      rcases List.mem_append.mp hd with hd | hd
      · exact h d hd
      · rw [List.mem_singleton.mp hd]
        exact v.2

theorem addBegin_inv {s t : System} (h : Inv s) {a : Addr} {v : DevType} {malloc : Option ℕ}
    (ht : s.step (.addBegin a v malloc) = some t) : Inv t := by
  obtain ⟨table,pc,device,cloud⟩ := s
  cases pc with
  | idle =>
    obtain ⟨hfree,ht⟩ := Option.ite_none_right_eq_some.mp ht
    cases ht
    have hm : ∀ p, malloc = some p → table.heap p = none := by
      rintro p rfl
      simpa using hfree
    obtain ⟨hvalid,hsame,hready⟩ := addLookup_spec (a:=a.1) (v:=v.1) h.valid hm
    refine ⟨hvalid,hready,?_,?_⟩
    · show Typed (devices (addLookup table a v malloc).1)
      rw [hsame]
      exact h.typed
    · show Explained (devices (addLookup table a v malloc).1) (device++[]) cloud
      rw [hsame]
      exact h.explained
  | adding _ _ _ => cases ht
  | deleting _ _ => cases ht
  | freeing _ _ => cases ht

theorem addEnd_inv {s t : System} (h : Inv s) (ht : s.step .addEnd = some t) : Inv t := by
  obtain ⟨table,pc,device,cloud⟩ := s
  cases pc with
  | adding a v plan =>
    cases ht
    obtain ⟨hvalid,hadd⟩ := addLocked_spec h.valid a.2 h.pc
    obtain ⟨hdev,hret⟩ := Prod.ext_iff.mp hadd
    have hans : answer (devices table) (.add a v (hasRoom plan)) =
        (devices (addLocked table v true plan).1,.code (addLocked table v true plan).2) := by
      rw [answer,← hdev,← hret]
    refine ⟨hvalid,trivial,?_,?_⟩
    · have htyped := mapAdd_typed h.typed a v (hasRoom plan)
      rwa [← hdev] at htyped
    · have hexp := h.explained.device hans rfl
      simpa [System.committed] using hexp
  | idle => cases ht
  | deleting _ _ => cases ht
  | freeing _ _ => cases ht

theorem deleteBegin_inv {s t : System} (h : Inv s) {a : Addr}
    (ht : s.step (.deleteBegin a) = some t) : Inv t := by
  obtain ⟨table,pc,device,cloud⟩ := s
  cases pc with
  | idle =>
    cases hf : hashFindStr table a with
    | none =>
      simp only [System.step,hf,Option.some.injEq] at ht
      subst ht
      refine ⟨h.valid,trivial,h.typed,?_⟩
      have hans : answer (devices table) (.delete a) = (devices table,.code (-1)) := by
        rw [answer,mapDelete_of_absent hf]
      have hexp := h.explained.device hans rfl
      simpa [System.committed] using hexp
    | some p =>
      simp only [System.step,hf,Option.some.injEq] at ht
      subst ht
      exact ⟨h.valid,linkedAt_of_find hf,h.typed,h.explained⟩
  | adding _ _ _ => cases ht
  | deleting _ _ => cases ht
  | freeing _ _ => cases ht

/-- The deletion takes effect here, with the pointer that the unlocked search found. -/
theorem deleteLocked_inv {s t : System} (h : Inv s) (ht : s.step .deleteLocked = some t) :
    Inv t := by
  obtain ⟨table,pc,device,cloud⟩ := s
  cases pc with
  | deleting a p =>
    cases ht
    have hp : LinkedAt table p a := h.pc
    obtain ⟨hvalid,hdev,hgone⟩ := hashDel_spec h.valid hp
    have hans : answer (devices table) (.delete a) = (devices (hashDel table p),.code 0) := by
      rw [answer,mapDelete_of_linkedAt hp,hdev]
    refine ⟨hvalid,⟨hgone,?_⟩,?_,?_⟩
    · obtain ⟨-,e,he,-⟩ := hp
      exact ⟨e,he⟩
    · show Typed (devices (hashDel table p))
      rw [hdev]
      exact fun d hd => h.typed d (List.mem_of_mem_filter hd)
    · have hexp := h.explained.device hans rfl
      simpa [System.committed] using hexp
  | idle => cases ht
  | adding _ _ _ => cases ht
  | freeing _ _ => cases ht

theorem deleteEnd_inv {s t : System} (h : Inv s) (ht : s.step .deleteEnd = some t) : Inv t := by
  obtain ⟨table,pc,device,cloud⟩ := s
  cases pc with
  | freeing a p =>
    cases ht
    obtain ⟨hvalid,hsame⟩ := free_spec h.valid h.pc.1
    refine ⟨hvalid,trivial,?_,?_⟩
    · show Typed (devices (free table p))
      rw [hsame]
      exact h.typed
    · show Explained (devices (free table p)) (device++[_]++[]) cloud
      rw [hsame,List.append_nil]
      exact h.explained
  | idle => cases ht
  | adding _ _ _ => cases ht
  | deleting _ _ => cases ht

theorem deleteAll_inv {s t : System} (h : Inv s) (ht : s.step .deleteAll = some t) : Inv t := by
  obtain ⟨table,pc,device,cloud⟩ := s
  cases pc with
  | idle =>
    cases ht
    obtain ⟨hvalid,hdev⟩ := deleteAll_spec table
    have hans : answer (devices table) .deleteAll =
        (devices (subdevAddressHashDeleteAll table true),.done) := by
      rw [answer,hdev]
    refine ⟨hvalid,trivial,?_,?_⟩
    · show Typed (devices (subdevAddressHashDeleteAll table true))
      rw [hdev]
      intro d hd
      cases hd
    · have hexp := h.explained.device hans rfl
      simpa [System.committed] using hexp
  | adding _ _ _ => cases ht
  | deleting _ _ => cases ht
  | freeing _ _ => cases ht

theorem cloud_inv {s t : System} (h : Inv s) {c : CloudCall} (ht : s.step (.cloud c) = some t) :
    Inv t := by
  cases ht
  obtain ⟨hvalid,hsame,hans⟩ := cloudStep_spec h.valid h.typed c
  refine ⟨hvalid,h.pc.sameKeys hsame,?_,h.explained.cloud hans⟩
  have htyped := answerCloud_typed h.typed c
  rwa [hans] at htyped

theorem step_inv (s : System) (l : Label) (t : System) (h : Inv s) (ht : s.step l = some t) :
    Inv t := by
  cases l with
  | addBegin a v malloc => exact addBegin_inv h ht
  | addEnd => exact addEnd_inv h ht
  | deleteBegin a => exact deleteBegin_inv h ht
  | deleteLocked => exact deleteLocked_inv h ht
  | deleteEnd => exact deleteEnd_inv h ht
  | deleteAll => exact deleteAll_inv h ht
  | cloud c => exact cloud_inv h ht

theorem init_inv : Inv System.init :=
  ⟨empty_valid,trivial,fun _ hd => (nomatch hd),⟨[],rfl,rfl,rfl⟩⟩

theorem uses_allocated {s : System} (h : Inv s) (l : Label) :
    ∀ p ∈ s.uses l, ∃ e, s.table.heap p = some e := by
  obtain ⟨table,pc,device,cloud⟩ := s
  have hlinked : ∀ p ∈ table.order, ∃ e, table.heap p = some e := h.valid.alloc
  cases l with
  | addEnd =>
    cases pc with
    | adding a v plan =>
      cases plan with
      | mallocFailed => exact hlinked
      | link p => exact List.forall_mem_cons.mpr ⟨⟨_,h.pc.2.1⟩,hlinked⟩
      | retype p =>
        obtain ⟨-,e,he,-⟩ := h.pc
        exact List.forall_mem_cons.mpr ⟨⟨e,he⟩,hlinked⟩
    | idle => exact hlinked
    | deleting _ _ => exact hlinked
    | freeing _ _ => exact hlinked
  | deleteLocked =>
    cases pc with
    | deleting a p =>
      obtain ⟨-,e,he,-⟩ := h.pc
      exact List.forall_mem_cons.mpr ⟨⟨e,he⟩,hlinked⟩
    | idle => exact hlinked
    | adding _ _ _ => exact hlinked
    | freeing _ _ => exact hlinked
  | deleteEnd =>
    cases pc with
    | freeing a p => exact List.forall_mem_singleton.mpr h.pc.2
    | idle => exact fun _ hp => nomatch hp
    | adding _ _ _ => exact fun _ hp => nomatch hp
    | deleting _ _ => exact fun _ hp => nomatch hp
  | addBegin _ _ _ => exact hlinked
  | deleteBegin _ => exact hlinked
  | deleteAll => exact hlinked
  | cloud _ => exact hlinked

def doorAddr : Addr := ⟨⟨[49,52],by decide⟩,by decide⟩
def doorType : DevType := ⟨1203,by decide⟩

end SubdevThreads
end IotBase
