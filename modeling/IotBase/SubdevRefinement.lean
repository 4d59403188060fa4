import IotBase.SubdevTable

/-! What the sub-device table is for: an insertion-ordered finite map from address
to type and flag. Every part of every call keeps the table well formed and does
to the devices in it what the map operation does. -/
namespace IotBase
namespace SubdevRefinement
open RawBytes CString OrderedTable SubdevTable

abbrev Addr := {a : CStr // a.strlen < addressMaxLen}

structure Device where
  address : CStr
  type : UInt16
  flag : UInt8
  deriving DecidableEq

/-- Insert a device, unless its cell cannot be had, or update the type of a known one. -/
def mapAdd (a : CStr) (v : UInt16) (room : Bool) (l : List Device) : List Device × ℤ :=
  match lookup Device.address a l with
  | none => if room then (l++[⟨a,v,cloudDeviceNotMatch⟩],0) else (l,-1)
  | some _ => (modify Device.address a (fun d => {d with type := v}) l,0)

def mapDelete (a : CStr) (l : List Device) : List Device × ℤ :=
  match lookup Device.address a l with
  | none => (l,-1)
  | some _ => (remove Device.address a l,0)

def mapFind (a : CStr) (l : List Device) : UInt16 :=
  ((lookup Device.address a l).map Device.type).getD hashAddrTypeNoFind

def mapFindEx (a : CStr) (l : List Device) : List Device × UInt16 :=
  (modify Device.address a (fun d => {d with flag := cloudDeviceMatch}) l,mapFind a l)

def sweepFlag (flag : UInt8) : UInt8 := if flag = cloudDeviceMatch then cloudDeviceNotMatch else flag

def mapSweep (l : List Device) : List Device × List CStr :=
  (l.map fun d => {d with flag := sweepFlag d.flag},
    (l.filter fun d => decide (d.flag ≠ cloudDeviceMatch)).map Device.address)

/-- `strncpy` of the addresses into consecutive rows, the first into row `i`. -/
def fillKeys : (ℕ → Bytes) → ℕ → List CStr → ℕ → Bytes
  | list, _, [] => list
  | list, i, a::as =>
    fillKeys (Function.update list i (strncpy (list i) a (addressMaxLen-1))) (i+1) as

/-- The addresses that are copied out when row `i` is the next of `n`. -/
def keysFrom (type : UInt16) (n : ℤ) (i : ℕ) (l : List Device) : List CStr :=
  let m := (l.filter fun d => decide (d.type = type)).map Device.address
  if (i : ℤ) < n then m.take (n-i).toNat else m

def mapKeys (type : UInt16) (list : ℕ → Bytes) (n : ℤ) (l : List Device) : (ℕ → Bytes) × ℤ :=
  let m := keysFrom type n 0 l
  (fillKeys list 0 m,m.length)

def device (e : HashEntry) : Device := ⟨e.key,e.type,e.flag⟩

def devices (t : Table) : List Device := t.entries.map device

def Valid (t : Table) : Prop := Linked HashEntry.key t.heap t.order

def LinkedAt (t : Table) (p : ℕ) (a : CStr) : Prop :=
  p ∈ t.order ∧ ∃ e, t.heap p = some e ∧ e.key = a

/-- What `subdev_address_hash_add` may rely on when it takes the lock. -/
def AddReady (t : Table) (a : CStr) (v : UInt16) : AddPlan → Prop
  | .mallocFailed => lookup Device.address a (devices t) = none
  | .link p => p ∉ t.order ∧ t.heap p = some (newEntry a v) ∧
      lookup Device.address a (devices t) = none
  | .retype p => LinkedAt t p a

def hasRoom : AddPlan → Bool
  | .mallocFailed => false
  | .link _ => true
  | .retype _ => true

theorem device_address (e : HashEntry) : (device e).address = e.key := rfl

theorem empty_valid : Valid Table.empty := Linked.nil _ _

theorem find_eq_none {t : Table} {a : CStr} :
    lookup HashEntry.key a t.entries = none ↔ hashFindStr t a = none :=
  lookup_rows_eq_none fun _ => List.mem_reverse

theorem lookup_devices_eq_none {t : Table} {a : CStr} :
    lookup Device.address a (devices t) = none ↔ hashFindStr t a = none := by
  rw [devices,lookup_map device_address,Option.map_eq_none_iff,find_eq_none]

theorem linkedAt_of_find {t : Table} {a : CStr} {p : ℕ} (h : hashFindStr t a = some p) :
    LinkedAt t p a := ⟨List.mem_reverse.mp (mem_of_findCell h),cell_of_findCell h⟩

theorem lookup_devices {t : Table} {a : CStr} {p : ℕ} (hv : Valid t) (hp : LinkedAt t p a) :
    lookup Device.address a (devices t) = (t.heap p).map device := by
  obtain ⟨hmem,e,he,rfl⟩ := hp
  rw [devices,lookup_map device_address,Table.entries,hv.lookup_cell hmem he,he]

theorem Valid.addresses_nodup {t : Table} (h : Valid t) :
    ((devices t).map Device.address).Nodup := by
  have hd := h.distinct
  rw [Distinct] at hd
  rwa [devices,List.map_map]

theorem lookup_of_linkedAt {t : Table} {a : CStr} {p : ℕ} (h : LinkedAt t p a) :
    ∃ d, lookup Device.address a (devices t) = some d := by
  obtain ⟨hp,e,he,hk⟩ := h
  rw [← Option.ne_none_iff_exists',Ne,lookup_eq_none,not_not,devices,List.map_map]
  exact hk ▸ List.mem_map_of_mem (List.mem_filterMap.mpr ⟨p,hp,he⟩)

theorem write_spec {t : Table} {p : ℕ} {e : HashEntry} (hv : Valid t) (hp : p ∈ t.order)
    (he : t.heap p = some e) {f : HashEntry → HashEntry} {f' : Device → Device}
    (hf : ∀ e, (f e).key = e.key) (hf' : ∀ e, device (f e) = f' (device e)) :
    Valid (t.write p (f e)) ∧
    devices (t.write p (f e)) = modify Device.address e.key f' (devices t) := by
  refine ⟨hv.update hp he hf,?_⟩
  rw [devices,Table.entries,write_order,write_heap,hv.rows_update hp he,
    modify_map device_address hf']
  rfl

theorem setType_spec {t : Table} {a : CStr} {p : ℕ} (hv : Valid t) (hp : LinkedAt t p a)
    (v : UInt16) : Valid (setType t p v) ∧
    devices (setType t p v) = modify Device.address a (fun d => {d with type := v}) (devices t) := by
  obtain ⟨hmem,e,he,rfl⟩ := hp
  simp only [setType,he]
  exact write_spec hv hmem he (f:=fun e => {e with type := v}) (fun _ => rfl) fun _ => rfl

theorem setFlag_spec {t : Table} {a : CStr} {p : ℕ} (hv : Valid t) (hp : LinkedAt t p a)
    (flag : UInt8) : Valid (setFlag t p flag) ∧ devices (setFlag t p flag) =
      modify Device.address a (fun d => {d with flag := flag}) (devices t) := by
  obtain ⟨hmem,e,he,rfl⟩ := hp
  simp only [setFlag,he]
  exact write_spec hv hmem he (f:=fun e => {e with flag := flag}) (fun _ => rfl) fun _ => rfl

section Add

variable {t : Table} {a : CStr} {v : UInt16}

theorem addLookup_spec (hv : Valid t) {malloc : Option ℕ}
    (hm : ∀ p, malloc = some p → t.heap p = none) :
    Valid (addLookup t a v malloc).1 ∧ devices (addLookup t a v malloc).1 = devices t ∧
    AddReady (addLookup t a v malloc).1 a v (addLookup t a v malloc).2 := by
  cases hf : hashFindStr t a with
  | some p =>
    simp only [addLookup,hf]
    exact ⟨hv,trivial,linkedAt_of_find hf⟩
  | none =>
    have habsent := lookup_devices_eq_none.mpr hf
    cases malloc with
    | none =>
      simp only [addLookup,hf]
      exact ⟨hv,trivial,habsent⟩
    | some p =>
      have hp : p ∉ t.order := fun hmem => by
        obtain ⟨e,he⟩ := hv.alloc p hmem
        rw [hm p rfl] at he
        cases he
      have hsame : devices (t.write p (newEntry a v)) = devices t := by
        rw [devices,Table.entries,write_order,write_heap,rows_update_unlinked hp]
        rfl
      simp only [addLookup,hf]
      refine ⟨hv.update_unlinked hp _,hsame,hp,Function.update_self _ _ _,?_⟩
      rw [hsame]
      exact habsent

theorem addLocked_spec (hv : Valid t) (ha : a.strlen < addressMaxLen) {plan : AddPlan}
    (hp : AddReady t a v plan) :
    Valid (addLocked t v true plan).1 ∧
    (devices (addLocked t v true plan).1,(addLocked t v true plan).2) =
      mapAdd a v (hasRoom plan) (devices t) := by
  cases plan with
  | mallocFailed =>
    rw [mapAdd,show lookup Device.address a (devices t) = none from hp]
    exact ⟨hv,rfl⟩
  | link p =>
    obtain ⟨hmem,hcell,habsent⟩ := hp
    have hkey := newEntry_key v ha
    have hrows : rows t.heap (t.order++[p]) = rows t.heap t.order ++ [newEntry a v] :=
      rows_concat hcell
    refine ⟨hv.concat hmem hcell ?_,?_⟩
    · rw [hkey]
      have hnot := lookup_eq_none.mp habsent
      rwa [devices,List.map_map] at hnot
    · have hdev : devices (hashAddStr t p) = devices t ++ [⟨a,v,cloudDeviceNotMatch⟩] := by
        have hlast : device (newEntry a v) = ⟨a,v,cloudDeviceNotMatch⟩ := by
          rw [device,hkey]
          rfl
        rw [devices,Table.entries,hashAddStr,hrows,List.map_append,List.map_singleton,hlast]
        rfl
      rw [mapAdd,habsent]
      exact Prod.ext hdev rfl
  | retype p =>
    obtain ⟨hvalid,hdev⟩ := setType_spec hv hp v
    obtain ⟨d,hd⟩ := lookup_of_linkedAt hp
    refine ⟨hvalid,?_⟩
    rw [mapAdd,hd]
    exact Prod.ext hdev rfl

/-- `subdev_address_hash_add`, both parts; the cell can be had unless `malloc` fails. -/
theorem add_spec (hv : Valid t) (ha : a.strlen < addressMaxLen) {malloc : Option ℕ}
    (hm : ∀ p, malloc = some p → t.heap p = none) :
    Valid (subdevAddressHashAdd t (some a) v malloc true).1 ∧
    (devices (subdevAddressHashAdd t (some a) v malloc true).1,
      (subdevAddressHashAdd t (some a) v malloc true).2) = mapAdd a v malloc.isSome (devices t) := by
  obtain ⟨hvalid,hsame,hready⟩ := addLookup_spec (v:=v) hv hm
  obtain ⟨hvalid',hadd⟩ := addLocked_spec hvalid ha hready
  refine ⟨hvalid',hadd.trans ?_⟩
  rw [hsame]
  cases hf : hashFindStr t a with
  | none =>
    cases malloc with
    | none => simp [addLookup,hf,hasRoom]
    | some p => simp [addLookup,hf,hasRoom]
  | some p =>
    obtain ⟨d,hd⟩ := lookup_of_linkedAt (linkedAt_of_find hf)
    rw [mapAdd,mapAdd,hd]

end Add

section Delete

variable {t : Table} {a : CStr} {p : ℕ}

theorem hashDel_spec (hv : Valid t) (hp : LinkedAt t p a) :
    Valid (hashDel t p) ∧ devices (hashDel t p) = remove Device.address a (devices t) ∧
    p ∉ (hashDel t p).order := by
  obtain ⟨hmem,e,he,rfl⟩ := hp
  refine ⟨hv.erase p,?_,hv.nodup.not_mem_erase⟩
  rw [devices,devices,Table.entries,Table.entries,hashDel,hv.rows_erase hmem he,
    remove_map device_address]

theorem free_spec (hv : Valid t) (hp : p ∉ t.order) :
    Valid (free t p) ∧ devices (free t p) = devices t := by
  refine ⟨hv.update_unlinked hp none,?_⟩
  rw [devices,devices,Table.entries,Table.entries,free,rows_update_unlinked hp]

theorem mapDelete_of_linkedAt (hp : LinkedAt t p a) :
    mapDelete a (devices t) = (remove Device.address a (devices t),0) := by
  obtain ⟨d,hd⟩ := lookup_of_linkedAt hp
  rw [mapDelete,hd]

theorem mapDelete_of_absent (h : hashFindStr t a = none) : mapDelete a (devices t) = (devices t,-1) := by
  rw [mapDelete,lookup_devices_eq_none.mpr h]

theorem delete_spec (hv : Valid t) (a : CStr) :
    Valid (subdevAddressHashDelete t (some a) true).1 ∧
    (devices (subdevAddressHashDelete t (some a) true).1,
      (subdevAddressHashDelete t (some a) true).2) = mapDelete a (devices t) := by
  cases hf : hashFindStr t a with
  | none =>
    simp only [subdevAddressHashDelete,hf]
    exact ⟨hv,(mapDelete_of_absent hf).symm⟩
  | some p =>
    have hp := linkedAt_of_find hf
    obtain ⟨hdel,hdev,hgone⟩ := hashDel_spec hv hp
    obtain ⟨hfree,hsame⟩ := free_spec hdel hgone
    simp only [subdevAddressHashDelete,hf,if_true]
    refine ⟨hfree,?_⟩
    rw [hsame,hdev,mapDelete_of_linkedAt hp]

theorem deleteAllLoop_order : ∀ (ps : List ℕ) (t : Table), t.order = ps →
    (deleteAllLoop ps t).order = []
  | [], _, h => h
  | p::ps, t, h => deleteAllLoop_order ps _ (by
      rw [free_order,hashDel,h,List.erase_cons_head])

theorem deleteAll_spec (t : Table) :
    Valid (subdevAddressHashDeleteAll t true) ∧ devices (subdevAddressHashDeleteAll t true) = [] := by
  have horder : (subdevAddressHashDeleteAll t true).order = [] := deleteAllLoop_order t.order t rfl
  rw [Valid,devices,Table.entries,horder]
  exact ⟨Linked.nil _ _,rfl⟩

end Delete

/-- The other thread's view of a call that touches flags only: the same links, and
every entry keeps its address. -/
structure SameKeys (t u : Table) : Prop where
  order : u.order = t.order
  unlinked : ∀ p ∉ t.order, u.heap p = t.heap p
  key : ∀ p, (u.heap p).map HashEntry.key = (t.heap p).map HashEntry.key

theorem SameKeys.refl (t : Table) : SameKeys t t := ⟨rfl,fun _ _ => rfl,fun _ => rfl⟩

theorem setFlag_sameKeys {t : Table} {p : ℕ} (hp : p ∈ t.order) (flag : UInt8) :
    SameKeys t (setFlag t p flag) := by
  cases he : t.heap p with
  | none =>
    simp only [setFlag,he]
    exact .refl t
  | some e =>
    simp only [setFlag,he]
    refine ⟨rfl,fun q hq => Function.update_of_ne (ne_of_mem_of_not_mem hp hq).symm _ _,fun q => ?_⟩
    by_cases hqp : q = p
    · rw [hqp,write_heap,Function.update_self,he]
      rfl
    · rw [write_heap,Function.update_of_ne hqp]

theorem SameKeys.linkedAt {t u : Table} (h : SameKeys t u) {p : ℕ} {a : CStr}
    (hp : LinkedAt t p a) : LinkedAt u p a := by
  obtain ⟨hmem,e,he,hk⟩ := hp
  refine ⟨h.order ▸ hmem,?_⟩
  have hkey := h.key p
  rw [he] at hkey
  simpa [hk] using hkey

theorem SameKeys.addresses {t u : Table} (h : SameKeys t u) :
    (devices u).map Device.address = (devices t).map Device.address := by
  have haddr : ∀ t : Table, (devices t).map Device.address =
      t.order.filterMap fun p => (t.heap p).map HashEntry.key := by
    intro t
    rw [devices,Table.entries,rows,List.map_map,List.map_filterMap]
    rfl
  rw [haddr,haddr,h.order]
  exact List.filterMap_congr fun p _ => h.key p

theorem SameKeys.absent {t u : Table} (h : SameKeys t u) {a : CStr}
    (ha : lookup Device.address a (devices t) = none) :
    lookup Device.address a (devices u) = none := by
  rw [lookup_eq_none,h.addresses]
  exact lookup_eq_none.mp ha

theorem SameKeys.addReady {t u : Table} (h : SameKeys t u) {a : CStr} {v : UInt16}
    {plan : AddPlan} (hp : AddReady t a v plan) : AddReady u a v plan := by
  cases plan with
  | mallocFailed => exact h.absent hp
  | link p =>
    obtain ⟨hmem,hcell,habsent⟩ := hp
    exact ⟨h.order ▸ hmem,(h.unlinked p hmem).trans hcell,h.absent habsent⟩
  | retype p => exact h.linkedAt hp

section Find

variable {t : Table}

theorem typeAt_of_find (hv : Valid t) {a : CStr} {p : ℕ} (h : hashFindStr t a = some p) :
    typeAt t p = mapFind a (devices t) := by
  obtain ⟨e,he,-⟩ := (linkedAt_of_find h).2
  rw [mapFind,lookup_devices hv (linkedAt_of_find h),typeAt,he]
  rfl

theorem find_spec (hv : Valid t) (a : CStr) :
    subdevAddressHashFind t (some a) true = mapFind a (devices t) := by
  cases hf : hashFindStr t a with
  | none =>
    simp only [subdevAddressHashFind,hf,if_true]
    rw [mapFind,lookup_devices_eq_none.mpr hf]
    rfl
  | some p =>
    simp only [subdevAddressHashFind,hf,if_true]
    exact typeAt_of_find hv hf

theorem findEx_spec (hv : Valid t) (a : CStr) :
    Valid (subdevAddressHashFindEx t (some a) true).1 ∧
    SameKeys t (subdevAddressHashFindEx t (some a) true).1 ∧
    (devices (subdevAddressHashFindEx t (some a) true).1,
      (subdevAddressHashFindEx t (some a) true).2) = mapFindEx a (devices t) := by
  cases hf : hashFindStr t a with
  | none =>
    have habsent := lookup_devices_eq_none.mpr hf
    simp only [subdevAddressHashFindEx,hf,if_true]
    refine ⟨hv,.refl t,?_⟩
    rw [mapFindEx,modify_of_notMem (lookup_eq_none.mp habsent),mapFind,habsent]
    rfl
  | some p =>
    have hp := linkedAt_of_find hf
    obtain ⟨hvalid,hdev⟩ := setFlag_spec hv hp cloudDeviceMatch
    simp only [subdevAddressHashFindEx,hf,if_true]
    refine ⟨hvalid,setFlag_sameKeys hp.1 _,?_⟩
    rw [mapFindEx,← typeAt_of_find hv hf,hdev]

end Find

section Iterator

def sweepEntry (e : HashEntry) : HashEntry := {e with flag := sweepFlag e.flag}

theorem sweepEntry_key (e : HashEntry) : (sweepEntry e).key = e.key := rfl

theorem sweepEntry_of_match {e : HashEntry} (h : e.flag = cloudDeviceMatch) :
    sweepEntry e = {e with flag := cloudDeviceNotMatch} := by
  rw [sweepEntry,sweepFlag,if_pos h]

theorem sweepEntry_of_not_match {e : HashEntry} (h : e.flag ≠ cloudDeviceMatch) :
    sweepEntry e = e := by
  rw [sweepEntry,sweepFlag,if_neg h]

/-- The iteration sweeps exactly the cells it visits and reports the unmarked ones in order. -/
theorem iteratorLoop_spec : ∀ (ps : List ℕ) (t : Table), ps.Nodup →
    (iteratorLoop ps t).1.order = t.order ∧
    (∀ p ∈ ps, (iteratorLoop ps t).1.heap p = (t.heap p).map sweepEntry) ∧
    (∀ p ∉ ps, (iteratorLoop ps t).1.heap p = t.heap p) ∧
    (iteratorLoop ps t).2 =
      ((rows t.heap ps).filter fun e => decide (e.flag ≠ cloudDeviceMatch)).map HashEntry.key
  | [], t, _ => ⟨rfl,fun _ h => (by cases h),fun _ _ => rfl,rfl⟩
  | p::ps, t, hn => by
    obtain ⟨hp,hps⟩ := List.nodup_cons.mp hn
    cases he : t.heap p with
    | none =>
      obtain ⟨horder,hin,hout,hcalls⟩ := iteratorLoop_spec ps t hps
      simp only [iteratorLoop,he]
      refine ⟨horder,fun q hq => ?_,fun q hq => hout q fun h => hq (List.mem_cons_of_mem _ h),?_⟩
      · rcases List.mem_cons.mp hq with rfl | hq
        · rw [hout q hp,he]
          rfl
        · exact hin q hq
      · rw [hcalls,rows,rows,List.filterMap_cons_none he]
    | some e =>
      by_cases hm : e.flag = cloudDeviceMatch
      · have hset : setFlag t p cloudDeviceNotMatch = t.write p (sweepEntry e) := by
          simp only [setFlag,he]
          rw [sweepEntry_of_match hm]
        obtain ⟨horder,hin,hout,hcalls⟩ := iteratorLoop_spec ps (t.write p (sweepEntry e)) hps
        simp only [iteratorLoop,he,if_pos hm,hset]
        refine ⟨horder,fun q hq => ?_,fun q hq => ?_,?_⟩
        · by_cases hqp : q = p
          · rw [hqp,hout p hp,write_heap,Function.update_self,he]
            rfl
          · rw [hin q ((List.mem_cons.mp hq).resolve_left hqp),write_heap,
              Function.update_of_ne hqp]
        · rw [hout q fun h => hq (List.mem_cons_of_mem _ h),write_heap,
            Function.update_of_ne (ne_of_mem_of_not_mem List.mem_cons_self hq).symm]
        · rw [hcalls,write_heap,rows_update_unlinked hp,rows,rows,List.filterMap_cons_some he,
            List.filter_cons_of_neg (by simp [hm])]
      · obtain ⟨horder,hin,hout,hcalls⟩ := iteratorLoop_spec ps t hps
        simp only [iteratorLoop,he,if_neg hm]
        refine ⟨horder,fun q hq => ?_,fun q hq => hout q fun h => hq (List.mem_cons_of_mem _ h),?_⟩
        · by_cases hqp : q = p
          · rw [hqp,hout p hp,he,Option.map_some,sweepEntry_of_not_match hm]
          · exact hin q ((List.mem_cons.mp hq).resolve_left hqp)
        · rw [hcalls,rows,rows,List.filterMap_cons_some he,
            List.filter_cons_of_pos (by simp [hm]),List.map_cons]

theorem iterator_spec {t : Table} (hv : Valid t) :
    Valid (subdevAddressHashIterator t true).1 ∧
    SameKeys t (subdevAddressHashIterator t true).1 ∧
    (devices (subdevAddressHashIterator t true).1,(subdevAddressHashIterator t true).2) =
      mapSweep (devices t) := by
  obtain ⟨horder,hin,hout,hcalls⟩ := iteratorLoop_spec t.order t hv.nodup
  rw [subdevAddressHashIterator,if_pos rfl]
  have hrows : rows (iteratorLoop t.order t).1.heap (iteratorLoop t.order t).1.order =
      (rows t.heap t.order).map sweepEntry := by
    rw [horder,rows,rows,List.map_filterMap]
    exact List.filterMap_congr hin
  refine ⟨⟨fun p hp => ?_,horder.symm ▸ hv.nodup,?_⟩,⟨horder,hout,fun p => ?_⟩,?_⟩
  · rw [horder] at hp
    obtain ⟨e,he⟩ := hv.alloc p hp
    exact ⟨sweepEntry e,by rw [hin p hp,he,Option.map_some]⟩
  · rw [Distinct,hrows,map_key_map sweepEntry_key]
    exact hv.distinct
  · by_cases hp : p ∈ t.order
    · rw [hin p hp,Option.map_map]
      rfl
    · rw [hout p hp]
  · refine Prod.ext ?_ ?_
    · rw [devices,Table.entries,hrows,mapSweep,devices,List.map_map,List.map_map]
      rfl
    · simp only [hcalls,mapSweep,devices,List.filter_map,List.map_map]
      rfl

end Iterator

section GetKeys

variable {type : UInt16} {n : ℤ} {i : ℕ} {d : Device} {l : List Device}

theorem keysFrom_cons_miss (h : d.type ≠ type) :
    keysFrom type n i (d::l) = keysFrom type n i l := by
  rw [keysFrom,keysFrom,List.filter_cons_of_neg (by simpa using h)]

theorem keysFrom_cons_last (h : d.type = type) (hi : ((i+1 : ℕ) : ℤ) = n) :
    keysFrom type n i (d::l) = [d.address] := by
  have hroom : (n-i).toNat = 1 := by omega
  rw [keysFrom,List.filter_cons_of_pos (by simpa using h),if_pos (by omega),hroom]
  rfl

theorem keysFrom_cons_hit (h : d.type = type) (hi : ((i+1 : ℕ) : ℤ) ≠ n) :
    keysFrom type n i (d::l) = d.address::keysFrom type n (i+1) l := by
  rw [keysFrom,keysFrom,List.filter_cons_of_pos (by simpa using h),List.map_cons]
  by_cases hroom : (i : ℤ) < n
  · have hnext : (n-i).toNat = (n-(i+1 : ℕ)).toNat+1 := by omega
    rw [if_pos hroom,if_pos (by omega),hnext,List.take_succ_cons]
  · rw [if_neg hroom,if_neg (by omega)]

theorem getKeysLoop_eq (t : Table) (ps : List ℕ) (list : ℕ → Bytes) (i : ℕ) :
    getKeysLoop t type n ps list i =
      (fillKeys list i (keysFrom type n i ((rows t.heap ps).map device)),
        i+(keysFrom type n i ((rows t.heap ps).map device)).length) := by
  induction ps generalizing list i with
  | nil => simp [getKeysLoop,rows,keysFrom,fillKeys]
  | cons p ps ih =>
    cases he : t.heap p with
    | none =>
      simp only [getKeysLoop,he]
      rw [ih,rows,rows,List.filterMap_cons_none he]
    | some e =>
      rw [rows,List.filterMap_cons_some he,List.map_cons,← rows]
      by_cases ht : e.type = type
      · by_cases hi : ((i+1 : ℕ) : ℤ) = n
        · rw [keysFrom_cons_last (d:=device e) ht hi]
          simp only [getKeysLoop,he,if_pos ht,if_pos hi]
          rfl
        · rw [keysFrom_cons_hit (d:=device e) ht hi]
          simp only [getKeysLoop,he,if_pos ht,if_neg hi,ih,List.length_cons]
          rw [Nat.add_right_comm,Nat.add_assoc]
          rfl
      · rw [keysFrom_cons_miss (d:=device e) ht]
        simp only [getKeysLoop,he,if_neg ht]
        exact ih list i

theorem getKeys_spec (t : Table) (type : UInt16) (list : ℕ → Bytes) (n : ℤ) :
    subdevAddressHashGetKeys t type list n true = mapKeys type list n (devices t) := by
  rw [subdevAddressHashGetKeys,if_pos rfl,getKeysLoop_eq,Nat.zero_add]
  rfl

end GetKeys

end SubdevRefinement
end IotBase
