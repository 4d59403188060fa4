import IotBase.LabelledRun
import IotBase.KeyedHistory
import IotBase.MapfileRow

/-! Whole runs of the store against the finite map it is for. The searches compare
`strlen(key)` bytes only and a deletion leaves a hole, so the store is that map
exactly along runs whose calls are not misdirected. -/
namespace IotBase
namespace MapfileRefinement
open RawBytes CString MapfileItem MapfileStore MapfileFile MapfileRow KeyedHistory LabelledRun

/-- Keys as the header restricts them. -/
abbrev Key := {key : CStr // key.strlen < itemMaxKeyLen}

inductive Op
  | set (key : Key) (value : Value) | get (key : Key) (len : ℤ) | del (key : Key) | emp

def Op.call (disk : Disk) : Op → Disk × Ret
  | .set key value => mapfileKvSet {} disk (some key) (some value)
  | .get key len =>
    (disk,if (mapfileKvGet false {} disk (some key) (some len)).isSome then .ok else .fail)
  | .del key => mapfileKvDel {} disk (some key)
  | .emp => mapfileKvEmp {} disk

def Op.event : Op → Ret → Option (Event CStr Value)
  | .set key value, .ok => some (.put key value)
  | .del key, .ok => some (.erase key)
  | .emp, .ok => some .clear
  | _, _ => none

/-- The file and the ghost history of successful updates. -/
structure Run where
  disk : Disk
  history : List (Event CStr Value)

def Run.step (s : Run) (op : Op) : Run where
  disk := (op.call s.disk).1
  history := s.history ++ (op.event (op.call s.disk).2).toList

def fresh : Run := ⟨(mapfileKvOpen {} none).1,[]⟩

def Run.row (s : Run) (key : CStr) : List KvItem := rowAt (s.disk.getD []) (hashGen key)

/-- The call's search does not stop at a slot of another key, and a deletion takes the
last live slot of the row. -/
def Directed (s : Run) : Op → Prop
  | .set key value => 0 < value.len → ExactHit key (s.row key)
  | .del key => RmExact key (s.row key)
  | _ => True

def readOut (v : Value) (n : ℤ) : ℤ × Bytes :=
  let m := min n (min v.len itemMaxValLen)
  (m,v.bytes.take m.toNat)

/-- The file holds exactly the map of the history. -/
structure Refines (s : Run) (file : Bytes) : Prop where
  disk : s.disk = some file
  length : file.length = fileLen
  rows : ∀ i < tableColSize, RowOk i (rowAt file i)
  reads : ∀ key : Key, lookupRow key (rowAt file (hashGen key)) =
    (read s.history key).map fun v => v.bytes.take (clampLen v)
  positive : ∀ key v, read s.history key = some v → 0 < v.len

theorem clampLen_eq {v : Value} (h : 0 < v.len) :
    (clampLen v : ℤ) = min v.len (itemMaxValLen : ℤ) := by
  rw [clampLen]
  split <;> omega

theorem answer_take {v : Value} {n : ℤ} (h : 0 < v.len) (hn : 0 < n) :
    answer (v.bytes.take (clampLen v)) n = readOut v n := by
  have hlen := clampLen_readable v
  have heq := clampLen_eq h
  simp only [answer,readOut,List.length_take,Nat.min_eq_left hlen,List.take_take,heq]
  congr 2
  omega

theorem Refines.row_eq {s : Run} {file : Bytes} (h : Refines s file) (key : CStr) :
    s.row key = rowAt file (hashGen key) := by
  rw [Run.row,h.disk]
  rfl

theorem Refines.rowOk {s : Run} {file : Bytes} (h : Refines s file) (key : CStr) :
    RowOk (hashGen key) (s.row key) := by
  rw [h.row_eq]
  exact h.rows _ (hashGen_lt key)

theorem Refines.fits {s : Run} {file : Bytes} (h : Refines s file) {i : ℕ} (hi : i < tableColSize) :
    rowOff i+rowLen ≤ file.length := by
  rw [h.length]
  exact row_fits hi

theorem open_fresh : (mapfileKvOpen {} none).1 = some (List.replicate fileLen 0) := by
  rw [mapfileKvOpen_none,createHashFile,if_neg Bool.false_ne_true,if_neg Bool.false_ne_true,
    if_neg Bool.false_ne_true]
  simp [slice]

theorem refines_fresh : Refines fresh (List.replicate fileLen 0) where
  disk := by
    rw [fresh]
    exact open_fresh
  length := List.length_replicate
  rows i hi := by
    rw [rowAt_zero hi]
    exact rowOk_of_zero i fun q hq => List.eq_of_mem_replicate hq
  reads key := by
    rw [rowAt_zero (hashGen_lt key)]
    refine lookupRow_dead fun q hq => ?_
    rw [List.eq_of_mem_replicate hq]
    exact zeroItem_not_live
  positive key v h := by simp [fresh] at h

theorem Refines.putRow {s : Run} {file : Bytes} (h : Refines s file) (key : Key)
    {e : Event CStr Value} {x : Option Value} (he : ∀ m, e.apply m = Function.update m key.1 x)
    {row : List KvItem} (hlen : row.length = tableRowSize) (hrow : RowOk (hashGen key) row)
    (hlook : ∀ k, lookupRow k row = if k = key.1 then x.map fun v => v.bytes.take (clampLen v)
      else lookupRow k (rowAt file (hashGen key)))
    (hpos : ∀ v, x = some v → 0 < v.len) :
    Refines ⟨some (putRow file (hashGen key) row),s.history++[e]⟩
      (putRow file (hashGen key) row) where
  disk := rfl
  length := by rw [putRow_length,h.length]
  rows := forall_rows_putRow h.length (hashGen_lt key) hlen hrow fun i hi _ => h.rows i hi
  reads k := by
    have hfit := h.fits (hashGen_lt key)
    rw [read_concat,he]
    by_cases hkk : k.1 = key.1
    · rw [hkk,rowAt_putRow_self hfit hlen,hlook,if_pos rfl,Function.update_self]
    · rw [Function.update_of_ne hkk,← h.reads k]
      by_cases hik : hashGen key = hashGen k
      · rw [← hik,rowAt_putRow_self hfit hlen,hlook,if_neg hkk]
      · rw [rowAt_putRow_other hik hfit (h.fits (hashGen_lt k)) hlen]
  positive k v hv := by
    rw [read_concat,he] at hv
    by_cases hkk : k = key.1
    · rw [hkk,Function.update_self] at hv
      exact hpos v hv
    · rw [Function.update_of_ne hkk] at hv
      exact h.positive k v hv

theorem Refines.unchanged {s : Run} {file : Bytes} (h : Refines s file) :
    Refines ⟨s.disk,s.history++[]⟩ file := by
  rw [List.append_nil]
  exact h

section calls
variable {file : Bytes} (key : Key) (value : Value) (hfit : rowOff (hashGen key)+rowLen ≤ file.length)
include hfit

theorem call_set {row : List KvItem} (hv : 0 < value.len)
    (hput : putLoop key value (rowAt file (hashGen key)) = some row) :
    (Op.set key value).call (some file) = (some (MapfileStore.putRow file (hashGen key) row),.ok) :=
  kvSet_some hfit hv hput

theorem call_set_full (hput : putLoop key value (rowAt file (hashGen key)) = none) :
    (Op.set key value).call (some file) = (some file,.fail) := kvSet_none hfit hput

theorem call_del {row : List KvItem} (hrm : rmLoop key (rowAt file (hashGen key)) = row) :
    (Op.del key).call (some file) = (some (MapfileStore.putRow file (hashGen key) row),.ok) := by
  have hlen : row.length = tableRowSize := by rw [← hrm,rmLoop_length,rowAt_length]
  simp [Op.call,mapfileKvDel,kvDel,hashTableRm,readKvItem_ok hfit,hrm,writeKvItem_ok hfit hlen]

theorem step_set_eq (history : List (Event CStr Value)) {row : List KvItem} (hv : 0 < value.len)
    (hput : putLoop key value (rowAt file (hashGen key)) = some row) :
    Run.step ⟨some file,history⟩ (.set key value) =
      ⟨some (MapfileStore.putRow file (hashGen key) row),history++[.put key value]⟩ := by
  simp [Run.step,call_set key value hfit hv hput,Op.event]

theorem step_del_eq (history : List (Event CStr Value)) {row : List KvItem}
    (hrm : rmLoop key (rowAt file (hashGen key)) = row) :
    Run.step ⟨some file,history⟩ (.del key) =
      ⟨some (MapfileStore.putRow file (hashGen key) row),history++[.erase key]⟩ := by
  simp [Run.step,call_del key hfit hrm,Op.event]

theorem kvGet_ok {n : ℤ} (hn : 0 < n) :
    mapfileKvGet false {} (some file) (some key) (some n) =
      getLoop key n (rowAt file (hashGen key)) := by
  have hn' : ¬ n ≤ 0 := by omega
  simp [mapfileKvGet,kvGet,hn',hashTableGet,readKvItem_ok hfit]

end calls

theorem step_set {s : Run} {file : Bytes} (h : Refines s file) (key : Key) (value : Value)
    (hd : Directed s (.set key value)) : ∃ file', Refines (s.step (.set key value)) file' := by
  have hfit := h.fits (hashGen_lt key)
  by_cases hv : value.len ≤ 0
  · have hcall : (Op.set key value).call s.disk = (s.disk,.fail) := by
      simp [Op.call,mapfileKvSet,kvSet,hv]
    exact ⟨file,by simpa only [Run.step,hcall,Op.event,Option.toList_none] using h.unchanged⟩
  · have hpos : 0 < value.len := by omega
    have hexact := hd hpos
    rw [h.row_eq] at hexact
    cases hput : putLoop key value (rowAt file (hashGen key)) with
    | none =>
      have hcall := call_set_full key value hfit hput
      rw [← h.disk] at hcall
      exact ⟨file,by simpa only [Run.step,hcall,Op.event,Option.toList_none] using h.unchanged⟩
    | some row =>
      have hlen : row.length = tableRowSize := by rw [putLoop_length hput,rowAt_length]
      obtain ⟨hrow,hlook⟩ := putLoop_spec key.2 hpos (h.rows _ (hashGen_lt key)) hexact hput
      have hcall := call_set key value hfit hpos hput
      rw [← h.disk] at hcall
      refine ⟨MapfileStore.putRow file (hashGen key) row,?_⟩
      simp only [Run.step,hcall,Op.event,Option.toList_some]
      exact h.putRow key (x:=some value) (fun _ => rfl) hlen hrow hlook fun v hv =>
        Option.some.inj hv ▸ hpos

theorem step_del {s : Run} {file : Bytes} (h : Refines s file) (key : Key)
    (hd : Directed s (.del key)) : ∃ file', Refines (s.step (.del key)) file' := by
  have hfit := h.fits (hashGen_lt key)
  have hexact : RmExact key (s.row key) := hd
  rw [h.row_eq] at hexact
  obtain ⟨row,hrm⟩ : ∃ row, rmLoop key (rowAt file (hashGen key)) = row := ⟨_,rfl⟩
  have hspec := rmLoop_spec (Nat.le_of_lt key.2) (h.rows _ (hashGen_lt key)) hexact
  rw [hrm] at hspec
  obtain ⟨hrow,hlook⟩ := hspec
  have hlen : row.length = tableRowSize := by rw [← hrm,rmLoop_length,rowAt_length]
  have hcall := call_del key hfit hrm
  rw [← h.disk] at hcall
  refine ⟨MapfileStore.putRow file (hashGen key) row,?_⟩
  simp only [Run.step,hcall,Op.event,Option.toList_some]
  exact h.putRow key (x:=none) (fun _ => rfl) hlen hrow hlook fun v hv => (by cases hv)

theorem step_emp (s : Run) : Refines (s.step .emp) (List.replicate fileLen 0) where
  disk := by simp [Run.step,Op.call,mapfileKvEmp]
  length := List.length_replicate
  rows := refines_fresh.rows
  reads key := by
    have hread : read (s.step .emp).history key = none := by
      simp [Run.step,Op.call,mapfileKvEmp,Op.event,read_concat,Event.apply]
    rw [hread]
    exact refines_fresh.reads key
  positive key v hv := by
    simp [Run.step,Op.call,mapfileKvEmp,Op.event,read_concat,Event.apply] at hv

/-- One directed call keeps the file a refinement of the history. -/
theorem step_refines {s : Run} {op : Op} (h : ∃ file, Refines s file) (hd : Directed s op) :
    ∃ file, Refines (s.step op) file := by
  obtain ⟨file,h⟩ := h
  cases op with
  | set key value => exact step_set h key value hd
  | get key len =>
    refine ⟨file,?_⟩
    have hevent : ∀ r, (Op.get key len).event r = none := fun r => by cases r <;> rfl
    simpa only [Run.step,Op.call,hevent,Option.toList_none] using h.unchanged
  | del key => exact step_del h key hd
  | emp => exact ⟨_,step_emp s⟩

theorem run_refines (ops : List Op)
    (hops : Meets (fun s op => some (Run.step s op)) Directed fresh ops) :
    ∃ file, Refines (ops.foldl Run.step fresh) file :=
  foldl_invariant (fun _ _ => step_refines) ops ⟨_,refines_fresh⟩ hops

theorem Refines.get {s : Run} {file : Bytes} (h : Refines s file) (key : Key) {n : ℤ} (hn : 0 < n) :
    mapfileKvGet false {} s.disk (some key) (some n) =
      (searchHit key (s.row key)).map fun p => answer (stored p) n := by
  rw [h.row_eq,← getLoop_eq (Nat.le_of_lt key.2) (h.rows _ (hashGen_lt key)) hn,h.disk]
  exact kvGet_ok key (h.fits (hashGen_lt key)) hn

/-- A get of `key` answers what the last successful set of it stored, cut to the buffer
and to `ITEM_MAX_VAL_LEN`, and fails when no such set is in force. -/
def ReadsLastSet (s : Run) (key : Key) (n : ℤ) : Prop :=
  mapfileKvGet false {} s.disk (some key) (some n) = (read s.history key).map (readOut · n)

theorem Refines.lookup_answer {s : Run} {file : Bytes} (h : Refines s file) (key : Key) {n : ℤ}
    (hn : 0 < n) : (lookupRow key (s.row key)).map (answer · n) =
      (read s.history key).map (readOut · n) := by
  rw [h.row_eq,h.reads key,Option.map_map]
  cases hread : read s.history key with
  | none => rfl
  | some v => exact congrArg some (answer_take (h.positive key v hread) hn)

/-- Along a run of directed calls the store is the finite map of the successful updates,
for exactly those keys whose search is not stopped by a longer key. -/
theorem kv_get_reads_last_set (ops : List Op)
    (hops : Meets (fun s op => some (Run.step s op)) Directed fresh ops) (key : Key) (n : ℤ)
    (hn : 0 < n) :
    ReadsLastSet (ops.foldl Run.step fresh) key n ↔
      ExactHit key ((ops.foldl Run.step fresh).row key) := by
  obtain ⟨file,h⟩ := run_refines ops hops
  have hk := Nat.le_of_lt key.2
  have hrow : RowOk (hashGen key) ((ops.foldl Run.step fresh).row key) := h.rowOk key
  rw [ReadsLastSet,h.get key hn,← h.lookup_answer key hn]
  constructor
  · intro heq
    by_contra hex
    -- a misdirected search succeeds although the key is not stored
    rw [lookupRow_of_not_exact hk hrow hex,Option.map_none,Option.map_eq_none_iff] at heq
    exact hex ((exactHit_iff hk).mpr fun p hp => by simp [heq] at hp)
  · intro hex
    rw [← searchHit_stored hk hrow hex,Option.map_map]
    rfl

/-- Two keys of row 227, "ab" and "bA". -/
def keyAB : Key := ⟨⟨[97,98],by decide⟩,by decide⟩
def keyBA : Key := ⟨⟨[98,65],by decide⟩,by decide⟩
def oneByte : Value := ⟨[1],1,by decide⟩

theorem fresh_eq : fresh = ⟨some (List.replicate fileLen 0),[]⟩ := by
  rw [← refines_fresh.disk]
  rfl

theorem putLoop_zero (key : CStr) (value : Value) :
    putLoop key value (List.replicate tableRowSize zeroItem) =
      some [insertItem zeroItem key value,zeroItem] := by
  simp [putLoop,tableRowSize,List.replicate_succ]

theorem hashTablePutRow_zero (key : CStr) {value : Value} (h : 0 < value.len) :
    hashTablePutRow false {} (some (List.replicate fileLen 0)) (some key) (some value) =
      some (hashGen key,[insertItem zeroItem key value,zeroItem]) := by
  simp only [hashTablePutRow,if_neg (Int.not_le.mpr h),readKvItem_ok (key_fits_zero key),
    rowAt_zero (hashGen_lt key),putLoop_zero]
  rfl

theorem set_keyAB_eq : ∃ file, Run.step fresh (.set keyAB oneByte) = ⟨some file,[.put keyAB oneByte]⟩ ∧
    file.length = fileLen ∧ rowAt file 227 = [insertItem zeroItem keyAB oneByte,zeroItem] := by
  have hhash : hashGen keyAB = 227 := by decide
  have hfit := key_fits_zero keyAB
  have hput : putLoop keyAB oneByte (rowAt (List.replicate fileLen 0) (hashGen keyAB)) =
      some [insertItem zeroItem keyAB oneByte,zeroItem] := by
    rw [rowAt_zero (hashGen_lt keyAB)]
    exact putLoop_zero _ _
  refine ⟨_,by rw [fresh_eq]; exact step_set_eq keyAB oneByte hfit [] (by decide) hput,by simp,?_⟩
  rw [← hhash]
  exact rowAt_putRow_self hfit rfl

theorem get_keyAB {file : Bytes} (hlen : file.length = fileLen)
    (hrow : rowAt file 227 = [insertItem zeroItem keyAB oneByte,zeroItem]) :
    mapfileKvGet false {} (some file) (some keyAB) (some 1) = some (1,[1]) := by
  have hAB : hashGen keyAB = 227 := by decide
  rw [kvGet_ok keyAB (key_fits hlen keyAB) (by decide),hAB,hrow]
  decide +kernel

theorem insertItem_keyAB_name : (insertItem zeroItem keyAB oneByte).name = [97,98] :=
  insertItem_zero_name oneByte (by decide)

theorem insertItem_keyBA_name : (insertItem zeroItem keyBA oneByte).name = [98,65] :=
  insertItem_zero_name oneByte (by decide)

theorem set_both_eq : ∃ file,
    List.foldl Run.step fresh [.set keyAB oneByte,.set keyBA oneByte] =
      ⟨some file,[.put keyAB oneByte,.put keyBA oneByte]⟩ ∧ file.length = fileLen ∧
    rowAt file 227 = [insertItem zeroItem keyAB oneByte,insertItem zeroItem keyBA oneByte] := by
  have hBA : hashGen keyBA = 227 := by decide
  obtain ⟨file,hset,hlen,hrow⟩ := set_keyAB_eq
  have hlive : (insertItem zeroItem keyAB oneByte).Live := insertItem_live _ _ (by decide)
  have hmiss : keyMatches [insertItem zeroItem keyAB oneByte,zeroItem] keyBA = false :=
    keyMatches_eq_false _ (by decide) (by rw [insertItem_keyAB_name]; decide)
  have hfit := key_fits hlen keyBA
  have hput : putLoop keyBA oneByte (rowAt file (hashGen keyBA)) =
      some [insertItem zeroItem keyAB oneByte,insertItem zeroItem keyBA oneByte] := by
    rw [hBA,hrow]
    simp [putLoop,hlive,hmiss]
  have hset' := step_set_eq keyBA oneByte hfit [.put keyAB oneByte] (by decide) hput
  refine ⟨MapfileStore.putRow file (hashGen keyBA)
    [insertItem zeroItem keyAB oneByte,insertItem zeroItem keyBA oneByte],?_,by rw [putRow_length,hlen],?_⟩
  · simp only [List.foldl_cons,List.foldl_nil,hset,hset']
    rfl
  · rw [← hBA]
    exact rowAt_putRow_self hfit rfl

/-- Deleting the key in the first slot of the row leaves a hole before the other key. -/
theorem hole_eq : ∃ file,
    List.foldl Run.step fresh [.set keyAB oneByte,.set keyBA oneByte,.del keyAB] =
      ⟨some file,[.put keyAB oneByte,.put keyBA oneByte,.erase keyAB]⟩ ∧
    file.length = fileLen ∧ rowAt file 227 = [zeroItem,insertItem zeroItem keyBA oneByte] := by
  have hAB : hashGen keyAB = 227 := by decide
  obtain ⟨file,hset,hlen,hrow⟩ := set_both_eq
  have hliveAB : (insertItem zeroItem keyAB oneByte).Live := insertItem_live _ _ (by decide)
  have hliveBA : (insertItem zeroItem keyBA oneByte).Live := insertItem_live _ _ (by decide)
  have hhit : keyMatches [insertItem zeroItem keyAB oneByte,insertItem zeroItem keyBA oneByte] keyAB =
      true := by
    rw [keyMatches_iff _ (by decide),insertItem_keyAB_name]
    exact List.prefix_refl _
  have hmiss : keyMatches [insertItem zeroItem keyBA oneByte] keyAB = false :=
    keyMatches_eq_false _ (by decide) (by rw [insertItem_keyBA_name]; decide)
  have hfit := key_fits hlen keyAB
  have hrm : rmLoop keyAB (rowAt file (hashGen keyAB)) =
      [zeroItem,insertItem zeroItem keyBA oneByte] := by
    rw [hAB,hrow]
    simp [rmLoop,hliveAB,hliveBA,hhit,hmiss]
  have hdel := step_del_eq keyAB hfit [.put keyAB oneByte,.put keyBA oneByte] hrm
  refine ⟨MapfileStore.putRow file (hashGen keyAB) [zeroItem,insertItem zeroItem keyBA oneByte],
    ?_,by rw [putRow_length,hlen],?_⟩
  · rw [List.foldl_cons,List.foldl_cons] at hset ⊢
    rw [List.foldl_nil] at hset
    simp only [List.foldl_cons,List.foldl_nil,hset,hdel]
    rfl
  · rw [← hAB]
    exact rowAt_putRow_self hfit rfl

/-- "bA" was set and never deleted, but the deletion of "ab" has made it unreadable. -/
theorem kv_get_lost_after_del :
    ¬ ReadsLastSet (List.foldl Run.step fresh [.set keyAB oneByte,.set keyBA oneByte,.del keyAB])
      keyBA 1 := by
  obtain ⟨file,hrun,hlen,hrow⟩ := hole_eq
  have hBA : hashGen keyBA = 227 := by decide
  have hfit := key_fits hlen keyBA
  have hread : read [.put keyAB.1 oneByte,.put keyBA.1 oneByte,.erase keyAB.1] keyBA.1 =
      some oneByte :=
    (read_eq_some_iff _ _ _).mpr ⟨[.put keyAB oneByte],[.erase keyAB],rfl,by
      simp only [List.mem_singleton,forall_eq,Event.Touches]
      decide⟩
  rw [ReadsLastSet,hrun]
  simp only [kvGet_ok keyBA hfit (by decide : (0 : ℤ) < 1),hBA,hrow,hread]
  simp [getLoop]

theorem set_keyAB_meets :
    Meets (fun s op => some (Run.step s op)) Directed fresh [.set keyAB oneByte] := by
  refine ⟨fun _ => ?_,fun _ _ => trivial⟩
  rw [refines_fresh.row_eq,rowAt_zero (hashGen_lt _)]
  refine (exactHit_iff (by decide)).mpr fun p hp => ?_
  simp [searchHit,tableRowSize,List.replicate_succ] at hp

theorem set_keyAB_exact :
    ExactHit keyAB ((List.foldl Run.step fresh [.set keyAB oneByte]).row keyAB) := by
  refine (exactHit_iff (by decide)).mpr fun p hp => ?_
  obtain ⟨file,hrun,hlen,hrow⟩ := set_keyAB_eq
  have hAB : hashGen keyAB = 227 := by decide
  have hspec := searchHit_spec (by decide) hp
  have hmem := hspec.1
  simp only [List.foldl_cons,List.foldl_nil,hrun,Run.row,Option.getD_some,hAB,hrow,
    List.mem_cons,List.not_mem_nil,or_false] at hmem
  rcases hmem with rfl | rfl
  · exact insertItem_zero_name oneByte (by decide)
  · exact absurd hspec.2.1 zeroItem_not_live

theorem kv_get_reads_last_set_one :
    mapfileKvGet false {} (List.foldl Run.step fresh [.set keyAB oneByte]).disk (some keyAB) (some 1) =
      some (1,[1]) := by
  have hreads : ReadsLastSet _ _ _ :=
    (kv_get_reads_last_set [.set keyAB oneByte] set_keyAB_meets keyAB 1 (by decide)).mpr set_keyAB_exact
  obtain ⟨file,hrun,-⟩ := set_keyAB_eq
  rw [List.foldl_cons,List.foldl_nil,hrun] at hreads ⊢
  exact hreads

end MapfileRefinement
end IotBase
