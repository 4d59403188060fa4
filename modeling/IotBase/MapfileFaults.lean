import IotBase.MapfileRefinement
import IotBase.MapfileTear

/-! What a failing call leaves in the file. The row is rewritten in place and the file
is emptied before it is extended again, with nothing to roll back to: a write that
stops half-way and a failure after `fopen(.., "w")` are visible afterwards. -/
namespace IotBase
namespace MapfileFaults
open RawBytes CString MapfileItem MapfileStore MapfileFile MapfileRow MapfileTear
open MapfileRefinement (keyAB keyBA oneByte set_keyAB_eq get_keyAB)

/-- An updating call together with the system calls that fail in it. -/
inductive Call
  | set (f : Faults) (key : Option CStr) (value : Option Value)
  | del (f : Faults) (key : Option CStr)
  | emp (f : EmpFaults)

def Call.run (disk : Disk) : Call → Disk × Ret
  | .set f key value => mapfileKvSet f disk key value
  | .del f key => mapfileKvDel f disk key
  | .emp f => mapfileKvEmp f disk

/-- The same calls, with a `write` that does not stop. -/
def whole (f : Faults) : Faults := {f with write := {f.write with write := .complete}}

def SameReads (disk disk' : Disk) (key : Option CStr) : Prop :=
  ∀ buf, mapfileKvGet false {} disk' key buf = mapfileKvGet false {} disk key buf

/-- The file has the size that `write_kv_item` asks for in every row. -/
def FullSize (disk : Disk) : Prop := ∃ file, disk = some file ∧ fileLen ≤ file.length

/-- All gets answer as before, and a file of full size still has it. -/
def Atomic (disk disk' : Disk) : Prop :=
  (∀ key, SameReads disk disk' key) ∧ (FullSize disk → FullSize disk')

/-- A part of the row can reach the file without the rest, or the file has been emptied. -/
def Call.Interrupted : Call → Prop
  | .set f _ _ => ∃ n, 0 < n ∧ f.write.write = .short n
  | .del f _ => ∃ n, 0 < n ∧ f.write.write = .short n
  | .emp f => f.fopenFails = false

/-- The bytes of the file where `write` can have stopped: as before, or the row of the key begins with
what the whole call writes there. -/
def TornBytes (w : WriteResult) (key : Option CStr) (disk done disk' : Disk) : Prop :=
  disk' = disk ∨ ∃ k file whole n, key = some k ∧ disk = some file ∧ done = some whole ∧
    w = .short n ∧ n < rowLen ∧ rowOff (hashGen k)+rowLen ≤ file.length ∧
    disk' = some (splice file (rowOff (hashGen k)) (slice whole (rowOff (hashGen k)) n))

/-- What an interrupted set or deletion leaves, where the whole call leaves `done`: the size of the file,
the other rows, and whatever the whole call would leave as it reads. -/
structure Torn (w : WriteResult) (key : Option CStr) (disk done disk' : Disk) : Prop where
  bytes : TornBytes w key disk done disk'
  size : disk'.map List.length = disk.map List.length
  rows : ∀ k, key.map hashGen ≠ some (hashGen k) → SameReads disk disk' (some k)
  spared : ∀ k : CStr, k.strlen ≤ itemMaxKeyLen → SameReads disk done (some k) →
    SameReads disk disk' (some k)

/-- What an interrupted call leaves; of an emptied file, nothing or a full-size file of zeros. -/
def Call.Leaves (disk disk' : Disk) : Call → Prop
  | .set f key value => Torn f.write.write key disk (mapfileKvSet (whole f) disk key value).1 disk'
  | .del f key => Torn f.write.write key disk (mapfileKvDel (whole f) disk key).1 disk'
  | .emp f => disk' = some (if f.truncateFails then [] else List.replicate fileLen 0) ∧
      ∀ key buf, mapfileKvGet false {} disk' key buf = none

theorem writeKvItem_fail {f : WriteFaults} {disk : Disk} {kv : List KvItem} {i : ℕ}
    (hkv : kv.length = tableRowSize) (h : (writeKvItem f disk kv i).2 = .fail) :
    (writeKvItem f disk kv i).1 = disk ∨
      ∃ file n, disk = some file ∧ rowOff i+rowLen ≤ file.length ∧ f.write = .short n ∧ n < rowLen ∧
        (writeKvItem f disk kv i).1 = some (splice file (rowOff i) ((encodeRow kv).take n)) ∧
        (writeKvItem {f with write := .complete} disk kv i).1 = some (putRow file i kv) := by
  rcases writeKvItem_writes f disk kv i with hfail | ⟨file,rfl,hfit,hw⟩
  · exact Or.inl (congrArg Prod.fst (hfail f.write))
  · have hself : writeKvItem f (some file) kv i = _ := hw f.write
    rw [hself] at h ⊢
    cases hwrite : f.write with
    | complete => simp [hwrite,WriteResult.count] at h
    | error => exact Or.inl (by simp [WriteResult.count,splice])
    | short n =>
      right
      have hn : n < rowLen := by
        by_contra hge
        simp [hwrite,WriteResult.count,Nat.min_eq_right (by omega : rowLen ≤ n)] at h
      refine ⟨file,n,rfl,hfit,rfl,hn,?_,?_⟩
      · simp [WriteResult.count,Nat.min_eq_left (Nat.le_of_lt hn)]
      · rw [hw]
        simp [WriteResult.count,take_encodeRow hkv,putRow]

theorem sameReads_of_row {file file' : Bytes} {k : CStr} (hlen : file'.length = file.length)
    (hrow : rowOff (hashGen k)+rowLen ≤ file.length →
      rowAt file' (hashGen k) = rowAt file (hashGen k)) :
    SameReads (some file) (some file') (some k) := by
  have hread : readKvItem {} (some file') (hashGen k) = readKvItem {} (some file) (hashGen k) := by
    by_cases hfit : rowOff (hashGen k)+rowLen ≤ file.length
    · have hfit' : rowOff (hashGen k)+rowLen ≤ file'.length := by rwa [hlen]
      rw [readKvItem_ok hfit,readKvItem_ok hfit',hrow hfit]
    · have hshort : file.length < (hashGen k+1)*itemMaxLen*tableRowSize := by
        rw [rowOff_succ]
        omega
      simp [readKvItem,hlen,hshort]
  intro buf
  cases buf with
  | none => rfl
  | some n => simp [mapfileKvGet,kvGet,hashTableGet,hread]

theorem get_row {file : Bytes} {k : CStr} (hfit : rowOff (hashGen k)+rowLen ≤ file.length) {len : ℤ}
    (hlen : 0 < len) : mapfileKvGet false {} (some file) (some k) (some len) =
      getLoop k len (rowAt file (hashGen k)) := by
  simp [mapfileKvGet,kvGet,Int.not_le.mpr hlen,hashTableGet,readKvItem_ok hfit]

theorem sameReads_of_getLoop {file file' : Bytes} {k : CStr} (hlength : file'.length = file.length)
    (hfit : rowOff (hashGen k)+rowLen ≤ file.length)
    (h : ∀ len, 0 < len → getLoop k len (rowAt file' (hashGen k)) =
      getLoop k len (rowAt file (hashGen k))) :
    SameReads (some file) (some file') (some k) := by
  intro buf
  cases buf with
  | none => rfl
  | some len =>
    by_cases hlen : len ≤ 0
    · simp only [mapfileKvGet,kvGet,if_pos hlen]
    · rw [get_row hfit (by omega),get_row (by rwa [hlength]) (by omega)]
      exact h len (by omega)

section Rewrite
variable {f : WriteFaults} {disk : Disk} {kv : List KvItem} {key : CStr}

/-- A failing rewrite of one row leaves the file, or tears that row alone. -/
theorem rewrite_torn (hkv : kv.length = tableRowSize)
    (hspared : ∀ k : CStr, k.strlen ≤ itemMaxKeyLen → (∀ len, 0 < len →
      getLoop k len kv = getLoop k len (rowAt (disk.getD []) (hashGen key))) → ∀ n len, 0 < len →
      getLoop k len (tornRow n (rowAt (disk.getD []) (hashGen key)) kv) =
        getLoop k len (rowAt (disk.getD []) (hashGen key)))
    (h : (writeKvItem f disk kv (hashGen key)).2 = .fail) :
    ((¬ ∃ n, 0 < n ∧ f.write = .short n) → (writeKvItem f disk kv (hashGen key)).1 = disk) ∧
    Torn f.write (some key) disk (writeKvItem {f with write := .complete} disk kv (hashGen key)).1
      (writeKvItem f disk kv (hashGen key)).1 := by
  rcases writeKvItem_fail hkv h with heq | ⟨file,n,rfl,hfit,hshort,hn,heq,hdone⟩
  · rw [heq]
    exact ⟨fun _ => rfl,Or.inl rfl,rfl,fun _ _ _ => rfl,fun _ _ _ _ => rfl⟩
  · rw [heq,hdone]
    have hlen := row_le_rowLen kv hkv
    have hother : ∀ k, hashGen key ≠ hashGen k → SameReads (some file)
        (some (splice file (rowOff (hashGen key)) ((encodeRow kv).take n))) (some k) := by
      refine fun k hk => sameReads_of_row (splice_length _ _ _) fun hkfit => ?_
      exact rowAt_splice_other hk hfit hkfit (by rw [List.length_take]; omega)
    refine ⟨fun hclean => ?_,Or.inr ⟨key,file,putRow file (hashGen key) kv,n,rfl,rfl,rfl,hshort,hn,
      hfit,?_⟩,?_,fun k hk => hother k fun he => hk ?_,fun k hks hsame => ?_⟩
    · have hzero : n = 0 := by
        by_contra hne
        exact hclean ⟨n,by omega,hshort⟩
      simp [hzero,splice]
    · have hslice : slice (putRow file (hashGen key) kv) (rowOff (hashGen key)) rowLen = encodeRow kv := by
        rw [← hlen]
        exact slice_splice_self (by omega)
      have hfit' : rowOff (hashGen key)+rowLen ≤ (putRow file (hashGen key) kv).length := by
        rwa [putRow_length]
      rw [← hslice,slice_eq_take hfit',slice_eq_take (by omega),List.take_take,
        Nat.min_eq_left (Nat.le_of_lt hn)]
    · rw [Option.map_some,Option.map_some,splice_length]
    · rw [Option.map_some,he]
    · by_cases hk : hashGen key = hashGen k
      · rw [hk] at hfit
        refine sameReads_of_getLoop (splice_length _ _ _) hfit fun len hpos => ?_
        rw [← hk] at hfit ⊢
        rw [rowAt_torn hfit hkv]
        refine hspared k hks (fun len hpos => ?_) n len hpos
        have hread := hsame (some len)
        rw [get_row (by rwa [← hk,putRow_length]) hpos,get_row (by rwa [← hk]) hpos,← hk,
          rowAt_putRow_self hfit hkv] at hread
        exact hread
      · exact hother k hk

end Rewrite

theorem Torn.refl (w : WriteResult) (key : Option CStr) (disk done : Disk) : Torn w key disk done disk :=
  ⟨Or.inl rfl,rfl,fun _ _ _ => rfl,fun _ _ _ _ => rfl⟩

theorem failed_set {f : Faults} {disk : Disk} {key : Option CStr} {value : Option Value}
    (h : (mapfileKvSet f disk key value).2 = .fail) :
    (¬ (Call.set f key value).Interrupted → (mapfileKvSet f disk key value).1 = disk) ∧
    (Call.set f key value).Leaves disk (mapfileKvSet f disk key value).1 := by
  rcases mapfileKvSet_writes f disk key value with hnone | ⟨k,v,kv,rfl,rfl,hv,hput,hset⟩
  · have hself : mapfileKvSet f disk key value = (disk,.fail) := hnone f.write
    rw [hself]
    exact ⟨fun _ => rfl,Torn.refl _ _ _ _⟩
  · have hself : mapfileKvSet f disk (some k) (some v) = writeKvItem f.write disk kv (hashGen k) :=
      hset f.write
    have hwhole : mapfileKvSet (whole f) disk (some k) (some v) =
        writeKvItem {f.write with write := .complete} disk kv (hashGen k) := hset _
    rw [Call.Leaves,hwhole,hself]
    rw [hself] at h
    refine rewrite_torn (by rw [putLoop_length hput,rowAt_length]) (fun j hj hsame n len hlen => ?_) h
    exact getLoop_torn_put hj hv hput hsame n hlen

theorem failed_del {f : Faults} {disk : Disk} {key : Option CStr}
    (h : (mapfileKvDel f disk key).2 = .fail) :
    (¬ (Call.del f key).Interrupted → (mapfileKvDel f disk key).1 = disk) ∧
    (Call.del f key).Leaves disk (mapfileKvDel f disk key).1 := by
  rcases mapfileKvDel_writes f disk key with hnone | ⟨k,rfl,hdel⟩
  · have hself : mapfileKvDel f disk key = (disk,.fail) := hnone f.write
    rw [hself]
    exact ⟨fun _ => rfl,Torn.refl _ _ _ _⟩
  · have hself := hdel f.write
    have hwhole := hdel {f.write with write := .complete}
    change mapfileKvDel f disk (some k) = _ at hself
    change mapfileKvDel (whole f) disk (some k) = _ at hwhole
    rw [Call.Leaves,hwhole,hself]
    rw [hself] at h
    refine rewrite_torn (by rw [rmLoop_length,rowAt_length]) (fun j hj hsame n len hlen => ?_) h
    exact getLoop_torn_rm hj (hsame len hlen) n

theorem get_empty (key : Option CStr) (buf : Option ℤ) :
    mapfileKvGet false {} (some []) key buf = none := by
  cases key with
  | none => simp [mapfileKvGet,kvGet]
  | some key =>
    cases buf with
    | none => rfl
    | some n =>
      have hpos : 0 < (hashGen key+1)*itemMaxLen*tableRowSize :=
        Nat.mul_pos (Nat.mul_pos (Nat.succ_pos _) (by decide)) (by decide)
      simp [mapfileKvGet,kvGet,hashTableGet,readKvItem,hpos]

theorem get_zero (key : Option CStr) (buf : Option ℤ) :
    mapfileKvGet false {} (some (List.replicate fileLen 0)) key buf = none := by
  cases key with
  | none => simp [mapfileKvGet,kvGet]
  | some key =>
    cases buf with
    | none => rfl
    | some n =>
      simp [mapfileKvGet,kvGet,hashTableGet,readKvItem_ok (key_fits_zero key),rowAt_zero (hashGen_lt key),
        getLoop,tableRowSize,List.replicate_succ]

theorem failed_emp (f : EmpFaults) (disk : Disk) :
    (f.fopenFails = true → (mapfileKvEmp f disk).1 = disk) ∧
    (f.fopenFails = false → (Call.emp f).Leaves disk (mapfileKvEmp f disk).1) := by
  refine ⟨fun hf => by simp [mapfileKvEmp,hf],fun hf => ?_⟩
  by_cases ht : f.truncateFails
  · simp [mapfileKvEmp,hf,ht,Call.Leaves,get_empty]
  · have hdisk : (mapfileKvEmp f disk).1 = some (List.replicate fileLen 0) := by
      simp only [mapfileKvEmp,hf,ht,if_false,Bool.false_eq_true]
      split <;> rfl
    rw [hdisk,Call.Leaves,if_neg ht]
    exact ⟨rfl,get_zero⟩

/-- A failed call leaves the file as it was unless a write stopped half-way or the file had already been
emptied; what is left then is bounded by `Call.Leaves`. -/
theorem failed_call_atomic (disk : Disk) (c : Call) (h : (c.run disk).2 = .fail) :
    (¬ c.Interrupted → (c.run disk).1 = disk) ∧
    (c.Interrupted → c.Leaves disk (c.run disk).1) := by
  cases c with
  | set f key value =>
    obtain ⟨hclean,hleaves⟩ := failed_set h
    exact ⟨hclean,fun _ => hleaves⟩
  | del f key =>
    obtain ⟨hclean,hleaves⟩ := failed_del h
    exact ⟨hclean,fun _ => hleaves⟩
  | emp f =>
    obtain ⟨hclean,hleaves⟩ := failed_emp f disk
    exact ⟨fun hn => hclean (by simpa [Call.Interrupted] using hn),hleaves⟩

def shortWrite (n : ℕ) : Faults := {write := {write := .short n}}

section Short
variable {file : Bytes} {i n : ℕ} {key : CStr} {value : Value} {kv : List KvItem}

theorem writeKvItem_short (hfit : rowOff i+rowLen ≤ file.length) (hkv : kv.length = tableRowSize) :
    writeKvItem (shortWrite n).write (some file) kv i =
      (some (splice file (rowOff i) ((encodeRow kv).take n)),if rowLen ≤ n then .ok else .fail) := by
  have hlong : ¬ file.length < (i+1)*itemMaxLen*tableRowSize := by
    rw [rowOff_succ]
    omega
  have hcount : (encodeRow kv).take (min n rowLen) = (encodeRow kv).take n := by
    rw [← row_le_rowLen kv hkv,← List.take_take,List.take_length]
  simp only [shortWrite,writeKvItem,if_neg hlong,WriteResult.count,Option.getD_some,hcount,
    Bool.false_eq_true,if_false,Option.some.injEq,min_eq_right_iff]

theorem set_short (hfit : rowOff (hashGen key)+rowLen ≤ file.length) (hv : 0 < value.len)
    (hput : putLoop key value (rowAt file (hashGen key)) = some kv) :
    mapfileKvSet (shortWrite n) (some file) (some key) (some value) =
      (some (splice file (rowOff (hashGen key)) ((encodeRow kv).take n)),
        if rowLen ≤ n then .ok else .fail) := by
  have hkv : kv.length = tableRowSize := by rw [putLoop_length hput,rowAt_length]
  rw [← writeKvItem_short hfit hkv]
  simp only [shortWrite,mapfileKvSet,kvSet,if_neg (Int.not_le.mpr hv),hashTablePut,hashTablePutRow,
    readKvItem_ok hfit,hput,Option.map_some,Bool.false_eq_true,if_false]

theorem del_short (hfit : rowOff (hashGen key)+rowLen ≤ file.length)
    (hrm : rmLoop key (rowAt file (hashGen key)) = kv) :
    mapfileKvDel (shortWrite n) (some file) (some key) =
      (some (splice file (rowOff (hashGen key)) ((encodeRow kv).take n)),
        if rowLen ≤ n then .ok else .fail) := by
  have hkv : kv.length = tableRowSize := by rw [← hrm,rmLoop_length,rowAt_length]
  rw [← writeKvItem_short hfit hkv]
  simp only [shortWrite,mapfileKvDel,kvDel,hashTableRm,readKvItem_ok hfit,hrm,Bool.false_eq_true,if_false]

end Short

def otherByte : Value := ⟨[2],1,by decide⟩

def rowAB : List KvItem := [insertItem zeroItem keyAB oneByte,zeroItem]

section Example
variable {file : Bytes} (hlen : file.length = fileLen) (hrow : rowAt file 227 = rowAB)
include hlen hrow

theorem rowAB_torn_get {kv : List KvItem} (hkv : kv.length = tableRowSize) (n : ℕ) :
    mapfileKvGet false {} (some (splice file (rowOff (hashGen keyAB)) ((encodeRow kv).take n)))
      (some keyAB) (some 1) = getLoop keyAB 1 (tornRow n rowAB kv) := by
  have hAB : hashGen keyAB = 227 := by decide
  have hfit := key_fits hlen keyAB
  rw [get_row (by rwa [splice_length]) (by decide),rowAt_torn hfit hkv,hAB,hrow]

theorem torn_set_not_atomic :
    (mapfileKvSet (shortWrite 97) (some file) (some keyAB) (some otherByte)).2 = .fail ∧
    ¬ Atomic (some file) (mapfileKvSet (shortWrite 97) (some file) (some keyAB) (some otherByte)).1 := by
  have hAB : hashGen keyAB = 227 := by decide
  have hput : putLoop keyAB otherByte (rowAt file (hashGen keyAB)) =
      some [updateItem (insertItem zeroItem keyAB oneByte) otherByte,zeroItem] := by
    rw [hAB,hrow]
    decide +kernel
  rw [set_short (n:=97) (key_fits hlen keyAB) (by decide) hput]
  refine ⟨rfl,fun hatomic => ?_⟩
  have hsame := hatomic.1 (some keyAB) (some 1)
  rw [get_keyAB hlen hrow,rowAB_torn_get hlen hrow rfl] at hsame
  exact absurd hsame (by decide +kernel)

theorem torn_del_not_atomic :
    (mapfileKvDel (shortWrite 1) (some file) (some keyAB)).2 = .fail ∧
    ¬ Atomic (some file) (mapfileKvDel (shortWrite 1) (some file) (some keyAB)).1 := by
  have hAB : hashGen keyAB = 227 := by decide
  have hrm : rmLoop keyAB (rowAt file (hashGen keyAB)) = rmLoop keyAB rowAB := by rw [hAB,hrow]
  rw [del_short (n:=1) (key_fits hlen keyAB) hrm]
  refine ⟨rfl,fun hatomic => ?_⟩
  have hsame := hatomic.1 (some keyAB) (some 1)
  rw [get_keyAB hlen hrow,rowAB_torn_get hlen hrow (rmLoop_length _ _)] at hsame
  exact absurd hsame (by decide +kernel)

theorem emptied_not_atomic {disk : Disk} (hnone : ∀ key buf, mapfileKvGet false {} disk key buf = none) :
    ¬ Atomic (some file) disk := by
  intro hatomic
  have hsame := hatomic.1 (some keyAB) (some 1)
  rw [get_keyAB hlen hrow,hnone] at hsame
  cases hsame

theorem whole_keyBA_spares : SameReads (some file)
    (mapfileKvSet (whole (shortWrite 325)) (some file) (some keyBA) (some oneByte)).1 (some keyAB) := by
  have hAB : hashGen keyAB = 227 := by decide
  have hBA : hashGen keyBA = 227 := by decide
  have hfit := key_fits hlen keyBA
  have hput : putLoop keyBA oneByte (rowAt file (hashGen keyBA)) =
      some [insertItem zeroItem keyAB oneByte,insertItem zeroItem keyBA oneByte] := by
    rw [hBA,hrow]
    decide +kernel
  have hset : mapfileKvSet (whole (shortWrite 325)) (some file) (some keyBA) (some oneByte) = _ :=
    kvSet_some hfit (by decide) hput
  rw [hset]
  have hself := rowAt_putRow_self hfit (show List.length [insertItem zeroItem keyAB oneByte,
    insertItem zeroItem keyBA oneByte] = tableRowSize from rfl)
  rw [hBA] at hself ⊢
  refine sameReads_of_getLoop (putRow_length _ _ _) (key_fits hlen keyAB) fun len hpos => ?_
  have hlive : (insertItem zeroItem keyAB oneByte).Live := insertItem_live _ _ (by decide)
  have hname : keyAB.1.bytes <+: (insertItem zeroItem keyAB oneByte).name :=
    insertItem_starts _ _ (by decide)
  rw [hAB,hself,hrow,rowAB,getLoop_cons_hit (by decide) hlive hname,
    getLoop_cons_hit (by decide) hlive hname,copyOut_eq _ (by decide) hpos,
    copyOut_eq _ (by decide) hpos]

end Example

/-- With one key stored: a deletion whose `open` fails; a set of a second key of the row that stops in
the value of its slot. -/
theorem failed_call_atomic_keyAB : ∃ disk,
    mapfileKvGet false {} disk (some keyAB) (some 1) = some (1,[1]) ∧
    (mapfileKvDel {write := {openFails := true}} disk (some keyAB)).1 = disk ∧
    (Call.set (shortWrite 325) (some keyBA) (some oneByte)).Leaves disk
      (mapfileKvSet (shortWrite 325) disk (some keyBA) (some oneByte)).1 ∧
    SameReads disk (mapfileKvSet (shortWrite 325) disk (some keyBA) (some oneByte)).1 (some keyAB) := by
  obtain ⟨file,-,hlen,hrow⟩ := set_keyAB_eq
  have hBA : hashGen keyBA = 227 := by decide
  have hput : putLoop keyBA oneByte (rowAt file (hashGen keyBA)) =
      some [insertItem zeroItem keyAB oneByte,insertItem zeroItem keyBA oneByte] := by
    rw [hBA,hrow]
    decide +kernel
  have hshort := set_short (n:=325) (key_fits hlen keyBA) (by decide) hput
  have hleaves := (failed_call_atomic (some file) (.set (shortWrite 325) (some keyBA) (some oneByte))
    (by rw [Call.run,hshort]; rfl)).2 ⟨325,by decide,rfl⟩
  refine ⟨some file,get_keyAB hlen hrow,?_,hleaves,?_⟩
  · refine (failed_call_atomic (some file) (.del {write := {openFails := true}} (some keyAB)) ?_).1 ?_
    · rw [Call.run,mapfileKvDel,kvDel,hashTableRm,readKvItem_ok (key_fits hlen keyAB)]
      rfl
    · rintro ⟨n,_,hn⟩
      cases hn
  · exact hleaves.spared keyAB (by decide) (whole_keyBA_spares hlen hrow)

/-- Where one key is stored, a set or a deletion of it that stops, and `mapfile_kv_emp` that fails after
its `fopen`, all return `MAPFILE_FAIL` and leave another store. -/
theorem failed_call_not_atomic : ∃ disk, mapfileKvGet false {} disk (some keyAB) (some 1) = some (1,[1]) ∧
    ∀ c ∈ [Call.set (shortWrite 97) (some keyAB) (some otherByte),.del (shortWrite 1) (some keyAB),
        .emp ⟨false,true,false⟩,.emp ⟨false,false,true⟩],
      (c.run disk).2 = .fail ∧ ¬ Atomic disk (c.run disk).1 := by
  obtain ⟨file,-,hlen,hrow⟩ := set_keyAB_eq
  refine ⟨some file,get_keyAB hlen hrow,fun c hc => ?_⟩
  simp only [List.mem_cons,List.not_mem_nil,or_false] at hc
  rcases hc with rfl | rfl | rfl | rfl
  · exact torn_set_not_atomic hlen hrow
  · exact torn_del_not_atomic hlen hrow
  · exact ⟨rfl,emptied_not_atomic hlen hrow get_empty⟩
  · exact ⟨rfl,emptied_not_atomic hlen hrow get_zero⟩

end MapfileFaults
end IotBase
