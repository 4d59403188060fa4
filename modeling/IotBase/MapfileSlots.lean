import IotBase.MapfileRefinement

/-! The bytes of every slot along whole runs: a slot is all zero, or it holds one item of its
row, with zeros behind the key and behind the value. -/
namespace IotBase
namespace MapfileSlots
open RawBytes CString MapfileItem MapfileStore MapfileFile MapfileRow
open MapfileRefinement (Key)

/-- An updating call with no failing system call; an allocation can still fail. -/
inductive Call
  | set (malloc : Bool) (key : Option Key) (value : Option Value)
  | del (malloc : Bool) (key : Option Key)
  | emp

def Call.run (disk : Disk) : Call → Disk
  | .set malloc key value => (mapfileKvSet { malloc := malloc } disk (key.map Subtype.val) value).1
  | .del malloc key => (mapfileKvDel { malloc := malloc } disk (key.map Subtype.val)).1
  | .emp => (mapfileKvEmp {} disk).1

structure ItemOk (r : ℕ) (p : KvItem) : Prop where
  one_le : 1 ≤ p.valueLen.toInt
  le_max : p.valueLen.toInt ≤ itemMaxValLen
  padding : ∀ c ∈ p.value.drop p.valueLen.toInt.toNat, c = 0
  key : ∃ key : CStr, key.strlen < itemMaxKeyLen ∧
    p.key = key.bytes ++ List.replicate (itemMaxKeyLen-key.strlen) 0 ∧ hashGen key = r

def WellFormed (r : ℕ) (p : KvItem) : Prop :=
  p.encode = List.replicate itemMaxLen 0 ∨ ItemOk r p

structure SlotsOk (disk : Disk) (file : Bytes) : Prop where
  disk : disk = some file
  length : file.length = fileLen
  slots : ∀ r < tableColSize, ∀ p ∈ rowAt file r, WellFormed r p

theorem ItemOk.live {r : ℕ} {p : KvItem} (h : ItemOk r p) : p.Live := by
  intro hzero
  have hone := h.one_le
  rw [hzero] at hone
  exact absurd hone (by decide)

theorem zeroItem_wellFormed (r : ℕ) : WellFormed r zeroItem := Or.inl zeroItem_encode

theorem WellFormed.item {r : ℕ} {p : KvItem} (h : WellFormed r p) (hp : p.Live) : ItemOk r p := by
  rcases h with hzero | hitem
  · rw [encode_eq_zero_iff.mp hzero] at hp
    exact absurd hp zeroItem_not_live
  · exact hitem

theorem WellFormed.zero {r : ℕ} {p : KvItem} (h : WellFormed r p) (hp : ¬ p.Live) : p = zeroItem := by
  rcases h with hzero | hitem
  · exact encode_eq_zero_iff.mp hzero
  · exact absurd hitem.live hp

section writes
variable {r : ℕ} {p : KvItem} {key : CStr} {value : Value} (hv : 0 < value.len)

theorem clampLen_toInt (value : Value) :
    (BitVec.ofNat 32 (clampLen value)).toInt = clampLen value := by
  have hle := clampLen_le value
  have h128 : itemMaxValLen = 128 := rfl
  rw [BitVec.toInt_eq_toNat_cond,clampLen_toNat,if_pos (by omega)]

theorem memcpy_padding (value : Value) : ∀ c ∈ (memcpy (List.replicate itemMaxValLen 0) value.bytes
    (clampLen value)).drop (clampLen value), c = 0 := by
  have hlen : (value.bytes.take (clampLen value)).length = clampLen value :=
    List.length_take_of_le (clampLen_readable value)
  have hfits : 0+(value.bytes.take (clampLen value)).length ≤
      (List.replicate itemMaxValLen (0 : UInt8)).length := by
    rw [hlen,List.length_replicate,Nat.zero_add]
    exact clampLen_le value
  intro c hc
  rw [memcpy,splice_fits hfits,List.take_zero,List.nil_append,hlen,Nat.zero_add,List.drop_append,
    List.drop_of_length_le hlen.le,List.nil_append,List.drop_replicate,List.drop_replicate] at hc
  exact List.eq_of_mem_replicate hc

include hv

theorem clampLen_bounds : 1 ≤ (BitVec.ofNat 32 (clampLen value)).toInt ∧
    (BitVec.ofNat 32 (clampLen value)).toInt ≤ itemMaxValLen := by
  have hpos := clampLen_pos hv
  have hle := clampLen_le value
  rw [clampLen_toInt]
  omega

/-- An update keeps the key field and so the row, also where the key passed is a shorter one. -/
theorem updateItem_itemOk (hp : ItemOk r p) : ItemOk r (updateItem p value) where
  one_le := (clampLen_bounds hv).1
  le_max := (clampLen_bounds hv).2
  padding := by
    have hclear : memset p.value 0 itemMaxValLen = List.replicate itemMaxValLen 0 := by
      rw [memset,splice_fits (by simp),List.length_replicate,Nat.zero_add,
        List.drop_of_length_le p.value_length.le,List.take_zero,List.nil_append,List.append_nil]
    change ∀ c ∈ (memcpy (memset p.value 0 itemMaxValLen) value.bytes (clampLen value)).drop
      (BitVec.ofNat 32 (clampLen value)).toInt.toNat, c = 0
    rw [clampLen_toInt,hclear]
    exact memcpy_padding value
  key := hp.key

/-- An insertion does not clear the slot: it relies on the zeros that are there. -/
theorem insertItem_itemOk (hk : key.strlen < itemMaxKeyLen) :
    ItemOk (hashGen key) (insertItem zeroItem key value) where
  one_le := (clampLen_bounds hv).1
  le_max := (clampLen_bounds hv).2
  padding := by
    change ∀ c ∈ (memcpy zeroItem.value value.bytes (clampLen value)).drop
      (BitVec.ofNat 32 (clampLen value)).toInt.toNat, c = 0
    rw [clampLen_toInt]
    exact memcpy_padding value
  key := ⟨key,hk,strncpy_replicate (by omega) (by omega),rfl⟩

theorem putLoop_wellFormed (hk : key.strlen < itemMaxKeyLen) {row row' : List KvItem}
    (hrow : ∀ p ∈ row, WellFormed (hashGen key) p) (h : putLoop key value row = some row') :
    ∀ p ∈ row', WellFormed (hashGen key) p := by
  apply forall_putLoop _ _ hrow h
  · intro p hlive hp
    exact Or.inr (updateItem_itemOk hv (hp.item hlive))
  · intro p hdead hp
    rw [hp.zero hdead]
    exact Or.inr (insertItem_itemOk hv hk)

end writes

theorem slotsOk_zero : SlotsOk (some (List.replicate fileLen 0)) (List.replicate fileLen 0) where
  disk := rfl
  length := List.length_replicate
  slots r hr p hp := by
    rw [rowAt_zero hr] at hp
    rw [List.eq_of_mem_replicate hp]
    exact zeroItem_wellFormed r

theorem SlotsOk.write {disk : Disk} {file : Bytes} (h : SlotsOk disk file) {i : ℕ}
    (hi : i < tableColSize) {kv : List KvItem} (hlen : kv.length = tableRowSize)
    (hkv : ∀ p ∈ kv, WellFormed i p) :
    SlotsOk (writeKvItem {} disk kv i).1 (putRow file i kv) where
  disk := by
    have hfit : rowOff i+rowLen ≤ file.length := by
      rw [h.length]
      exact row_fits hi
    rw [h.disk,writeKvItem_ok hfit hlen]
  length := by rw [putRow_length,h.length]
  slots := forall_rows_putRow (P:=fun r row => ∀ p ∈ row, WellFormed r p) h.length hi hlen hkv
    fun r hr _ => h.slots r hr

theorem SlotsOk.row {disk : Disk} {file : Bytes} (h : SlotsOk disk file) (key : CStr) :
    ∀ p ∈ rowAt (disk.getD []) (hashGen key), WellFormed (hashGen key) p := by
  rw [h.disk]
  exact h.slots _ (hashGen_lt key)

theorem Call.run_slotsOk {disk : Disk} (c : Call) (h : ∃ file, SlotsOk disk file) :
    ∃ file, SlotsOk (c.run disk) file := by
  obtain ⟨file,h⟩ := h
  cases c with
  | set malloc key value =>
    rw [Call.run]
    rcases mapfileKvSet_cases { malloc := malloc } disk (key.map Subtype.val) value with
      hnone | ⟨k,v,kv,hkey,-,hv,hloop,hset⟩
    · rw [hnone]
      exact ⟨file,h⟩
    · obtain ⟨key,rfl,rfl⟩ := Option.map_eq_some_iff.mp hkey
      have hlen : kv.length = tableRowSize := by rw [putLoop_length hloop,rowAt_length]
      rw [hset]
      exact ⟨_,h.write (hashGen_lt _) hlen (putLoop_wellFormed hv key.2 (h.row _) hloop)⟩
  | del malloc key =>
    rw [Call.run]
    rcases mapfileKvDel_cases { malloc := malloc } disk (key.map Subtype.val) with
      hnone | ⟨k,-,hdel⟩
    · rw [hnone]
      exact ⟨file,h⟩
    · have hlen : (rmLoop k (rowAt (disk.getD []) (hashGen k))).length = tableRowSize := by
        rw [rmLoop_length,rowAt_length]
      rw [hdel]
      exact ⟨_,h.write (hashGen_lt _) hlen (forall_rmLoop (zeroItem_wellFormed _) (h.row k))⟩
  | emp => exact ⟨_,slotsOk_zero⟩

/-- Along every run from a fresh file each slot of each row is all zero or holds an item of that
row. -/
theorem slots_wellFormed (calls : List Call) :
    ∃ file, calls.foldl Call.run (mapfileKvOpen {} none).1 = some file ∧ file.length = fileLen ∧
      ∀ r < tableColSize, ∀ p ∈ rowAt file r, WellFormed r p := by
  have hfresh : ∃ file, SlotsOk (mapfileKvOpen {} none).1 file := by
    refine ⟨List.replicate fileLen 0,?_⟩
    rw [MapfileRefinement.open_fresh]
    exact slotsOk_zero
  have hrun : ∃ file, SlotsOk (calls.foldl Call.run (mapfileKvOpen {} none).1) file :=
    List.foldlRecOn (motive:=fun disk => ∃ file, SlotsOk disk file) calls _ hfresh
      fun _ h c _ => c.run_slotsOk h
  obtain ⟨file,h⟩ := hrun
  exact ⟨file,h.disk,h.length,h.slots⟩

end MapfileSlots
end IotBase
