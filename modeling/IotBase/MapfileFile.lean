import IotBase.MapfileStore

/-! The file as an array of rows: what one read returns and what one write leaves
of the other rows. -/
namespace IotBase
namespace MapfileFile
open RawBytes CString MapfileItem MapfileStore

theorem hashGen_lt (key : CStr) : hashGen key < tableColSize := Nat.mod_lt _ (by decide)

theorem rowOff_succ (i : ℕ) : (i+1)*itemMaxLen*tableRowSize = rowOff i+rowLen := by
  simp only [rowOff,rowLen]
  ring

theorem fileLen_eq : fileLen = rowOff tableColSize := by
  simp only [fileLen,rowOff]
  ring

theorem row_fits {i : ℕ} (hi : i < tableColSize) : rowOff i+rowLen ≤ fileLen := by
  rw [fileLen_eq,← rowOff_succ]
  exact Nat.mul_le_mul_right _ (Nat.mul_le_mul_right _ hi)

theorem key_fits {file : Bytes} (h : file.length = fileLen) (key : CStr) :
    rowOff (hashGen key)+rowLen ≤ file.length := by
  rw [h]
  exact row_fits (hashGen_lt key)

theorem key_fits_zero (key : CStr) :
    rowOff (hashGen key)+rowLen ≤ (List.replicate fileLen (0 : UInt8)).length :=
  key_fits List.length_replicate key

theorem rowOff_le_of_lt {i j : ℕ} (h : i < j) : rowOff i+rowLen ≤ rowOff j := by
  rw [← rowOff_succ]
  exact Nat.mul_le_mul_right _ (Nat.mul_le_mul_right _ h)

theorem row_le_rowLen (kv : List KvItem) (h : kv.length = tableRowSize) :
    (encodeRow kv).length = rowLen := by
  rw [encodeRow_length,h]
  rfl

@[simp] theorem rowAt_length (file : Bytes) (i : ℕ) : (rowAt file i).length = tableRowSize :=
  decodeRow_length _ _

@[simp] theorem putRow_length (file : Bytes) (i : ℕ) (kv : List KvItem) :
    (putRow file i kv).length = file.length := splice_length _ _ _

theorem rowAt_putRow_self {file : Bytes} {i : ℕ} {kv : List KvItem}
    (hfile : rowOff i+rowLen ≤ file.length) (hkv : kv.length = tableRowSize) :
    rowAt (putRow file i kv) i = kv := by
  have hlen := row_le_rowLen kv hkv
  have hslice : slice (putRow file i kv) (rowOff i) rowLen = encodeRow kv := by
    rw [← hlen]
    exact slice_splice_self (by omega)
  rw [rowAt,hslice,← hkv,decodeRow_encodeRow]

theorem rowAt_splice_other {file data : Bytes} {i j : ℕ} (hij : i ≠ j)
    (hfile : rowOff i+rowLen ≤ file.length) (hj : rowOff j+rowLen ≤ file.length)
    (hdata : data.length ≤ rowLen) :
    rowAt (splice file (rowOff i) data) j = rowAt file j := by
  rw [rowAt,rowAt]
  congr 1
  rcases Nat.lt_or_gt_of_ne hij with hlt | hgt
  · have hoff := rowOff_le_of_lt hlt
    exact slice_splice_after (by omega) (by omega) hj
  · have hoff := rowOff_le_of_lt hgt
    exact slice_splice_before (by omega) (by omega)

theorem rowAt_putRow_other {file : Bytes} {i j : ℕ} {kv : List KvItem} (hij : i ≠ j)
    (hfile : rowOff i+rowLen ≤ file.length) (hj : rowOff j+rowLen ≤ file.length)
    (hkv : kv.length = tableRowSize) : rowAt (putRow file i kv) j = rowAt file j :=
  rowAt_splice_other hij hfile hj (le_of_eq (row_le_rowLen kv hkv))

theorem forall_rows_putRow {P : ℕ → List KvItem → Prop} {file : Bytes} (hfile : file.length = fileLen)
    {i : ℕ} (hi : i < tableColSize) {kv : List KvItem} (hkv : kv.length = tableRowSize) (hself : P i kv)
    (hother : ∀ j < tableColSize, j ≠ i → P j (rowAt file j)) :
    ∀ j < tableColSize, P j (rowAt (putRow file i kv) j) := by
  have hfits : ∀ j < tableColSize, rowOff j+rowLen ≤ file.length := by
    rw [hfile]
    exact fun j => row_fits
  intro j hj
  by_cases hij : j = i
  · rwa [hij,rowAt_putRow_self (hfits i hi) hkv]
  · rw [rowAt_putRow_other (Ne.symm hij) (hfits i hi) (hfits j hj) hkv]
    exact hother j hj hij

theorem rowAt_zero {i : ℕ} (hi : i < tableColSize) :
    rowAt (List.replicate fileLen 0) i = List.replicate tableRowSize zeroItem := by
  rw [rowAt,slice_replicate 0 (row_fits hi)]
  exact decodeRow_replicate tableRowSize

theorem readKvItem_ok {file : Bytes} {i : ℕ} (hfile : rowOff i+rowLen ≤ file.length) :
    readKvItem {} (some file) i = some (rowAt file i) := by
  have hlt : ¬ file.length < (i+1)*itemMaxLen*tableRowSize := by
    rw [rowOff_succ]
    omega
  simp [readKvItem,hlt]

theorem readKvItem_some {f : ReadFaults} {disk : Disk} {i : ℕ} {kv : List KvItem}
    (h : readKvItem f disk i = some kv) : rowAt (disk.getD []) i = kv := by
  cases disk with
  | none => cases h
  | some file =>
    simp only [readKvItem] at h
    repeat' split at h
    all_goals first | cases h; rfl | cases h

theorem take_encodeRow {kv : List KvItem} (hkv : kv.length = tableRowSize) :
    (encodeRow kv).take rowLen = encodeRow kv :=
  List.take_of_length_le (le_of_eq (row_le_rowLen kv hkv))

theorem writeKvItem_ok {file : Bytes} {i : ℕ} {kv : List KvItem}
    (hfile : rowOff i+rowLen ≤ file.length) (hkv : kv.length = tableRowSize) :
    writeKvItem {} (some file) kv i = (some (putRow file i kv),.ok) := by
  have hlt : ¬ file.length < (i+1)*itemMaxLen*tableRowSize := by
    rw [rowOff_succ]
    omega
  simp [writeKvItem,hlt,WriteResult.count,take_encodeRow hkv,putRow]

theorem writeKvItem_writes (f : WriteFaults) (disk : Disk) (kv : List KvItem) (i : ℕ) :
    (∀ w, writeKvItem {f with write := w} disk kv i = (disk,.fail)) ∨
      ∃ file, disk = some file ∧ rowOff i+rowLen ≤ file.length ∧
        ∀ w, writeKvItem {f with write := w} disk kv i =
          (some (splice file (rowOff i) ((encodeRow kv).take ((w.count rowLen).getD 0))),
            if w.count rowLen = some rowLen then .ok else .fail) := by
  cases disk with
  | none => exact Or.inl fun _ => rfl
  | some file =>
    simp only [writeKvItem,rowOff_succ]
    by_cases h₁ : f.openFails
    · simp [h₁]
    by_cases h₂ : f.fstatFails
    · simp [h₁,h₂]
    by_cases h₃ : file.length < rowOff i+rowLen
    · simp [h₁,h₂,h₃]
    by_cases h₄ : f.lseekFails
    · simp [h₁,h₂,h₃,h₄]
    simp only [h₁,h₂,h₃,h₄,if_false,Bool.false_eq_true]
    exact Or.inr ⟨file,rfl,by omega,fun _ => rfl⟩

/-- Everything that a write can do: give up before `write`, or leave what `write` has done
to a row that the file holds. -/
theorem writeKvItem_cases (f : WriteFaults) (disk : Disk) (kv : List KvItem) (i : ℕ) :
    writeKvItem f disk kv i = (disk,.fail) ∨
      ∃ file, disk = some file ∧ rowOff i+rowLen ≤ file.length ∧ writeKvItem f disk kv i =
        (some (splice file (rowOff i) ((encodeRow kv).take ((f.write.count rowLen).getD 0))),
          if f.write.count rowLen = some rowLen then .ok else .fail) := by
  rcases writeKvItem_writes f disk kv i with h | ⟨file,hdisk,hfit,h⟩
  · exact Or.inl (h f.write)
  · exact Or.inr ⟨file,hdisk,hfit,h f.write⟩

theorem hashTablePutRow_some {malloc : Bool} {f : ReadFaults} {disk : Disk} {key : CStr}
    {value : Value} {i : ℕ} {kv : List KvItem}
    (h : hashTablePutRow malloc f disk (some key) (some value) = some (i,kv)) :
    i = hashGen key ∧ 0 < value.len ∧
      putLoop key value (rowAt (disk.getD []) (hashGen key)) = some kv := by
  simp only [hashTablePutRow] at h
  by_cases hv : value.len ≤ 0
  · simp [hv] at h
  by_cases hm : malloc
  · simp [hm] at h
  simp only [hv,hm,if_false,Bool.false_eq_true] at h
  cases hread : readKvItem f disk (hashGen key) with
  | none => simp [hread] at h
  | some row =>
    simp only [hread] at h
    obtain ⟨kv',hput,hpair⟩ := Option.map_eq_some_iff.mp h
    cases hpair
    rw [readKvItem_some hread]
    exact ⟨rfl,by omega,hput⟩

theorem mapfileKvSet_writes (f : Faults) (disk : Disk) (key : Option CStr) (value : Option Value) :
    (∀ w, mapfileKvSet {f with write := w} disk key value = (disk,.fail)) ∨
      ∃ k v kv, key = some k ∧ value = some v ∧ 0 < v.len ∧
        putLoop k v (rowAt (disk.getD []) (hashGen k)) = some kv ∧
        ∀ w, mapfileKvSet {f with write := w} disk key value = writeKvItem w disk kv (hashGen k) := by
  cases key with
  | none => exact Or.inl fun _ => rfl
  | some k =>
    cases value with
    | none => exact Or.inl fun _ => rfl
    | some v =>
      simp only [mapfileKvSet,kvSet]
      split
      · exact Or.inl fun _ => rfl
      · simp only [hashTablePut]
        cases hput : hashTablePutRow f.malloc f.read disk (some k) (some v) with
        | none => exact Or.inl fun _ => rfl
        | some r =>
          obtain ⟨i,kv⟩ := r
          obtain ⟨rfl,hv,hloop⟩ := hashTablePutRow_some hput
          exact Or.inr ⟨k,v,kv,rfl,rfl,hv,hloop,fun _ => rfl⟩

/-- Everything that a set can do: nothing, or one write of the row that the loop leaves. -/
theorem mapfileKvSet_cases (f : Faults) (disk : Disk) (key : Option CStr) (value : Option Value) :
    mapfileKvSet f disk key value = (disk,.fail) ∨
      ∃ k v kv, key = some k ∧ value = some v ∧ 0 < v.len ∧
        putLoop k v (rowAt (disk.getD []) (hashGen k)) = some kv ∧
        mapfileKvSet f disk key value = writeKvItem f.write disk kv (hashGen k) := by
  rcases mapfileKvSet_writes f disk key value with h | ⟨k,v,kv,hk,hv,hpos,hput,h⟩
  · exact Or.inl (h f.write)
  · exact Or.inr ⟨k,v,kv,hk,hv,hpos,hput,h f.write⟩

theorem mapfileKvDel_writes (f : Faults) (disk : Disk) (key : Option CStr) :
    (∀ w, mapfileKvDel {f with write := w} disk key = (disk,.fail)) ∨
      ∃ k, key = some k ∧ ∀ w, mapfileKvDel {f with write := w} disk key =
        writeKvItem w disk (rmLoop k (rowAt (disk.getD []) (hashGen k))) (hashGen k) := by
  cases key with
  | none => exact Or.inl fun _ => rfl
  | some k =>
    simp only [mapfileKvDel,kvDel,hashTableRm]
    split
    · exact Or.inl fun _ => rfl
    · cases hread : readKvItem f.read disk (hashGen k) with
      | none => exact Or.inl fun _ => rfl
      | some kv =>
        refine Or.inr ⟨k,rfl,fun _ => ?_⟩
        rw [readKvItem_some hread]

theorem mapfileKvDel_cases (f : Faults) (disk : Disk) (key : Option CStr) :
    mapfileKvDel f disk key = (disk,.fail) ∨
      ∃ k, key = some k ∧ mapfileKvDel f disk key =
        writeKvItem f.write disk (rmLoop k (rowAt (disk.getD []) (hashGen k))) (hashGen k) := by
  rcases mapfileKvDel_writes f disk key with h | ⟨k,hk,h⟩
  · exact Or.inl (h f.write)
  · exact Or.inr ⟨k,hk,h f.write⟩

end MapfileFile
end IotBase
