import IotBase.MapfileHandles

/-! One set on an arbitrary file of full size, whatever bytes its row holds. -/
namespace IotBase
namespace MapfileSet
open RawBytes CString MapfileItem MapfileStore MapfileFile MapfileRow
open MapfileRefinement (Key Op answer_take kvGet_ok call_set call_set_full keyAB keyBA oneByte)
open MapfileHandles (putLoop_holds)

def slotOff (location j : ℕ) : ℕ := rowOff location+itemMaxLen*j

/-- The row is full for `key`: its slots are live and none of their key fields starts with it. -/
def Full (key : CStr) (row : List KvItem) : Prop := ∀ p ∈ row, p.Live ∧ ¬ key.bytes <+: p.key

theorem full_iff_name {key : CStr} {row : List KvItem} :
    Full key row ↔ ∀ p ∈ row, p.Live ∧ ¬ key.bytes <+: p.name :=
  forall₂_congr fun _ _ => and_congr_right fun _ => not_congr (prefix_fieldStr_iff key.nul_free)

theorem putLoop_eq_none_iff {key : CStr} (hk : key.strlen ≤ itemMaxKeyLen) (value : Value)
    (row : List KvItem) : putLoop key value row = none ↔ Full key row := by
  induction row with
  | nil => simp [putLoop,Full]
  | cons p rest ih =>
    rw [full_iff_name] at ih
    rw [full_iff_name,List.forall_mem_cons]
    by_cases hp : p.Live
    · by_cases hm : key.bytes <+: p.name
      · simp only [putLoop,hp,(keyMatches_iff rest hk).mpr hm,if_true]
        constructor
        · intro h
          cases h
        · rintro ⟨⟨_,hn⟩,_⟩
          exact absurd hm hn
      · simp only [putLoop,hp,keyMatches_eq_false rest hk hm,if_true,Bool.false_eq_true,if_false,
          Option.map_eq_none_iff,ih]
        exact ⟨fun h => ⟨⟨trivial,hm⟩,h⟩,fun h => h.2⟩
    · simp [putLoop,hp]

theorem putLoop_set {key : CStr} {value : Value} {row row' : List KvItem}
    (h : putLoop key value row = some row') : ∃ j p, j < row.length ∧ row' = row.set j p := by
  obtain ⟨pre,p,post,q,rfl,rfl,-⟩ := putLoop_some h
  refine ⟨pre.length,q,by simp,?_⟩
  rw [List.set_append_right _ _ (Nat.le_refl _),Nat.sub_self,List.set_cons_zero]

theorem putRow_set {file : Bytes} {i j : ℕ} (hfit : rowOff i+rowLen ≤ file.length)
    (hj : j < tableRowSize) (p : KvItem) :
    putRow file i ((rowAt file i).set j p) = splice file (slotOff i j) p.encode := by
  have hlen : itemMaxLen*j+p.encode.length ≤ rowLen := by
    rw [p.encode_length,← Nat.mul_succ,rowLen]
    exact Nat.mul_le_mul_left _ hj
  have hrow : encodeRow (rowAt file i) = slice file (rowOff i) rowLen :=
    encodeRow_decodeRow (slice_length _ _ _)
  rw [putRow,encodeRow_set (by rw [rowAt_length]; exact hj),hrow,splice_slice hfit hlen]
  rfl

theorem slot_fits {file : Bytes} {i j : ℕ} (hfit : rowOff i+rowLen ≤ file.length)
    (hj : j < tableRowSize) : slotOff i j+itemMaxLen ≤ file.length := by
  have hslot : itemMaxLen*j+itemMaxLen ≤ rowLen := by
    rw [← Nat.mul_succ,rowLen]
    exact Nat.mul_le_mul_left _ hj
  rw [slotOff]
  omega

/-- A set of a value fails exactly when its row is full for the key. -/
theorem set_fail_iff {file : Bytes} (key : Key) (value : Value)
    (hfit : rowOff (hashGen key)+rowLen ≤ file.length) (hv : 0 < value.len) :
    (mapfileKvSet {} (some file) (some key) (some value)).2 = .fail ↔
      Full key (rowAt file (hashGen key)) := by
  have hcall : mapfileKvSet {} (some file) (some key) (some value) =
      (Op.set key value).call (some file) := rfl
  rw [← putLoop_eq_none_iff (Nat.le_of_lt key.2) value,hcall]
  cases hput : putLoop key value (rowAt file (hashGen key)) with
  | none =>
    rw [call_set_full key value hfit hput]
    exact ⟨fun _ => rfl,fun _ => rfl⟩
  | some row =>
    rw [call_set key value hfit hv hput]
    exact ⟨fun h => (by cases h),fun h => (by cases h)⟩

/-- On every file of full size a set fails exactly when its row is full for the key, and then
changes nothing; else it changes one slot of that row, and a get of the key reads the value. -/
theorem kv_set_arbitrary_file (file : Bytes) (hfile : file.length = fileLen) (key : Key)
    (value : Value) (hv : 0 < value.len) :
    ((mapfileKvSet {} (some file) (some key) (some value)).2 = .fail ↔
      ∀ p ∈ rowAt file (hashGen key), p.valueLen ≠ 0 ∧ ¬ key.1.bytes <+: p.key) ∧
    ((mapfileKvSet {} (some file) (some key) (some value)).2 = .fail →
      (mapfileKvSet {} (some file) (some key) (some value)).1 = some file) ∧
    ((mapfileKvSet {} (some file) (some key) (some value)).2 = .ok → ∃ file' j,
      (mapfileKvSet {} (some file) (some key) (some value)).1 = some file' ∧
      file'.length = file.length ∧ j < tableRowSize ∧
      (∀ k, k < slotOff (hashGen key) j ∨ slotOff (hashGen key) j+itemMaxLen ≤ k →
        file'[k]? = file[k]?) ∧
      ∀ n : ℤ, 1 ≤ n → mapfileKvGet false {} (some file') (some key) (some n) =
        some (min n (min value.len itemMaxValLen),
          value.bytes.take (min n (min value.len itemMaxValLen)).toNat)) := by
  have hfit := key_fits hfile key
  refine ⟨set_fail_iff key value hfit hv,?_⟩
  have hcall : mapfileKvSet {} (some file) (some key) (some value) =
      (Op.set key value).call (some file) := rfl
  rw [hcall]
  cases hput : putLoop key value (rowAt file (hashGen key)) with
  | none =>
    rw [call_set_full key value hfit hput]
    exact ⟨fun _ => rfl,fun h => (by cases h)⟩
  | some row =>
    rw [call_set key value hfit hv hput]
    refine ⟨fun h => (by cases h),fun _ => ?_⟩
    obtain ⟨j,p,hj,hrow⟩ := putLoop_set hput
    rw [rowAt_length] at hj
    have hfile' : putRow file (hashGen key) row = splice file (slotOff (hashGen key) j) p.encode := by
      rw [hrow,putRow_set hfit hj]
    refine ⟨_,j,rfl,putRow_length _ _ _,hj,fun k hk => ?_,fun n hn => ?_⟩
    · rw [hfile']
      have hslot := slot_fits hfit hj
      rw [← p.encode_length] at hslot hk
      exact getElem?_splice_outside hslot hk
    · have hlen : row.length = tableRowSize := by rw [putLoop_length hput,rowAt_length]
      obtain ⟨q,hq,hqlen,hstored⟩ := putLoop_holds key.2 hv hput
      rw [kvGet_ok key (by rwa [putRow_length]) (by omega),rowAt_putRow_self hfit hlen,
        getLoop_of_hit hq (by rw [hqlen]; exact clampLen_le value) (by omega),hstored,
        answer_take hv (by omega)]
      rfl

def takenFile : Bytes :=
  putRow (List.replicate fileLen 0) (hashGen keyAB) [insertItem zeroItem keyAB oneByte,zeroItem]

theorem kv_set_second_slot : ∃ file' j,
    (mapfileKvSet {} (some takenFile) (some keyBA) (some oneByte)).1 = some file' ∧ j < tableRowSize ∧
    (∀ k, k < slotOff (hashGen keyBA) j ∨ slotOff (hashGen keyBA) j+itemMaxLen ≤ k →
      file'[k]? = takenFile[k]?) ∧
    mapfileKvGet false {} (some file') (some keyBA) (some 1) = some (1,[1]) := by
  have hfile : takenFile.length = fileLen := by simp [takenFile]
  obtain ⟨hiff,-,hok⟩ := kv_set_arbitrary_file takenFile hfile keyBA oneByte (by decide)
  have hrow : rowAt takenFile (hashGen keyBA) = [insertItem zeroItem keyAB oneByte,zeroItem] := by
    rw [show hashGen keyBA = hashGen keyAB by decide]
    exact rowAt_putRow_self (key_fits_zero keyAB) rfl
  have hret : (mapfileKvSet {} (some takenFile) (some keyBA) (some oneByte)).2 = .ok := by
    cases hr : (mapfileKvSet {} (some takenFile) (some keyBA) (some oneByte)).2 with
    | ok => rfl
    | fail =>
      have hfull := hiff.mp hr
      rw [hrow] at hfull
      exact absurd rfl (hfull zeroItem (by simp)).1
  obtain ⟨file',j,hdisk,-,hj,hother,hget⟩ := hok hret
  exact ⟨file',j,hdisk,hj,hother,hget 1 (by decide)⟩

end MapfileSet
end IotBase
