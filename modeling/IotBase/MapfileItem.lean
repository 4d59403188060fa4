import IotBase.CString

/-! The record `kv_item_t` of a key-value file and its bytes. A slot is kept as
the struct with its fields; the file holds the bytes of `TABLE_ROW_SIZE` such
structs for each hash index. -/
namespace IotBase
namespace MapfileItem
open RawBytes CString

def tableColSize : ℕ := 384
def tableRowSize : ℕ := 2
def itemMaxKeyLen : ℕ := 96
def itemMaxValLen : ℕ := 128
/-- `sizeof(kv_item_t)`; the three fields leave no padding. -/
def itemMaxLen : ℕ := itemMaxKeyLen+itemMaxValLen+4
def rowLen : ℕ := itemMaxLen*tableRowSize
def fileLen : ℕ := itemMaxLen*tableRowSize*tableColSize

/-- `kv_item_t`: the char and value fields always have their declared sizes. -/
@[ext] structure KvItem where
  key : Bytes
  value : Bytes
  valueLen : BitVec 32
  key_length : key.length = itemMaxKeyLen
  value_length : value.length = itemMaxValLen
  deriving DecidableEq

attribute [simp] KvItem.key_length KvItem.value_length

/-- A slot is in use when its `value_len` is not zero. -/
def KvItem.Live (p : KvItem) : Prop := p.valueLen ≠ 0

instance (p : KvItem) : Decidable p.Live := inferInstanceAs (Decidable (p.valueLen ≠ 0))

def KvItem.name (p : KvItem) : Bytes := fieldStr p.key

/-- The slot after `memset(p, 0, ITEM_MAX_LEN)`. -/
def zeroItem : KvItem where
  key := List.replicate itemMaxKeyLen 0
  value := List.replicate itemMaxValLen 0
  valueLen := 0
  key_length := List.length_replicate
  value_length := List.length_replicate

@[simp] theorem zeroItem_not_live : ¬ zeroItem.Live := fun h => h rfl

def KvItem.encode (p : KvItem) : Bytes := p.key ++ p.value ++ word32Bytes p.valueLen

def KvItem.decode (b : Bytes) : KvItem where
  key := slice b 0 itemMaxKeyLen
  value := slice b itemMaxKeyLen itemMaxValLen
  valueLen := word32 (slice b (itemMaxKeyLen+itemMaxValLen) 4)
  key_length := slice_length _ _ _
  value_length := slice_length _ _ _

@[simp] theorem KvItem.encode_length (p : KvItem) : p.encode.length = itemMaxLen := by
  simp [KvItem.encode,itemMaxLen,Nat.add_assoc]

@[simp] theorem KvItem.decode_encode (p : KvItem) : KvItem.decode p.encode = p := by
  have hk := p.key_length
  have hv := p.value_length
  have hword : slice (word32Bytes p.valueLen) 0 4 = word32Bytes p.valueLen :=
    slice_self (word32Bytes p.valueLen)
  apply KvItem.ext
  · simp only [KvItem.decode,KvItem.encode,List.append_assoc]
    exact slice_append_left hk
  · simp only [KvItem.decode,KvItem.encode,List.append_assoc]
    rw [slice_append_right (by omega),hk,Nat.sub_self]
    exact slice_append_left hv
  · simp only [KvItem.decode,KvItem.encode]
    rw [slice_append_right (by simp),List.length_append,hk,hv,Nat.sub_self,hword,
      word32_word32Bytes]

theorem KvItem.encode_decode {b : Bytes} (h : b.length = itemMaxLen) :
    (KvItem.decode b).encode = b := by
  have hlen : itemMaxKeyLen+itemMaxValLen+4 = b.length := h.symm
  simp only [KvItem.encode,KvItem.decode]
  rw [word32Bytes_word32 (slice_length _ _ _)]
  have h₁ : slice b 0 itemMaxKeyLen ++ slice b itemMaxKeyLen itemMaxValLen =
      slice b 0 (itemMaxKeyLen+itemMaxValLen) := by
    simpa using slice_append_slice b 0 itemMaxKeyLen itemMaxValLen (by omega)
  have h₂ := slice_append_slice b 0 (itemMaxKeyLen+itemMaxValLen) 4 (by omega)
  rw [Nat.zero_add] at h₂
  rw [h₁,h₂,hlen,slice_self]

theorem zeroItem_encode : zeroItem.encode = List.replicate itemMaxLen 0 := by
  have hw : word32Bytes 0 = List.replicate 4 0 := rfl
  simp only [KvItem.encode,zeroItem,hw,← List.replicate_add,itemMaxLen]

theorem encode_eq_zero_iff {p : KvItem} :
    p.encode = List.replicate itemMaxLen 0 ↔ p = zeroItem := by
  constructor
  · intro h
    rw [← p.decode_encode,h,← zeroItem_encode,KvItem.decode_encode]
  · rintro rfl
    exact zeroItem_encode

def encodeRow (kv : List KvItem) : Bytes := kv.flatMap KvItem.encode

def decodeRow : ℕ → Bytes → List KvItem
  | 0, _ => []
  | n+1, b => KvItem.decode (slice b 0 itemMaxLen)::decodeRow n (b.drop itemMaxLen)

@[simp] theorem encodeRow_length (kv : List KvItem) :
    (encodeRow kv).length = itemMaxLen*kv.length := by
  induction kv with
  | nil => rfl
  | cons p rest ih =>
    simp only [encodeRow,List.flatMap_cons,List.length_append,KvItem.encode_length,
      List.length_cons] at ih ⊢
    rw [ih,Nat.mul_succ,Nat.add_comm]

@[simp] theorem decodeRow_length (n : ℕ) (b : Bytes) : (decodeRow n b).length = n := by
  induction n generalizing b with
  | zero => rfl
  | succ n ih => simp [decodeRow,ih]

@[simp] theorem decodeRow_encodeRow (kv : List KvItem) : decodeRow kv.length (encodeRow kv) = kv := by
  induction kv with
  | nil => rfl
  | cons p rest ih =>
    have htail : (encodeRow (p::rest)).drop itemMaxLen = encodeRow rest := by
      rw [encodeRow,List.flatMap_cons,← KvItem.encode_length p,List.drop_left]
      rfl
    have hhead : slice (encodeRow (p::rest)) 0 itemMaxLen = p.encode := by
      rw [encodeRow,List.flatMap_cons]
      exact slice_append_left p.encode_length
    rw [List.length_cons,decodeRow,htail,hhead,ih,KvItem.decode_encode]

theorem encodeRow_decodeRow {n : ℕ} {b : Bytes} (h : b.length = itemMaxLen*n) :
    encodeRow (decodeRow n b) = b := by
  induction n generalizing b with
  | zero =>
    have hb : b = [] := List.eq_nil_of_length_eq_zero (by simpa using h)
    simp [decodeRow,encodeRow,hb]
  | succ n ih =>
    rw [Nat.mul_succ] at h
    have htail := ih (b:=b.drop itemMaxLen) (by simp; omega)
    have hhead : slice b 0 itemMaxLen = b.take itemMaxLen := by
      rw [slice_eq_take (by omega),List.drop_zero]
    simp only [encodeRow] at htail
    rw [decodeRow,encodeRow,List.flatMap_cons,htail,KvItem.encode_decode (slice_length _ _ _),
      hhead,List.take_append_drop]

theorem encodeRow_set {kv : List KvItem} {j : ℕ} (h : j < kv.length) (p : KvItem) :
    encodeRow (kv.set j p) = splice (encodeRow kv) (itemMaxLen*j) p.encode := by
  induction kv generalizing j with
  | nil => simp at h
  | cons q rest ih =>
    have hcons : ∀ q : KvItem, encodeRow (q::rest) = q.encode ++ encodeRow rest := fun _ => rfl
    cases j with
    | zero =>
      have hq := q.encode_length
      have hp := p.encode_length
      rw [List.set_cons_zero,hcons,hcons,Nat.mul_zero,
        splice_fits (by rw [List.length_append]; omega),Nat.zero_add,hp,← hq,List.drop_left]
      rfl
    | succ j =>
      have hoff : itemMaxLen*(j+1) = q.encode.length+itemMaxLen*j := by
        rw [q.encode_length,Nat.mul_succ,Nat.add_comm]
      rw [List.set_cons_succ,hoff,hcons,splice_append_right,← ih (by simpa using h)]
      rfl

/-- The bytes of a zeroed row are the slots `memset` leaves. -/
theorem decodeRow_replicate (n : ℕ) :
    decodeRow n (List.replicate (itemMaxLen*n) 0) = List.replicate n zeroItem := by
  induction n with
  | zero => rfl
  | succ n ih =>
    have hd : KvItem.decode (List.replicate itemMaxLen 0) = zeroItem := by
      rw [← zeroItem_encode,KvItem.decode_encode]
    have hl : itemMaxLen*(n+1)-itemMaxLen = itemMaxLen*n := by
      rw [Nat.mul_succ,Nat.add_sub_cancel]
    rw [decodeRow,slice_replicate 0 (by rw [Nat.mul_succ]; omega),hd,List.drop_replicate,hl,ih,
      List.replicate_succ]

end MapfileItem
end IotBase
