import IotBase.MapfileRow

/-! The bytes of the row buffer that a lookup compares and copies, for a file of
any content. The length that drives the copy is the signed one in the file. -/
namespace IotBase
namespace MapfileAccess
open RawBytes CString MapfileItem MapfileStore MapfileFile MapfileRow

/-- What a lookup does with `count` bytes of the row buffer, from byte `start` on. -/
inductive Access
  | compare (start count : ℕ) | copy (start count : ℕ)
  deriving DecidableEq

/-- Comparisons stay inside a key field, copies inside a value field. -/
def Access.Inside : Access → Prop
  | .compare start count => ∃ j < tableRowSize, itemMaxLen*j ≤ start ∧
      start+count ≤ itemMaxLen*j+itemMaxKeyLen
  | .copy start count => ∃ j < tableRowSize, itemMaxLen*j+itemMaxKeyLen ≤ start ∧
      start+count ≤ itemMaxLen*j+itemMaxKeyLen+itemMaxValLen

def copied : List Access → ℕ
  | [] => 0
  | .compare _ _::rest => copied rest
  | .copy _ count::rest => count+copied rest

/-- The loop of `hash_table_get` from slot `j` on, with its accesses: `memcmp` reads
`strlen(key)` bytes, `memcpy` as many as the new `*len` converted to `size_t`. -/
def getLoopTrace (key : CStr) (len : ℤ) (j : ℕ) :
    List KvItem → List Access × Option (ℤ × Bytes)
  | [] => ([],none)
  | p::rest =>
    if p.Live then
      let compare := Access.compare (itemMaxLen*j) key.strlen
      if keyMatches (p::rest) key then
        let r := copyOut p rest len
        ([compare,.copy (itemMaxLen*j+itemMaxKeyLen) (toSizeT r.1)],some r)
      else
        let r := getLoopTrace key len (j+1) rest
        (compare::r.1,r.2)
    else ([],none)

def kvGetTrace (malloc : Bool) (f : ReadFaults) (disk : Disk) (key : CStr) (len : ℤ) :
    List Access × Option (ℤ × Bytes) :=
  if len ≤ 0 then ([],none)
  else if malloc then ([],none)
  else
    match readKvItem f disk (hashGen key) with
    | none => ([],none)
    | some kv => getLoopTrace key len 0 kv

theorem getLoopTrace_result (key : CStr) (len : ℤ) (j : ℕ) (row : List KvItem) :
    (getLoopTrace key len j row).2 = getLoop key len row := by
  induction row generalizing j with
  | nil => rfl
  | cons p rest ih =>
    simp only [getLoopTrace,getLoop]
    split
    · split
      · rfl
      · exact ih (j+1)
    · rfl

theorem kvGetTrace_result (malloc : Bool) (f : ReadFaults) (disk : Disk) (key : CStr) (len : ℤ) :
    (kvGetTrace malloc f disk key len).2 = mapfileKvGet malloc f disk (some key) (some len) := by
  simp only [kvGetTrace,mapfileKvGet,kvGet,hashTableGet]
  split
  · rfl
  · split
    · rfl
    · cases readKvItem f disk (hashGen key) with
      | none => rfl
      | some kv => exact getLoopTrace_result key len 0 kv

/-- A lookup that is safe: it makes at most one comparison for each slot, stays inside the
fields, and a result has copied `1` to `min(*len, ITEM_MAX_VAL_LEN)` bytes, as many as the
new `*len` says. -/
structure GetSafe (malloc : Bool) (f : ReadFaults) (disk : Disk) (key : CStr) (len : ℤ) : Prop where
  halts : (kvGetTrace malloc f disk key len).1.length ≤ tableRowSize+1
  inside : ∀ a ∈ (kvGetTrace malloc f disk key len).1, a.Inside
  result : ∀ n v, mapfileKvGet malloc f disk (some key) (some len) = some (n,v) →
    1 ≤ n ∧ n ≤ min len itemMaxValLen ∧ n = copied (kvGetTrace malloc f disk key len).1

/-- The slot that answers for `key`, the first one whose name starts with it where only live
slots come before, stores a positive length that leaves at most a value field to copy. -/
def HitInBounds (row : List KvItem) (key : CStr) (len : ℤ) : Prop :=
  ∀ pre p post, row = pre ++ p::post → (∀ q ∈ pre, q.Live ∧ ¬ key.bytes <+: q.name) → p.Live →
    key.bytes <+: p.name → 0 < p.valueLen.toInt ∧ min p.valueLen.toInt len ≤ itemMaxValLen

/-- The condition read off the slot at which the search stops. -/
theorem hitInBounds_iff {row : List KvItem} {key : CStr} (hk : key.strlen ≤ itemMaxKeyLen) {len : ℤ} :
    HitInBounds row key len ↔ ∀ p, searchHit key row = some p →
      0 < p.valueLen.toInt ∧ min p.valueLen.toInt len ≤ itemMaxValLen :=
  forall_firstHit_iff hk

theorem copyOut_len (p : KvItem) (rest : List KvItem) (len : ℤ) :
    (copyOut p rest len).1 = min p.valueLen.toInt len := by
  simp only [copyOut]
  split <;> omega

theorem toSizeT_eq {n : ℤ} (h : 0 ≤ n) (hn : n ≤ itemMaxValLen) : (toSizeT n : ℤ) = n := by
  have h128 : itemMaxValLen = 128 := rfl
  rw [toSizeT_of_nonneg h (by omega)]
  omega

section loop
variable {key : CStr} {len : ℤ}

theorem getLoop_len {row : List KvItem} {n : ℤ} {v : Bytes} (h : getLoop key len row = some (n,v)) :
    ∃ p, searchHit key row = some p ∧ n = min p.valueLen.toInt len := by
  cases hhit : searchHit key row with
  | none =>
    rw [getLoop_of_miss len hhit] at h
    cases h
  | some p =>
    obtain ⟨post,hget⟩ := getLoop_hit len hhit
    rw [hget] at h
    have hn := congrArg Prod.fst (Option.some.inj h)
    rw [copyOut_len] at hn
    exact ⟨p,rfl,hn.symm⟩

theorem getLoop_some {row : List KvItem} {p : KvItem} (h : searchHit key row = some p) :
    ∃ v, getLoop key len row = some (min p.valueLen.toInt len,v) := by
  obtain ⟨post,hget⟩ := getLoop_hit len h
  rw [← copyOut_len p post len]
  exact ⟨_,hget⟩

theorem getLoopTrace_length (j : ℕ) (row : List KvItem) :
    (getLoopTrace key len j row).1.length ≤ row.length+1 := by
  induction row generalizing j with
  | nil => simp [getLoopTrace]
  | cons p rest ih =>
    have hrest := ih (j+1)
    simp only [getLoopTrace]
    split
    · split
      · simp
      · simp only [List.length_cons]
        omega
    · simp

theorem getLoopTrace_inside (hk : key.strlen ≤ itemMaxKeyLen) {row : List KvItem}
    (h : ∀ p, searchHit key row = some p →
      0 < p.valueLen.toInt ∧ min p.valueLen.toInt len ≤ itemMaxValLen) (hlen : 0 < len) {j : ℕ}
    (hj : j+row.length ≤ tableRowSize) :
    ∀ a ∈ (getLoopTrace key len j row).1, a.Inside := by
  induction row generalizing j with
  | nil => simp [getLoopTrace]
  | cons p rest ih =>
    rw [List.length_cons] at hj
    have hcompare : (Access.compare (itemMaxLen*j) key.strlen).Inside :=
      ⟨j,by omega,le_rfl,by omega⟩
    simp only [getLoopTrace]
    split
    · rename_i hlive
      split
      · rename_i hm
        obtain ⟨hpos,hmax⟩ := h p (by simp [searchHit,hlive,hm])
        have hsize := toSizeT_eq (n:=min p.valueLen.toInt len) (by omega) hmax
        have hcopy : (Access.copy (itemMaxLen*j+itemMaxKeyLen)
            (toSizeT (copyOut p rest len).1)).Inside := by
          rw [copyOut_len]
          exact ⟨j,by omega,le_rfl,by omega⟩
        simpa using ⟨hcompare,hcopy⟩
      · rename_i hm
        have hrest : ∀ q, searchHit key rest = some q →
            0 < q.valueLen.toInt ∧ min q.valueLen.toInt len ≤ itemMaxValLen := by
          intro q hq
          exact h q (by simpa [searchHit,hlive,hm] using hq)
        exact List.forall_mem_cons.mpr ⟨hcompare,ih hrest (by omega)⟩
    · simp

theorem getLoopTrace_copied {row : List KvItem} {p : KvItem} (h : searchHit key row = some p) (j : ℕ) :
    copied (getLoopTrace key len j row).1 = toSizeT (min p.valueLen.toInt len) := by
  induction row generalizing j with
  | nil => cases h
  | cons q rest ih =>
    simp only [searchHit,getLoopTrace] at h ⊢
    split at h
    · split at h
      · cases h
        rename_i hlive hm
        simp [hlive,hm,copied,copyOut_len]
      · rename_i hlive hm
        simp [hlive,hm,copied,ih h (j+1)]
    · cases h

end loop

theorem rowOk_hitInBounds {i : ℕ} {row : List KvItem} (h : RowOk i row) (key : CStr) (len : ℤ) :
    HitInBounds row key len := by
  rintro pre p post rfl - hlive -
  have hmax := (h.slotOk (p:=p) (by simp) hlive).len_le
  have hpos : p.valueLen.toNat ≠ 0 := fun hz => hlive (BitVec.eq_of_toNat_eq hz)
  have h128 : itemMaxValLen = 128 := rfl
  rw [valueLen_toInt hmax]
  exact ⟨by omega,by omega⟩

def keyA : CStr := ⟨[97],by decide⟩

/-- A slot of key `a` whose stored length is `-1`. -/
def foreignItem : KvItem :=
  {zeroItem with
    key := 97::List.replicate (itemMaxKeyLen-1) 0
    valueLen := -1
    key_length := by simp [itemMaxKeyLen]}

def foreignFile : Bytes := putRow (List.replicate fileLen 0) (hashGen keyA) [foreignItem,zeroItem]

theorem readKvItem_disturbed {f : ReadFaults} (disk : Disk) (i : ℕ) (h : f ≠ {}) :
    readKvItem f disk i = none := by
  cases hread : readKvItem f disk i with
  | none => rfl
  | some kv =>
    obtain ⟨b₁,b₂,b₃,b₄⟩ := f
    cases disk with
    | none => cases hread
    | some file =>
      simp only [readKvItem] at hread
      cases b₁ <;> cases b₂ <;> cases b₃ <;> cases b₄ <;> simp_all

theorem kvGetTrace_disturbed {malloc : Bool} {f : ReadFaults} (disk : Disk) (key : CStr) (len : ℤ)
    (h : ¬ (malloc = false ∧ f = {})) : kvGetTrace malloc f disk key len = ([],none) := by
  rw [kvGetTrace]
  split
  · rfl
  · cases malloc with
    | true => rfl
    | false => simp [readKvItem_disturbed disk (hashGen key) (f:=f) (by simpa using h)]

theorem kvGetTrace_ok {file : Bytes} {key : CStr} {len : ℤ} (hlen : 0 < len)
    (hfit : rowOff (hashGen key)+rowLen ≤ file.length) :
    kvGetTrace false {} (some file) key len = getLoopTrace key len 0 (rowAt file (hashGen key)) := by
  simp [kvGetTrace,readKvItem_ok hfit,hlen]

/-- On any file of full size, a lookup is safe exactly when it is disturbed before its loop or
the slot that answers stores a length that is positive and leaves at most a value field to copy. -/
theorem kvGet_safe_iff {file : Bytes} (hfile : file.length = fileLen) {key : CStr}
    (hk : key.strlen < itemMaxKeyLen) {len : ℤ} (hlen : 1 ≤ len) (malloc : Bool) (f : ReadFaults) :
    GetSafe malloc f (some file) key len ↔
      (malloc = false → f = {} → HitInBounds (rowAt file (hashGen key)) key len) := by
  by_cases hcalm : malloc = false ∧ f = {}
  · obtain ⟨rfl,rfl⟩ := hcalm
    have htrace := kvGetTrace_ok (by omega : 0 < len) (key_fits hfile key)
    have hget : mapfileKvGet false {} (some file) (some key) (some len) =
        getLoop key len (rowAt file (hashGen key)) := by
      rw [← kvGetTrace_result,htrace,getLoopTrace_result]
    have hlength := rowAt_length file (hashGen key)
    simp only [forall_const,hitInBounds_iff hk.le]
    constructor
    · intro h p hp
      obtain ⟨v,hv⟩ : ∃ v, getLoop key len _ = some (min p.valueLen.toInt len,v) := getLoop_some hp
      obtain ⟨hpos,hmax,-⟩ := h.result _ v (hget.trans hv)
      exact ⟨by omega,by omega⟩
    · intro h
      refine ⟨?_,?_,?_⟩
      · rw [htrace]
        exact (getLoopTrace_length 0 _).trans (by rw [hlength])
      · rw [htrace]
        exact getLoopTrace_inside hk.le h (by omega) (by rw [hlength,Nat.zero_add])
      · intro n v hn
        rw [hget] at hn
        obtain ⟨p,hp,rfl⟩ := getLoop_len hn
        obtain ⟨hpos,hmax⟩ := h p hp
        rw [htrace,getLoopTrace_copied hp,toSizeT_eq (by omega) hmax]
        exact ⟨by omega,by omega,rfl⟩
  · have htrace := kvGetTrace_disturbed (some file) key len hcalm
    have hget : mapfileKvGet malloc f (some file) (some key) (some len) = none := by
      rw [← kvGetTrace_result,htrace]
    constructor
    · intro _ hm hf
      exact absurd ⟨hm,hf⟩ hcalm
    · intro _
      exact ⟨by simp [htrace],by simp [htrace],by simp [hget]⟩

def storedItem : KvItem := insertItem zeroItem keyA ⟨[5,6],2,by decide⟩

def storedFile : Bytes := putRow (List.replicate fileLen 0) (hashGen keyA) [storedItem,zeroItem]

theorem kvGet_safe_stored : GetSafe false {} (some storedFile) keyA 16 := by
  have hlen : storedFile.length = fileLen := by simp [storedFile]
  refine (kvGet_safe_iff hlen (by decide) (by decide) false {}).mpr fun _ _ => ?_
  have hhit : searchHit keyA [storedItem,zeroItem] = some storedItem := by decide +kernel
  rw [storedFile,rowAt_putRow_self (key_fits_zero keyA) rfl,hitInBounds_iff (by decide)]
  intro p hp
  rw [hhit] at hp
  cases hp
  decide +kernel

/-- The slot of key `a` in `foreignFile` answers with the length `-1`, so that `memcpy` is asked
for `2^64 - 1` bytes. -/
theorem kvGet_foreign_unsafe : foreignFile.length = fileLen ∧ keyA.strlen < itemMaxKeyLen ∧
    ¬ GetSafe false {} (some foreignFile) keyA 16 := by
  have hlen : foreignFile.length = fileLen := by simp [foreignFile]
  have hat : rowAt foreignFile (hashGen keyA) = [foreignItem,zeroItem] :=
    rowAt_putRow_self (key_fits_zero keyA) rfl
  have hm : keyA.bytes <+: foreignItem.name := by decide
  refine ⟨hlen,by decide,fun h => ?_⟩
  have hhit : searchHit keyA [foreignItem,zeroItem] = some foreignItem :=
    searchHit_hit (by decide) [zeroItem] (by decide) hm
  obtain ⟨v,hv⟩ : ∃ v, getLoop keyA 16 [foreignItem,zeroItem] = some (min (-1) 16,v) :=
    getLoop_some hhit
  have hget : mapfileKvGet false {} (some foreignFile) (some keyA) (some 16) =
      getLoop keyA 16 [foreignItem,zeroItem] := by
    rw [← kvGetTrace_result,kvGetTrace_ok (by decide) (key_fits hlen keyA),getLoopTrace_result,hat]
  obtain ⟨hpos,-,-⟩ := h.result _ v (hget.trans hv)
  exact absurd hpos (by decide)

end MapfileAccess
end IotBase
