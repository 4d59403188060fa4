import IotBase.MapfileFile

/-! What the search loops of the store do to one row. Rows reachable without a
misdirected match keep their live slots at the front, under names of which no
later one starts an earlier one. -/
namespace IotBase
namespace MapfileRow
open RawBytes CString MapfileItem MapfileStore MapfileFile

def stored (p : KvItem) : Bytes := p.value.take p.valueLen.toNat

/-- The slot at which the loops of `hash_table_put` and `hash_table_get` stop on a match. -/
def searchHit (key : CStr) : List KvItem → Option KvItem
  | [] => none
  | p::rest =>
    if p.Live then (if keyMatches (p::rest) key then some p else searchHit key rest) else none

def lookupRow (key : CStr) : List KvItem → Option Bytes
  | [] => none
  | p::rest => if p.Live ∧ p.name = key.bytes then some (stored p) else lookupRow key rest

/-- The first live slot whose name starts with `key`, with live slots only before it, is
the slot of `key`. -/
def ExactHit (key : CStr) (row : List KvItem) : Prop :=
  ∀ pre p post, row = pre ++ p::post → (∀ q ∈ pre, q.Live ∧ ¬ key.bytes <+: q.name) → p.Live →
    key.bytes <+: p.name → p.name = key.bytes

/-- Every live slot whose name starts with `key` is the slot of `key` and the last live one. -/
def RmExact (key : CStr) (row : List KvItem) : Prop :=
  ∀ pre p post, row = pre ++ p::post → p.Live → key.bytes <+: p.name →
    p.name = key.bytes ∧ ∀ q ∈ post, ¬ q.Live

/-- A live slot of row `i`: its length is in bounds and its name belongs to the row. -/
structure SlotOk (i : ℕ) (p : KvItem) : Prop where
  live : p.Live
  len_le : p.valueLen.toNat ≤ itemMaxValLen
  hash : hashGen ⟨p.name,nul_notMem_fieldStr p.key⟩ = i

/-- Live slots first, then zeroed ones; no later name starts an earlier one. -/
def RowOk (i : ℕ) : List KvItem → Prop
  | [] => True
  | p::rest =>
    (SlotOk i p ∧ (∀ q ∈ rest, q.Live → ¬ q.name <+: p.name) ∧ RowOk i rest) ∨
      ∀ q ∈ p::rest, q = zeroItem

/-- The answer of `mapfile_kv_get` for a stored value and a buffer of `n` bytes. -/
def answer (v : Bytes) (n : ℤ) : ℤ × Bytes := (min n v.length,v.take n.toNat)

theorem keyMatches_iff {key : CStr} {p : KvItem} (rest : List KvItem)
    (hk : key.strlen ≤ itemMaxKeyLen) :
    keyMatches (p::rest) key = true ↔ key.bytes <+: p.name := by
  have hbuf : encodeRow (p::rest) ++ [0] =
      p.key ++ (p.value ++ word32Bytes p.valueLen ++ encodeRow rest ++ [0]) := by
    simp [encodeRow,KvItem.encode]
  rw [keyMatches,List.isPrefixOf_iff_prefix,hbuf,KvItem.name,← prefix_fieldStr_iff key.nul_free]
  constructor
  · intro h
    exact List.prefix_of_prefix_length_le h (List.prefix_append _ _) (by rw [p.key_length]; exact hk)
  · intro h
    exact h.trans (List.prefix_append _ _)

theorem keyMatches_eq_false {key : CStr} {p : KvItem} (rest : List KvItem)
    (hk : key.strlen ≤ itemMaxKeyLen) (h : ¬ key.bytes <+: p.name) :
    keyMatches (p::rest) key = false :=
  Bool.eq_false_iff.mpr (mt (keyMatches_iff rest hk).mp h)

section search
variable {i : ℕ} {key : CStr} (hk : key.strlen ≤ itemMaxKeyLen)
include hk

theorem searchHit_hit {p : KvItem} (rest : List KvItem) (hp : p.Live) (hm : key.bytes <+: p.name) :
    searchHit key (p::rest) = some p := by
  simp [searchHit,hp,(keyMatches_iff rest hk).mpr hm]

theorem searchHit_skip {p : KvItem} (rest : List KvItem) (hp : p.Live)
    (hm : ¬ key.bytes <+: p.name) : searchHit key (p::rest) = searchHit key rest := by
  simp [searchHit,hp,mt (keyMatches_iff rest hk).mp hm]

theorem searchHit_eq_some {row : List KvItem} {p : KvItem} : searchHit key row = some p ↔
    ∃ pre post, row = pre ++ p::post ∧ (∀ q ∈ pre, q.Live ∧ ¬ key.bytes <+: q.name) ∧ p.Live ∧
      key.bytes <+: p.name := by
  constructor
  · intro h
    induction row with
    | nil => cases h
    | cons q rest ih =>
      by_cases hq : q.Live
      · by_cases hm : key.bytes <+: q.name
        · rw [searchHit_hit hk rest hq hm] at h
          cases h
          exact ⟨[],rest,rfl,by simp,hq,hm⟩
        · rw [searchHit_skip hk rest hq hm] at h
          obtain ⟨pre,post,rfl,hpre,hp⟩ := ih h
          exact ⟨q::pre,post,rfl,List.forall_mem_cons.mpr ⟨⟨hq,hm⟩,hpre⟩,hp⟩
      · simp [searchHit,hq] at h
  · rintro ⟨pre,post,rfl,hpre,hp,hm⟩
    induction pre with
    | nil => exact searchHit_hit hk post hp hm
    | cons q pre ih =>
      obtain ⟨hq,hpre⟩ := List.forall_mem_cons.mp hpre
      rw [List.cons_append,searchHit_skip hk _ hq.1 hq.2]
      exact ih hpre

theorem searchHit_spec {row : List KvItem} {p : KvItem} (h : searchHit key row = some p) :
    p ∈ row ∧ p.Live ∧ key.bytes <+: p.name := by
  obtain ⟨pre,post,rfl,-,hp⟩ := (searchHit_eq_some hk).mp h
  exact ⟨by simp,hp⟩

theorem forall_firstHit_iff {P : KvItem → Prop} {row : List KvItem} :
    (∀ pre p post, row = pre ++ p::post → (∀ q ∈ pre, q.Live ∧ ¬ key.bytes <+: q.name) → p.Live →
      key.bytes <+: p.name → P p) ↔ ∀ p, searchHit key row = some p → P p := by
  constructor
  · intro h p hp
    obtain ⟨pre,post,hrow,hpre,hlive,hm⟩ := (searchHit_eq_some hk).mp hp
    exact h pre p post hrow hpre hlive hm
  · intro h pre p post hrow hpre hlive hm
    exact h p ((searchHit_eq_some hk).mpr ⟨pre,post,hrow,hpre,hlive,hm⟩)

/-- A search that is not misdirected is one that stops at its own key or not at all. -/
theorem exactHit_iff {row : List KvItem} :
    ExactHit key row ↔ ∀ p, searchHit key row = some p → p.name = key.bytes :=
  forall_firstHit_iff hk

theorem exactHit_hit {p : KvItem} (rest : List KvItem) (hp : p.Live) (hm : key.bytes <+: p.name) :
    ExactHit key (p::rest) ↔ p.name = key.bytes := by
  rw [exactHit_iff hk,searchHit_hit hk rest hp hm]
  simp

theorem exactHit_skip {p : KvItem} (rest : List KvItem) (hp : p.Live)
    (hm : ¬ key.bytes <+: p.name) : ExactHit key (p::rest) ↔ ExactHit key rest := by
  rw [exactHit_iff hk,exactHit_iff hk,searchHit_skip hk rest hp hm]

end search

theorem lookupRow_dead {key : CStr} {row : List KvItem} (h : ∀ q ∈ row, ¬ q.Live) :
    lookupRow key row = none := by
  induction row with
  | nil => rfl
  | cons q rest ih =>
    have hq : ¬ q.Live := h q (by simp)
    simpa [lookupRow,hq] using ih (fun r hr => h r (by simp [hr]))

theorem rowOk_of_zero (i : ℕ) {row : List KvItem} (h : ∀ q ∈ row, q = zeroItem) : RowOk i row := by
  cases row with
  | nil => trivial
  | cons p rest => exact Or.inr h

theorem not_live_of_zero {row : List KvItem} (h : ∀ q ∈ row, q = zeroItem) : ∀ q ∈ row, ¬ q.Live := by
  intro q hq
  rw [h q hq]
  exact zeroItem_not_live

theorem lookupRow_eq_none {key : CStr} {row : List KvItem}
    (h : ∀ q ∈ row, q.Live → q.name ≠ key.bytes) : lookupRow key row = none := by
  induction row with
  | nil => rfl
  | cons q rest ih =>
    have hq : ¬ (q.Live ∧ q.name = key.bytes) := fun hh => h q (by simp) hh.1 hh.2
    rw [lookupRow,if_neg hq]
    exact ih (fun r hr => h r (by simp [hr]))

/-- A longer name can stop the search only where the key itself is not stored. -/
theorem lookupRow_of_not_exact {i : ℕ} {key : CStr} (hk : key.strlen ≤ itemMaxKeyLen)
    {row : List KvItem} (hrow : RowOk i row) (hex : ¬ ExactHit key row) :
    lookupRow key row = none := by
  induction row with
  | nil => rfl
  | cons p rest ih =>
    rcases hrow with ⟨hp,hlater,hrest⟩ | hz
    · by_cases hm : key.bytes <+: p.name
      · have hn : p.name ≠ key.bytes := fun hn => hex ((exactHit_hit hk rest hp.live hm).mpr hn)
        apply lookupRow_eq_none
        intro q hq hlive he
        rcases List.mem_cons.mp hq with rfl | hq
        · exact hn he
        · exact hlater q hq hlive (by rwa [he])
      · have hn : p.name ≠ key.bytes := fun he => hm (by rw [he])
        have hlook : lookupRow key (p::rest) = lookupRow key rest := by simp [lookupRow,hn]
        rw [hlook]
        exact ih hrest (mt (exactHit_skip hk rest hp.live hm).mpr hex)
    · exact lookupRow_dead (not_live_of_zero hz)

theorem searchHit_stored {i : ℕ} {key : CStr} (hk : key.strlen ≤ itemMaxKeyLen)
    {row : List KvItem} (hrow : RowOk i row) (hex : ExactHit key row) :
    (searchHit key row).map stored = lookupRow key row := by
  induction row with
  | nil => rfl
  | cons p rest ih =>
    rcases hrow with ⟨hp,_,hrest⟩ | hz
    · by_cases hm : key.bytes <+: p.name
      · have hhit := searchHit_hit hk rest hp.live hm
        have hn := (exactHit_hit hk rest hp.live hm).mp hex
        simp [hhit,lookupRow,hp.live,hn]
      · have hn : p.name ≠ key.bytes := fun he => hm (by rw [he])
        have hskip := searchHit_skip hk rest hp.live hm
        have hlook : lookupRow key (p::rest) = lookupRow key rest := by simp [lookupRow,hn]
        rw [hskip,hlook]
        exact ih hrest ((exactHit_skip hk rest hp.live hm).mp hex)
    · have hd := not_live_of_zero hz
      simp [lookupRow_dead hd,searchHit,hd p (by simp)]

theorem valueLen_toInt {p : KvItem} (h : p.valueLen.toNat ≤ itemMaxValLen) :
    p.valueLen.toInt = p.valueLen.toNat := by
  have h128 : itemMaxValLen = 128 := rfl
  rw [BitVec.toInt_eq_toNat_cond]
  split <;> omega

theorem copyOut_eq {p : KvItem} (rest : List KvItem) {n : ℤ} (hlen : p.valueLen.toNat ≤ itemMaxValLen)
    (hn : 0 < n) : copyOut p rest n = answer (stored p) n := by
  have hval := p.value_length
  have hsmall : p.valueLen.toNat ≤ 128 := hlen
  have hstored : (stored p).length = p.valueLen.toNat := by
    rw [stored,List.length_take]
    omega
  have hcut : ∀ m : ℕ, m ≤ p.valueLen.toNat →
      (p.value ++ word32Bytes p.valueLen ++ encodeRow rest ++ [0]).take m =
        (stored p).take m := by
    intro m hm
    rw [stored,List.take_take,Nat.min_eq_left hm,List.append_assoc,List.append_assoc,
      List.take_append_of_le_length (by omega)]
  simp only [copyOut,answer,valueLen_toInt hlen,hstored]
  by_cases hlt : (p.valueLen.toNat : ℤ) < n
  · rw [if_pos hlt,toSizeT_of_nonneg (by omega) (by omega),hcut _ (by omega)]
    have h1 : min n (p.valueLen.toNat : ℤ) = p.valueLen.toNat := by omega
    rw [h1,List.take_of_length_le (by omega),List.take_of_length_le (by omega)]
  · rw [if_neg hlt,toSizeT_of_nonneg (by omega) (by omega),hcut _ (by omega)]
    have h1 : min n (p.valueLen.toNat : ℤ) = n := by omega
    rw [h1]

theorem getLoop_hit {key : CStr} {row : List KvItem} {p : KvItem} (n : ℤ)
    (h : searchHit key row = some p) : ∃ post, getLoop key n row = some (copyOut p post n) := by
  induction row with
  | nil => simp [searchHit] at h
  | cons q rest ih =>
    simp only [searchHit,getLoop] at h ⊢
    split at h
    · rename_i hlive
      split at h
      · rename_i hm
        cases h
        exact ⟨rest,by simp only [hlive,hm,if_true]⟩
      · rename_i hm
        obtain ⟨post,hpost⟩ := ih h
        exact ⟨post,by simp only [hlive,hm,hpost,if_true,if_false,Bool.false_eq_true]⟩
    · cases h

theorem getLoop_of_hit {key : CStr} {row : List KvItem} {p : KvItem} {n : ℤ}
    (h : searchHit key row = some p) (hlen : p.valueLen.toNat ≤ itemMaxValLen) (hn : 0 < n) :
    getLoop key n row = some (answer (stored p) n) := by
  obtain ⟨post,hget⟩ := getLoop_hit n h
  rw [hget,copyOut_eq post hlen hn]

theorem getLoop_of_miss {key : CStr} {row : List KvItem} (n : ℤ) (h : searchHit key row = none) :
    getLoop key n row = none := by
  induction row with
  | nil => rfl
  | cons q rest ih =>
    simp only [searchHit,getLoop] at h ⊢
    split at h
    · split at h
      · cases h
      · simp [*,ih h]
    · simp [*]

theorem RowOk.slot {i : ℕ} {row : List KvItem} (hrow : RowOk i row) {p : KvItem} (hp : p ∈ row) :
    SlotOk i p ∨ p = zeroItem := by
  induction row with
  | nil => simp at hp
  | cons q rest ih =>
    rcases hrow with ⟨hq,_,hrest⟩ | hz
    · rcases List.mem_cons.mp hp with rfl | hp
      · exact Or.inl hq
      · exact ih hrest hp
    · exact Or.inr (hz p hp)

theorem RowOk.slotOk {i : ℕ} {row : List KvItem} (hrow : RowOk i row) {p : KvItem} (hp : p ∈ row)
    (hlive : p.Live) : SlotOk i p := by
  rcases hrow.slot hp with hslot | rfl
  · exact hslot
  · exact absurd hlive zeroItem_not_live

theorem RowOk.eq_zero {i : ℕ} {row : List KvItem} (hrow : RowOk i row) {p : KvItem} (hp : p ∈ row)
    (hdead : ¬ p.Live) : p = zeroItem := by
  rcases hrow.slot hp with hslot | hzero
  · exact absurd hslot.live hdead
  · exact hzero

theorem getLoop_eq {i : ℕ} {key : CStr} (hk : key.strlen ≤ itemMaxKeyLen) {row : List KvItem} {n : ℤ}
    (hrow : RowOk i row) (hn : 0 < n) :
    getLoop key n row = (searchHit key row).map fun p => answer (stored p) n := by
  cases hhit : searchHit key row with
  | none => exact getLoop_of_miss n hhit
  | some p =>
    obtain ⟨hp,hlive,_⟩ := searchHit_spec hk hhit
    exact getLoop_of_hit hhit (hrow.slotOk hp hlive).len_le hn

theorem clampLen_le (value : Value) : clampLen value ≤ itemMaxValLen := by
  rw [clampLen]
  split <;> omega

theorem clampLen_pos {value : Value} (h : 0 < value.len) : 0 < clampLen value := by
  rw [clampLen]
  split
  · decide
  · omega

theorem clampLen_readable (value : Value) : clampLen value ≤ value.bytes.length := by
  have h := value.readable
  rw [clampLen]
  split <;> omega

@[simp] theorem clampLen_toNat (value : Value) :
    (BitVec.ofNat 32 (clampLen value)).toNat = clampLen value := by
  have h := clampLen_le value
  have h128 : itemMaxValLen = 128 := rfl
  rw [BitVec.toNat_ofNat,Nat.mod_eq_of_lt (by omega)]

theorem live_of_clampLen {value : Value} (h : 0 < value.len) :
    BitVec.ofNat 32 (clampLen value) ≠ 0 := by
  intro he
  have hz : (BitVec.ofNat 32 (clampLen value)).toNat = 0 := by rw [he]; rfl
  rw [clampLen_toNat] at hz
  have hpos := clampLen_pos h
  omega

theorem stored_memcpy (dst : Bytes) (value : Value) (hd : dst.length = itemMaxValLen) :
    (memcpy dst value.bytes (clampLen value)).take (clampLen value) =
      value.bytes.take (clampLen value) :=
  memcpy_take (clampLen_readable value) (by rw [hd]; exact clampLen_le value)

@[simp] theorem updateItem_name (p : KvItem) (value : Value) : (updateItem p value).name = p.name := rfl

theorem updateItem_stored (p : KvItem) (value : Value) :
    stored (updateItem p value) = value.bytes.take (clampLen value) := by
  simp only [stored,updateItem,clampLen_toNat]
  exact stored_memcpy _ value (by simp)

theorem updateItem_live (p : KvItem) {value : Value} (h : 0 < value.len) :
    (updateItem p value).Live := live_of_clampLen h

theorem insertItem_live (p : KvItem) (key : CStr) {value : Value} (h : 0 < value.len) :
    (insertItem p key value).Live := live_of_clampLen h

theorem insertItem_stored (p : KvItem) (key : CStr) (value : Value) :
    stored (insertItem p key value) = value.bytes.take (clampLen value) := by
  simp only [stored,insertItem,clampLen_toNat]
  exact stored_memcpy _ value p.value_length

theorem insertItem_starts (p : KvItem) {key : CStr} (value : Value)
    (hk : key.strlen < itemMaxKeyLen) : key.bytes <+: (insertItem p key value).name := by
  rw [KvItem.name,← prefix_fieldStr_iff key.nul_free]
  exact prefix_strncpy (by omega) (by rw [p.key_length]; omega)

/-- In a zeroed slot the copied key is terminated by the zero that `strncpy` leaves. -/
theorem insertItem_zero_name {key : CStr} (value : Value) (hk : key.strlen < itemMaxKeyLen) :
    (insertItem zeroItem key value).name = key.bytes := by
  have hkey : (insertItem zeroItem key value).key =
      key.bytes ++ List.replicate (itemMaxKeyLen-key.strlen) 0 :=
    strncpy_replicate (by omega) (by omega)
  rw [KvItem.name,hkey,fieldStr_append_replicate _ key.nul_free]

theorem updateItem_slotOk {i : ℕ} {p : KvItem} {value : Value} (hp : SlotOk i p)
    (hv : 0 < value.len) : SlotOk i (updateItem p value) where
  live := updateItem_live p hv
  len_le := by
    change (BitVec.ofNat 32 (clampLen value)).toNat ≤ itemMaxValLen
    rw [clampLen_toNat]
    exact clampLen_le value
  hash := hp.hash

theorem insertItem_slotOk {key : CStr} {value : Value} (hk : key.strlen < itemMaxKeyLen)
    (hv : 0 < value.len) : SlotOk (hashGen key) (insertItem zeroItem key value) where
  live := insertItem_live _ _ hv
  len_le := by
    change (BitVec.ofNat 32 (clampLen value)).toNat ≤ itemMaxValLen
    rw [clampLen_toNat]
    exact clampLen_le value
  hash := congrArg hashGen (CStr.ext_bytes (insertItem_zero_name value hk))

/-- The loop changes one slot: the one on which its search stops, or the first free one. -/
theorem putLoop_some {key : CStr} {value : Value} {row row' : List KvItem}
    (h : putLoop key value row = some row') :
    ∃ pre p post q, row = pre ++ p::post ∧ row' = pre ++ q::post ∧
      (p.Live ∧ q = updateItem p value ∨ ¬ p.Live ∧ q = insertItem p key value) := by
  induction row generalizing row' with
  | nil => simp [putLoop] at h
  | cons p rest ih =>
    simp only [putLoop] at h
    split at h
    · rename_i hlive
      split at h
      · cases h
        exact ⟨[],p,rest,_,rfl,rfl,Or.inl ⟨hlive,rfl⟩⟩
      · obtain ⟨tail,htail,rfl⟩ := Option.map_eq_some_iff.mp h
        obtain ⟨pre,r,post,q,rfl,rfl,hq⟩ := ih htail
        exact ⟨p::pre,r,post,q,rfl,rfl,hq⟩
    · rename_i hdead
      cases h
      exact ⟨[],p,rest,_,rfl,rfl,Or.inr ⟨hdead,rfl⟩⟩

theorem putLoop_length {key : CStr} {value : Value} {row row' : List KvItem}
    (h : putLoop key value row = some row') : row'.length = row.length := by
  obtain ⟨pre,p,post,q,rfl,rfl,-⟩ := putLoop_some h
  rw [List.length_append,List.length_append,List.length_cons,List.length_cons]

theorem forall_putLoop {P : KvItem → Prop} {key : CStr} {value : Value} {row row' : List KvItem}
    (hupdate : ∀ p, p.Live → P p → P (updateItem p value))
    (hinsert : ∀ p, ¬ p.Live → P p → P (insertItem p key value)) (hrow : ∀ p ∈ row, P p)
    (h : putLoop key value row = some row') : ∀ p ∈ row', P p := by
  obtain ⟨pre,p,post,q,rfl,rfl,hq⟩ := putLoop_some h
  obtain ⟨hpre,hbehind⟩ := List.forall_mem_append.mp hrow
  obtain ⟨hp,hpost⟩ := List.forall_mem_cons.mp hbehind
  refine List.forall_mem_append.mpr ⟨hpre,List.forall_mem_cons.mpr ⟨?_,hpost⟩⟩
  rcases hq with ⟨hlive,rfl⟩ | ⟨hdead,rfl⟩
  · exact hupdate p hlive hp
  · exact hinsert p hdead hp

theorem putLoop_names {i : ℕ} {key : CStr} {value : Value} (hk : key.strlen < itemMaxKeyLen)
    {row row' : List KvItem} (hrow : RowOk i row) (h : putLoop key value row = some row') :
    ∀ q ∈ row', q.Live → q.name = key.bytes ∨ ∃ r ∈ row, r.Live ∧ r.name = q.name := by
  obtain ⟨pre,p,post,r,rfl,rfl,hr⟩ := putLoop_some h
  intro q hq hlive
  rcases List.mem_append.mp hq with hq | hq
  · exact Or.inr ⟨q,List.mem_append_left _ hq,hlive,rfl⟩
  rcases List.mem_cons.mp hq with rfl | hq
  · rcases hr with ⟨hp,rfl⟩ | ⟨hp,rfl⟩
    · exact Or.inr ⟨p,by simp,hp,rfl⟩
    · rw [hrow.eq_zero (by simp) hp]
      exact Or.inl (insertItem_zero_name value hk)
  · exact Or.inr ⟨q,List.mem_append_right _ (List.mem_cons_of_mem _ hq),hlive,rfl⟩

theorem putLoop_rowOk {key : CStr} {value : Value} (hk : key.strlen < itemMaxKeyLen)
    (hv : 0 < value.len) {row row' : List KvItem} (hrow : RowOk (hashGen key) row)
    (h : putLoop key value row = some row') : RowOk (hashGen key) row' := by
  have hk' : key.strlen ≤ itemMaxKeyLen := Nat.le_of_lt hk
  induction row generalizing row' with
  | nil => simp [putLoop] at h
  | cons p rest ih =>
    rcases hrow with ⟨hp,hlater,hrest⟩ | hz
    · by_cases hm : key.bytes <+: p.name
      · simp only [putLoop,hp.live,(keyMatches_iff rest hk').mpr hm,if_true,Option.some.injEq] at h
        subst h
        exact Or.inl ⟨updateItem_slotOk hp hv,hlater,hrest⟩
      · simp only [putLoop,hp.live,keyMatches_eq_false rest hk' hm,if_true,Bool.false_eq_true,
          if_false] at h
        obtain ⟨tail,htail,rfl⟩ := Option.map_eq_some_iff.mp h
        refine Or.inl ⟨hp,fun q hq hlive => ?_,ih hrest htail⟩
        rcases putLoop_names hk hrest htail q hq hlive with hn | ⟨r,hr,hrlive,hrn⟩
        · rwa [hn]
        · rw [← hrn]
          exact hlater r hr hrlive
    · have hdead := not_live_of_zero hz
      simp only [putLoop,hdead p (by simp),if_false,Option.some.injEq] at h
      subst h
      rw [hz p (by simp)]
      refine Or.inl ⟨insertItem_slotOk hk hv,fun q hq hlive => ?_,
        rowOk_of_zero _ fun q hq => hz q (by simp [hq])⟩
      exact absurd hlive (hdead q (by simp [hq]))

/-- A set that is not misdirected keeps the row in order and changes what its own key
reads, and nothing else. -/
theorem putLoop_spec {key : CStr} {value : Value} (hk : key.strlen < itemMaxKeyLen)
    (hv : 0 < value.len) {row row' : List KvItem} (hrow : RowOk (hashGen key) row)
    (hexact : ExactHit key row) (h : putLoop key value row = some row') :
    RowOk (hashGen key) row' ∧ ∀ k, lookupRow k row' =
      if k = key then some (value.bytes.take (clampLen value)) else lookupRow k row := by
  have hk' : key.strlen ≤ itemMaxKeyLen := Nat.le_of_lt hk
  refine ⟨putLoop_rowOk hk hv hrow h,?_⟩
  induction row generalizing row' with
  | nil => simp [putLoop] at h
  | cons p rest ih =>
    intro k
    rcases hrow with ⟨hp,-,hrest⟩ | hz
    · by_cases hm : key.bytes <+: p.name
      · have hname := (exactHit_hit hk' rest hp.live hm).mp hexact
        simp only [putLoop,hp.live,(keyMatches_iff rest hk').mpr hm,if_true,Option.some.injEq] at h
        subst h
        by_cases hkk : k = key
        · simp [lookupRow,updateItem_live p hv,hname,hkk,updateItem_stored]
        · have hne := CStr.bytes_ne (Ne.symm hkk)
          simp [lookupRow,hname,hne,hkk]
      · have hmatch := keyMatches_eq_false rest hk' hm
        simp only [putLoop,hp.live,hmatch,if_true] at h
        obtain ⟨tail,htail,rfl⟩ := Option.map_eq_some_iff.mp (by simpa using h)
        have hexact' := (exactHit_skip hk' rest hp.live hm).mp hexact
        have hlook := ih hrest hexact' htail
        by_cases hkk : k = key
        · have hne : p.name ≠ key.bytes := fun he => hm (by rw [he])
          simp [lookupRow,hne,hlook,hkk]
        · simp [lookupRow,hlook,hkk]
    · have hdead := not_live_of_zero hz
      have hrest : lookupRow k rest = none := lookupRow_dead fun q hq => hdead q (by simp [hq])
      have hname := insertItem_zero_name value hk
      simp only [putLoop,hdead p (by simp),if_false,Option.some.injEq] at h
      subst h
      rw [hz p (by simp)]
      by_cases hkk : k = key
      · simp [lookupRow,insertItem_live _ _ hv,hname,hkk,insertItem_stored]
      · have hne := CStr.bytes_ne (Ne.symm hkk)
        simp [lookupRow,hname,hne,hkk,hrest]

theorem rmLoop_length (key : CStr) (row : List KvItem) : (rmLoop key row).length = row.length := by
  induction row with
  | nil => rfl
  | cons p rest ih =>
    simp only [rmLoop]
    split <;> simp [ih]

theorem forall_rmLoop {P : KvItem → Prop} {key : CStr} {row : List KvItem} (hzero : P zeroItem)
    (hrow : ∀ p ∈ row, P p) : ∀ p ∈ rmLoop key row, P p := by
  induction row with
  | nil => simp [rmLoop]
  | cons p rest ih =>
    obtain ⟨hp,hrest⟩ := List.forall_mem_cons.mp hrow
    simp only [rmLoop]
    split
    · refine List.forall_mem_cons.mpr ⟨?_,ih hrest⟩
      split
      · exact hzero
      · exact hp
    · exact hrow

theorem rmLoop_dead {key : CStr} {row : List KvItem} (h : ∀ q ∈ row, ¬ q.Live) :
    rmLoop key row = row := by
  cases row with
  | nil => rfl
  | cons p rest => simp [rmLoop,h p (by simp)]

theorem rmLoop_live {key : CStr} {row : List KvItem} :
    ∀ q ∈ rmLoop key row, q.Live → q ∈ row := by
  induction row with
  | nil => simp [rmLoop]
  | cons p rest ih =>
    intro q hq hlive
    simp only [rmLoop] at hq
    split at hq
    · rcases List.mem_cons.mp hq with rfl | hq
      · split at hlive
        · exact absurd hlive zeroItem_not_live
        · simp_all
      · exact List.mem_cons_of_mem _ (ih q hq hlive)
    · exact hq

/-- A deletion that hits only the last live slot keeps the row in order and removes
what its own key reads, and nothing else. -/
theorem rmLoop_spec {i : ℕ} {key : CStr} (hk : key.strlen ≤ itemMaxKeyLen) {row : List KvItem}
    (hrow : RowOk i row) (hexact : RmExact key row) :
    RowOk i (rmLoop key row) ∧ ∀ k, lookupRow k (rmLoop key row) =
      if k = key then none else lookupRow k row := by
  induction row with
  | nil => simp [rmLoop,lookupRow,RowOk]
  | cons p rest ih =>
    rcases hrow with ⟨hp,hlater,hrest⟩ | hz
    · by_cases hm : key.bytes <+: p.name
      · obtain ⟨hname,hdead⟩ := hexact [] p rest rfl hp.live hm
        have hz : ∀ q ∈ rest, q = zeroItem := fun q hq => hrest.eq_zero hq (hdead q hq)
        have hrm : rmLoop key (p::rest) = zeroItem::rest := by
          simp [rmLoop,hp.live,(keyMatches_iff rest hk).mpr hm,rmLoop_dead hdead]
        rw [hrm]
        refine ⟨Or.inr ?_,fun k => ?_⟩
        · intro q hq
          rcases List.mem_cons.mp hq with rfl | hq
          · rfl
          · exact hz q hq
        · have hrestNone : ∀ k, lookupRow k rest = none := fun k => lookupRow_dead hdead
          by_cases hkk : k = key
          · simp [lookupRow,hrestNone,hkk]
          · have hne := CStr.bytes_ne (Ne.symm hkk)
            simp [lookupRow,hname,hne,hkk,hrestNone]
      · have hmatch := keyMatches_eq_false rest hk hm
        have hrm : rmLoop key (p::rest) = p::rmLoop key rest := by simp [rmLoop,hp.live,hmatch]
        have hexact' : RmExact key rest := by
          intro pre q post he
          exact hexact (p::pre) q post (by rw [he]; rfl)
        obtain ⟨htailOk,hlook⟩ := ih hrest hexact'
        rw [hrm]
        refine ⟨Or.inl ⟨hp,fun q hq hlive => hlater q (rmLoop_live q hq hlive) hlive,htailOk⟩,
          fun k => ?_⟩
        by_cases hkk : k = key
        · have hne : p.name ≠ key.bytes := fun he => hm (by rw [he])
          simp [lookupRow,hne,hlook,hkk]
        · simp [lookupRow,hlook,hkk]
    · have hdead := not_live_of_zero hz
      rw [rmLoop_dead hdead]
      refine ⟨Or.inr hz,fun k => ?_⟩
      simp [lookupRow_dead hdead]

section calls
variable {file : Bytes} {key : CStr} {value : Value}

theorem kvSet_some (hfit : rowOff (hashGen key)+rowLen ≤ file.length) (hv : 0 < value.len)
    {row : List KvItem} (hput : putLoop key value (rowAt file (hashGen key)) = some row) :
    mapfileKvSet {} (some file) (some key) (some value) =
      (some (putRow file (hashGen key) row),.ok) := by
  have hv' : ¬ value.len ≤ 0 := by omega
  have hlen : row.length = tableRowSize := by rw [putLoop_length hput,rowAt_length]
  simp [mapfileKvSet,kvSet,hv',hashTablePut,hashTablePutRow,readKvItem_ok hfit,hput,
    writeKvItem_ok hfit hlen]

theorem kvSet_none (hfit : rowOff (hashGen key)+rowLen ≤ file.length)
    (hput : putLoop key value (rowAt file (hashGen key)) = none) :
    mapfileKvSet {} (some file) (some key) (some value) = (some file,.fail) := by
  by_cases hv : value.len ≤ 0
  · simp [mapfileKvSet,kvSet,hv]
  · simp [mapfileKvSet,kvSet,hv,hashTablePut,hashTablePutRow,readKvItem_ok hfit,hput]

theorem kvSet_ok {f : Faults} {disk : Disk}
    (h : (mapfileKvSet f disk (some key) (some value)).2 = .ok) : 0 < value.len ∧
    ∃ file row, disk = some file ∧ rowOff (hashGen key)+rowLen ≤ file.length ∧
      putLoop key value (rowAt file (hashGen key)) = some row ∧
      (mapfileKvSet f disk (some key) (some value)).1 = some (putRow file (hashGen key) row) := by
  rcases mapfileKvSet_cases f disk (some key) (some value) with
    hfail | ⟨_,_,row,hkey,hvalue,hv,hloop,hset⟩
  · rw [hfail] at h
    cases h
  cases hkey
  cases hvalue
  rw [hset] at h ⊢
  rcases writeKvItem_cases f.write disk row (hashGen key) with hfail | ⟨file,rfl,hfit,hw⟩
  · rw [hfail] at h
    cases h
  rw [hw] at h ⊢
  simp only at h
  split at h
  · rename_i hcount
    have hlen : row.length = tableRowSize := by rw [putLoop_length hloop,rowAt_length]
    refine ⟨hv,file,row,rfl,hfit,hloop,?_⟩
    rw [hcount,Option.getD_some,take_encodeRow hlen]
    rfl
  · cases h

end calls

end MapfileRow
end IotBase
