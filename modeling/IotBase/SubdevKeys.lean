import IotBase.SubdevRefinement

/-! What `subdev_address_hash_get_keys` leaves in the caller's array: which rows it
writes and when a row it writes is a terminated string. -/
namespace IotBase
namespace SubdevKeys
open RawBytes CString OrderedTable SubdevTable SubdevRefinement

def matching (t : Table) (type : UInt16) : List CStr :=
  ((devices t).filter fun d => decide (d.type = type)).map Device.address

/-- The bytes of a `char[ADDRESS_MAX_LEN]` are the terminated string `a`. -/
structure HoldsString (row : Bytes) (a : CStr) : Prop where
  length : row.length = addressMaxLen
  terminated : 0 ∈ row
  string : fieldStr row = a.bytes

/-- The array after a call: `min(rows, matching entries)` rows hold the matching addresses in
insertion order, the others are as before. -/
structure KeysUsable (t : Table) (type : UInt16) (list : ℕ → Bytes) (rows : ℤ) (lockOk : Bool) :
    Prop where
  count : (subdevAddressHashGetKeys t type list rows lockOk).2 = min rows (matching t type).length
  strings : ∀ (i : ℕ) a, (matching t type)[i]? = some a → i < rows →
    HoldsString ((subdevAddressHashGetKeys t type list rows lockOk).1 i) a
  frame : ∀ i : ℕ, (subdevAddressHashGetKeys t type list rows lockOk).2 ≤ i →
    (subdevAddressHashGetKeys t type list rows lockOk).1 i = list i

/-- The array bound: whatever the array holds, no row from `rows` on changes and no more than
`rows` rows are reported. -/
structure BoundKept (t : Table) (type : UInt16) (rows : ℤ) (lockOk : Bool) : Prop where
  frame : ∀ (list : ℕ → Bytes) (i : ℕ), rows ≤ i →
    (subdevAddressHashGetKeys t type list rows lockOk).1 i = list i
  count : ∀ list, (subdevAddressHashGetKeys t type list rows lockOk).2 ≤ rows

section fillKeys
variable {list : ℕ → Bytes} {m : List CStr} {i j : ℕ}

theorem fillKeys_below (h : j < i) : fillKeys list i m j = list j := by
  induction m generalizing list i with
  | nil => rfl
  | cons a m ih =>
    rw [fillKeys,ih (by omega),Function.update_of_ne (by omega)]

theorem fillKeys_above (h : i+m.length ≤ j) : fillKeys list i m j = list j := by
  induction m generalizing list i with
  | nil => rfl
  | cons a m ih =>
    rw [List.length_cons] at h
    rw [fillKeys,ih (by omega),Function.update_of_ne (by omega)]

theorem fillKeys_at {a : CStr} {k : ℕ} (h : m[k]? = some a) :
    fillKeys list i m (i+k) = strncpy (list (i+k)) a (addressMaxLen-1) := by
  induction m generalizing list i k with
  | nil => simp at h
  | cons b m ih =>
    cases k with
    | zero =>
      obtain rfl : b = a := by simpa using h
      rw [fillKeys,fillKeys_below (by omega),Nat.add_zero,Function.update_self]
    | succ k =>
      have hrow : i+(k+1) = i+1+k := by omega
      rw [fillKeys,hrow,ih (by simpa using h),Function.update_of_ne (by omega)]

end fillKeys

/-- A copied address is a terminated string unless it fills all the bytes that `strncpy` may
write and the last byte of the row was not zero. -/
theorem holdsString_strncpy_iff {row : Bytes} {a : CStr} (hrow : row.length = addressMaxLen)
    (ha : a.strlen < addressMaxLen) :
    HoldsString (strncpy row a (addressMaxLen-1)) a ↔
      (a.strlen = addressMaxLen-1 → row.drop (addressMaxLen-1) = [0]) := by
  have h17 : addressMaxLen = 17 := rfl
  obtain ⟨c,hc⟩ : ∃ c, row.drop (addressMaxLen-1) = [c] :=
    List.length_eq_one_iff.mp (by rw [List.length_drop]; omega)
  have hcopy : strncpy row a (addressMaxLen-1) = a.bytes ++
      List.replicate (addressMaxLen-1-a.strlen) 0 ++ row.drop (addressMaxLen-1) :=
    strncpy_fits (by omega) (by omega)
  have hlen : (strncpy row a (addressMaxLen-1)).length = addressMaxLen := by simp [hrow]
  rw [hc] at hcopy ⊢
  by_cases hfull : a.strlen = addressMaxLen-1
  · have hcopy' : strncpy row a (addressMaxLen-1) = a.bytes ++ [c] := by simpa [hfull] using hcopy
    constructor
    · intro h _
      have hc0 : 0 ∈ a.bytes ++ [c] := hcopy' ▸ h.terminated
      rcases List.mem_append.mp hc0 with h0 | h0
      · exact absurd h0 a.nul_free
      · rw [List.mem_singleton.mp h0]
    · intro h
      obtain rfl : c = 0 := by simpa using h hfull
      exact ⟨hlen,by simp [hcopy'],by rw [hcopy']; exact fieldStr_append_replicate 1 a.nul_free⟩
  · refine ⟨fun _ h => absurd h hfull,fun _ => ⟨hlen,?_,?_⟩⟩
    · have hpad : addressMaxLen-1-a.strlen ≠ 0 := by omega
      rw [hcopy]
      simp [hpad]
    · obtain ⟨k,hk⟩ : ∃ k, addressMaxLen-1-a.strlen = k+1 := ⟨addressMaxLen-1-a.strlen-1,by omega⟩
      rw [hcopy,hk,List.append_assoc]
      exact fieldStr_append_zero _ a.nul_free

theorem getKeys_pos (t : Table) (type : UInt16) (list : ℕ → Bytes) {rows : ℤ} (h : 0 < rows) :
    subdevAddressHashGetKeys t type list rows true =
      (fillKeys list 0 ((matching t type).take rows.toNat),
        (((matching t type).take rows.toNat).length : ℤ)) := by
  rw [getKeys_spec,mapKeys,keysFrom]
  simp only [Nat.cast_zero,h,if_true,Int.sub_zero]
  rfl

theorem getKeys_zero (t : Table) (type : UInt16) (list : ℕ → Bytes) :
    subdevAddressHashGetKeys t type list 0 true =
      (fillKeys list 0 (matching t type),((matching t type).length : ℤ)) := by
  rw [getKeys_spec]
  rfl

/-- Every row that gets an address of the full length ends in a zero byte already. -/
def FullRowsEndZero (t : Table) (type : UInt16) (list : ℕ → Bytes) (rows : ℤ) : Prop :=
  ∀ (i : ℕ) a, (matching t type)[i]? = some a → i < rows → a.strlen = addressMaxLen-1 →
    (list i).drop (addressMaxLen-1) = [0]

/-- The array is usable exactly when every row that gets an address of the full length already
ended in a zero byte; a call that does not get the lock hands out no array. -/
theorem getKeys_usable_iff {t : Table} (ht : ∀ d ∈ devices t, d.address.strlen < addressMaxLen)
    (type : UInt16) {list : ℕ → Bytes} (hlist : ∀ i, (list i).length = addressMaxLen) {rows : ℤ}
    (hrows : 1 ≤ rows) (lockOk : Bool) :
    (lockOk = true → KeysUsable t type list rows lockOk) ↔
      (lockOk = true → FullRowsEndZero t type list rows) := by
  refine imp_congr_right ?_
  rintro rfl
  have hcall := getKeys_pos t type list (by omega : 0 < rows)
  have hshort : ∀ a ∈ matching t type, a.strlen < addressMaxLen := by
    intro a ha
    obtain ⟨d,hd,rfl⟩ := List.mem_map.mp ha
    exact ht d (List.mem_of_mem_filter hd)
  have hrow : ∀ (i : ℕ) a, (matching t type)[i]? = some a → i < rows →
      (HoldsString ((subdevAddressHashGetKeys t type list rows true).1 i) a ↔
        (a.strlen = addressMaxLen-1 → (list i).drop (addressMaxLen-1) = [0])) := by
    intro i a hi hlt
    have htake : ((matching t type).take rows.toNat)[i]? = some a := by
      rw [List.getElem?_take_of_lt (by omega)]
      exact hi
    have hfill : fillKeys list 0 ((matching t type).take rows.toNat) (0+i) = _ := fillKeys_at htake
    rw [Nat.zero_add] at hfill
    rw [hcall]
    simp only [hfill]
    exact holdsString_strncpy_iff (hlist i) (hshort a (List.mem_of_getElem? hi))
  constructor
  · intro h i a hi hlt
    exact (hrow i a hi hlt).mp (h.strings i a hi hlt)
  · intro h
    refine ⟨?_,fun i a hi hlt => (hrow i a hi hlt).mpr (h i a hi hlt),fun i hi => ?_⟩
    · rw [hcall,List.length_take]
      omega
    · rw [hcall] at hi ⊢
      exact fillKeys_above (by rw [Nat.zero_add]; exact Int.ofNat_le.mp hi)

/-- The bound is kept exactly when there is a row to stop at, or nothing to write. -/
theorem getKeys_bound_iff (t : Table) (type : UInt16) {rows : ℤ} (hrows : 0 ≤ rows) (lockOk : Bool) :
    BoundKept t type rows lockOk ↔ (rows = 0 → lockOk = true → matching t type = []) := by
  cases lockOk with
  | false =>
    have hcall : ∀ list, subdevAddressHashGetKeys t type list rows false = (list,retFail) :=
      fun _ => rfl
    refine ⟨fun _ _ h => (by cases h),fun _ => ⟨fun list i _ => by rw [hcall],fun list => ?_⟩⟩
    rw [hcall]
    have hfail : retFail = -1 := rfl
    omega
  | true =>
    rcases eq_or_lt_of_le hrows with rfl | hpos
    · constructor
      · intro h _ _
        have hcount := h.count fun _ => []
        rw [getKeys_zero] at hcount
        exact List.eq_nil_of_length_eq_zero (by simpa using hcount)
      · intro h
        have hnone := h rfl rfl
        refine ⟨fun list i _ => ?_,fun list => ?_⟩
        · rw [getKeys_zero,hnone]
          rfl
        · rw [getKeys_zero,hnone]
          rfl
    · refine ⟨fun _ h => absurd h (by omega),fun _ => ⟨fun list i hi => ?_,fun list => ?_⟩⟩
      · rw [getKeys_pos t type list hpos]
        exact fillKeys_above (by rw [List.length_take]; omega)
      · rw [getKeys_pos t type list hpos,List.length_take]
        omega

def zigbeeAddress : CStr := ⟨List.replicate 16 48,by decide⟩

def oneZigbee : Table := (subdevAddressHashAdd Table.empty (some zigbeeAddress) 1203 (some 0) true).1

def unclearedList : ℕ → Bytes := fun _ => List.replicate addressMaxLen 120

theorem oneZigbee_devices : devices oneZigbee = [⟨zigbeeAddress,1203,cloudDeviceNotMatch⟩] := by
  decide +kernel

theorem oneZigbee_short : ∀ d ∈ devices oneZigbee, d.address.strlen < addressMaxLen := by
  rw [oneZigbee_devices]
  decide

theorem getKeys_usable_cleared :
    KeysUsable oneZigbee 1203 (fun _ => List.replicate addressMaxLen 0) 4 true :=
  (getKeys_usable_iff oneZigbee_short 1203 (fun _ => List.length_replicate) (by decide) true).mpr
    (fun _ _ _ _ _ _ => rfl) rfl

/-- In an uncleared array the full address comes out without a terminating NUL. -/
theorem getKeys_uncleared_unterminated :
    (∀ d ∈ devices oneZigbee, d.address.strlen < addressMaxLen) ∧
    (∀ i, (unclearedList i).length = addressMaxLen) ∧
    ¬ KeysUsable oneZigbee 1203 unclearedList 1 true := by
  refine ⟨oneZigbee_short,fun _ => List.length_replicate,fun h => ?_⟩
  have hrow : 0 ∉ (subdevAddressHashGetKeys oneZigbee 1203 unclearedList 1 true).1 0 := by
    decide +kernel
  have hmatch : (matching oneZigbee 1203)[0]? = some zigbeeAddress := by
    rw [matching,oneZigbee_devices]
    rfl
  exact hrow (h.strings 0 zigbeeAddress hmatch (by decide)).terminated

theorem getKeys_bound_one : BoundKept oneZigbee 1203 1 true :=
  (getKeys_bound_iff oneZigbee 1203 (by decide) true).mpr fun h => absurd h (by decide)

/-- Told that the array has no row, the call writes row 0 and reports one. -/
theorem getKeys_no_row_written : ¬ BoundKept oneZigbee 1203 0 true := by
  intro h
  have hcount : (subdevAddressHashGetKeys oneZigbee 1203 unclearedList 0 true).2 = 1 := by
    decide +kernel
  have hle := h.count unclearedList
  omega

end SubdevKeys
end IotBase
