import IotBase.MapfileEnumeration

/-! Row locations outside the table. The bound is checked on a product of `size_t`: where that
has 32 bits, the product of a location far outside the table comes back into the file. -/
namespace IotBase
namespace MapfileLocation
open RawBytes MapfileItem MapfileStore MapfileFile
open MapfileEnumeration (mapfileKvItemGet_ok)

/-- Exactly the locations of the table are read, each as its own row. -/
structure Located (abi : Abi) (file : Bytes) (location : BitVec 32) : Prop where
  ok_iff : (mapfileKvItemGet abi {} (some file) location.toInt).isSome ↔
    0 ≤ location.toInt ∧ location.toInt < tableColSize
  row : ∀ b, mapfileKvItemGet abi {} (some file) location.toInt = some b →
    b = slice file (rowOff location.toInt.toNat) rowLen

theorem toSize_cast (abi : Abi) (z : ℤ) : (abi.toSize z : ℤ) = z % 2^abi.sizeBits :=
  Int.toNat_of_nonneg (Int.emod_nonneg z (by simp))

theorem toSize_mul (abi : Abi) (z : ℤ) (m : ℕ) : abi.toSize (abi.toSize z*m) = abi.toSize (z*m) := by
  apply Int.natCast_inj.mp
  rw [toSize_cast,toSize_cast,toSize_cast,Int.mul_emod,Int.emod_emod,← Int.mul_emod]

theorem rowProduct_cast (abi : Abi) (z : ℤ) : (abi.rowProduct z : ℤ) = z*rowLen % 2^abi.sizeBits := by
  rw [Abi.rowProduct,toSize_mul,mul_assoc,← Nat.cast_mul,toSize_mul,toSize_cast]
  rfl

theorem rowProduct_toInt32 (z : ℤ) : (Abi.ilp32.rowProduct (toInt32 z) : ℤ) = z*rowLen % 2^32 := by
  rw [rowProduct_cast,toInt32,Int.mul_emod]
  change z.bmod (2^32) % ((2^32 : ℕ) : ℤ) * _ % _ = _
  rw [Int.bmod_emod]
  exact (Int.mul_emod z rowLen (2^32)).symm

section reads
variable {file : Bytes} (hlen : file.length = fileLen) {location : BitVec 32}
include hlen

theorem itemGet_eq_some {abi : Abi} {b : Bytes} :
    mapfileKvItemGet abi {} (some file) location.toInt = some b ↔
      abi.rowProduct (toInt32 (location.toInt+1)) ≤ fileLen ∧
      0 ≤ toInt32 (abi.rowProduct location.toInt) ∧
      (toInt32 (abi.rowProduct location.toInt)).toNat+rowLen ≤ fileLen ∧
      slice file (toInt32 (abi.rowProduct location.toInt)).toNat rowLen = b := by
  simp only [mapfileKvItemGet,readKvItem_,hlen,Bool.false_eq_true,if_false,false_or]
  split_ifs with hend hoff hread
  · rw [false_iff]
    omega
  · rw [false_iff]
    omega
  · rw [false_iff]
    omega
  · rw [Option.some.injEq]
    exact ⟨fun h => ⟨by omega,by omega,by omega,h⟩,fun h => h.2.2.2⟩

/-- With 32 bits a location is read at its product modulo `2^32`, where a row fits there. -/
theorem itemGet_ilp32 {b : Bytes} : mapfileKvItemGet .ilp32 {} (some file) location.toInt = some b ↔
    location.toInt*rowLen % 2^32+rowLen ≤ fileLen ∧
      slice file (location.toInt*rowLen % 2^32).toNat rowLen = b := by
  have hsize : fileLen = 175104 := rfl
  have hl : rowLen = 456 := rfl
  have hend := rowProduct_toInt32 (location.toInt+1)
  have hoff := rowProduct_cast .ilp32 location.toInt
  rw [Abi.sizeBits] at hoff
  rw [itemGet_eq_some hlen,hoff]
  constructor
  · rintro ⟨hp,hneg,hfit,hb⟩
    have hsmall := toInt32_of_nonneg (Int.emod_nonneg _ (by decide))
      (Int.emod_lt_of_pos (location.toInt*rowLen) (by decide : (0 : ℤ) < 2^32)) hneg
    rw [hsmall] at hfit hb
    rw [hl] at hfit ⊢
    exact ⟨by omega,hb⟩
  · rintro ⟨hfit,hb⟩
    have hsmall := toInt32_eq (Int.emod_nonneg (location.toInt*rowLen) (by decide : (2 : ℤ)^32 ≠ 0))
      (by omega)
    have hnext : (location.toInt+1)*rowLen % 2^32 = location.toInt*rowLen % 2^32+rowLen := by
      rw [add_mul,one_mul,← Int.emod_add_emod]
      exact Int.emod_eq_of_lt (by omega) (by omega)
    rw [hnext] at hend
    rw [hsmall]
    exact ⟨by omega,by omega,by omega,hb⟩

theorem itemGet_lp64 (hout : ¬ (0 ≤ location.toInt ∧ location.toInt < tableColSize)) :
    mapfileKvItemGet .lp64 {} (some file) location.toInt = none := by
  have hlo : -2^31 ≤ location.toInt := BitVec.le_toInt location
  have hhi : location.toInt < 2^31 := BitVec.toInt_lt
  have hl : rowLen = 456 := rfl
  have hsize : fileLen = 175104 := rfl
  have hc : tableColSize = 384 := rfl
  have hoff := rowProduct_cast .lp64 location.toInt
  have hend := rowProduct_cast .lp64 (toInt32 (location.toInt+1))
  rw [hl,Abi.sizeBits] at hoff hend
  rw [Option.eq_none_iff_forall_ne_some]
  intro b hb
  obtain ⟨hp,hneg,-,-⟩ := (itemGet_eq_some hlen).mp hb
  by_cases hminus : location.toInt = -1
  · -- the end of the row is byte 0, its start is not a position
    rw [hminus] at hoff
    have hproduct : (Abi.lp64.rowProduct (-1) : ℤ) = 2^64-456 := by omega
    rw [hminus,hproduct] at hneg
    exact absurd hneg (by decide)
  · by_cases hlast : location.toInt+1 < 2^31
    · have hnext : toInt32 (location.toInt+1) = location.toInt+1 := by
        apply Int.bmod_eq_of_le
        · omega
        · omega
      rw [hnext] at hp hend
      by_cases hbelow : location.toInt < 0
      · have hwrap : (location.toInt+1)*(456 : ℕ) % 2^64 = (location.toInt+1)*(456 : ℕ)+2^64 := by
          rw [Int.emod_eq_add_self_emod]
          exact Int.emod_eq_of_lt (by omega) (by omega)
        omega
      · have hsame : (location.toInt+1)*(456 : ℕ) % 2^64 = (location.toInt+1)*(456 : ℕ) :=
          Int.emod_eq_of_lt (by omega) (by omega)
        omega
    · have hmax : location.toInt+1 = 2^31 := by omega
      have hnext : toInt32 (2^31) = -2^31 := by decide
      rw [hmax,hnext] at hp hend
      omega

end reads

/-- The locations of the table and no others are read, except where 32 bits wrap the product of
a location outside the table to an offset in the file. -/
theorem kv_item_get_located_iff (abi : Abi) (file : Bytes) (hlen : file.length = fileLen)
    (location : BitVec 32) :
    Located abi file location ↔ abi = .lp64 ∨
      (0 ≤ location.toInt ∧ location.toInt < tableColSize) ∨
      fileLen < location.toInt*rowLen % 2^32+rowLen := by
  by_cases hin : 0 ≤ location.toInt ∧ location.toInt < tableColSize
  · refine iff_of_true ?_ (Or.inr (Or.inl hin))
    obtain ⟨i,hi⟩ := Int.eq_ofNat_of_zero_le hin.1
    have hget := mapfileKvItemGet_ok abi (by omega : i < tableColSize) hlen
    constructor
    · rw [hi,hget]
      exact iff_of_true rfl (hi ▸ hin)
    · intro b hb
      rw [hi,hget] at hb
      rw [hi]
      exact (Option.some.inj hb).symm
  · have hnone : Located abi file location ↔
        mapfileKvItemGet abi {} (some file) location.toInt = none := by
      constructor
      · intro h
        exact Option.not_isSome_iff_eq_none.mp fun hsome => hin (h.ok_iff.mp hsome)
      · intro h
        constructor
        · rw [h]
          exact iff_of_false (by simp) hin
        · rw [h]
          rintro b ⟨⟩
    rw [hnone]
    cases abi with
    | lp64 => exact iff_of_true (itemGet_lp64 hlen hin) (Or.inl rfl)
    | ilp32 =>
      constructor
      · intro h
        refine Or.inr (Or.inr (Int.not_le.mp fun hfit => ?_))
        rw [(itemGet_ilp32 hlen).mpr ⟨hfit,rfl⟩] at h
        cases h
      · rintro (habi | hrange | hwrap)
        · cases habi
        · exact absurd hrange hin
        · rw [Option.eq_none_iff_forall_ne_some]
          intro b hb
          exact absurd ((itemGet_ilp32 hlen).mp hb).1 (Int.not_le.mpr hwrap)

theorem kv_item_get_located_lp64 :
    Located .lp64 (List.replicate fileLen 0) (BitVec.ofNat 32 (2^29)) :=
  (kv_item_get_located_iff .lp64 (List.replicate fileLen 0) List.length_replicate
    (BitVec.ofNat 32 (2^29))).mpr (Or.inl rfl)

/-- With 32 bits the product of the same location is 57 times `2^32`: it reads row 0. -/
theorem kv_item_get_wraps :
    ¬ Located .ilp32 (List.replicate fileLen 0) (BitVec.ofNat 32 (2^29)) := by
  intro h
  have hloc : (BitVec.ofNat 32 (2^29)).toInt = 2^29 := by decide
  obtain ⟨b,hread⟩ : ∃ b, mapfileKvItemGet .ilp32 {} (some (List.replicate fileLen 0))
      (BitVec.ofNat 32 (2^29)).toInt = some b :=
    ⟨_,(itemGet_ilp32 List.length_replicate).mpr ⟨by rw [hloc]; decide,rfl⟩⟩
  have hrange := h.ok_iff.mp (by rw [hread]; rfl)
  rw [hloc] at hrange
  exact absurd hrange.2 (by decide)

end MapfileLocation
end IotBase
