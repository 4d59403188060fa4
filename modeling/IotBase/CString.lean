import IotBase.RawBytes
import Mathlib.Data.List.TakeWhile

/-! NUL-terminated strings and the string routines that fill fixed char fields. -/
namespace IotBase
namespace CString
open RawBytes

/-- The bytes of a C string before its terminating NUL. -/
structure CStr where
  bytes : Bytes
  nul_free : 0 ∉ bytes
  deriving DecidableEq

def CStr.strlen (s : CStr) : ℕ := s.bytes.length

theorem CStr.ext_bytes {s t : CStr} (h : s.bytes = t.bytes) : s = t := by
  cases s
  cases t
  cases h
  rfl

theorem CStr.bytes_ne {s t : CStr} (h : s ≠ t) : s.bytes ≠ t.bytes := fun he =>
  h (CStr.ext_bytes he)

/-- The string that a char field holds: its bytes before the first NUL. -/
def fieldStr (field : Bytes) : Bytes := field.takeWhile (fun c => decide (c ≠ 0))

/-- `strncpy(dst, src, n)`: at most `n` bytes, zero-padded up to `n`, no NUL added. -/
def strncpy (dst : Bytes) (src : CStr) (n : ℕ) : Bytes := splice dst 0 (src.bytes.takeD n 0)

def memcpy (dst src : Bytes) (n : ℕ) : Bytes := splice dst 0 (src.take n)

def memset (dst : Bytes) (c : UInt8) (n : ℕ) : Bytes := splice dst 0 (List.replicate n c)

@[simp] theorem strncpy_length (dst : Bytes) (src : CStr) (n : ℕ) :
    (strncpy dst src n).length = dst.length := splice_length _ _ _
@[simp] theorem memcpy_length (dst src : Bytes) (n : ℕ) :
    (memcpy dst src n).length = dst.length := splice_length _ _ _
@[simp] theorem memset_length (dst : Bytes) (c : UInt8) (n : ℕ) :
    (memset dst c n).length = dst.length := splice_length _ _ _

theorem getElem?_memset {dst : Bytes} {n k : ℕ} (c : UInt8) (hk : k < n) (hn : n ≤ dst.length) :
    (memset dst c n)[k]? = some c := by
  have h : (splice dst 0 (List.replicate n c))[0+k]? = (List.replicate n c)[k]? :=
    getElem?_splice_inside (by simpa using hn) (by simpa using hk)
  rw [Nat.zero_add] at h
  rw [memset,h,List.getElem?_replicate_of_lt hk]

theorem memcpy_take {dst src : Bytes} {n : ℕ} (hs : n ≤ src.length) (hd : n ≤ dst.length) :
    (memcpy dst src n).take n = src.take n := by
  have hl : (src.take n).length = n := by simpa using hs
  rw [memcpy,splice_fits (by omega),List.take_zero,List.nil_append,
    List.take_append_of_le_length (by omega),List.take_take,Nat.min_self]

/-- A NUL-free string starts a field exactly when it starts the field's string. -/
theorem prefix_fieldStr_iff {k field : Bytes} (hk : 0 ∉ k) :
    k <+: field ↔ k <+: fieldStr field := by
  constructor
  · rintro ⟨rest,rfl⟩
    rw [fieldStr,List.takeWhile_append_of_pos (fun c hc => by
      simp only [decide_eq_true_eq]
      rintro rfl
      exact hk hc)]
    exact List.prefix_append _ _
  · intro h
    exact h.trans (List.takeWhile_prefix _)

theorem nul_notMem_fieldStr (field : Bytes) : 0 ∉ fieldStr field := by
  intro h
  simpa using List.mem_takeWhile_imp h

theorem fieldStr_append_zero {k : Bytes} (rest : Bytes) (hk : 0 ∉ k) : fieldStr (k ++ 0::rest) = k := by
  rw [fieldStr,List.takeWhile_append_of_pos (fun c hc => by
    simp only [decide_eq_true_eq]
    rintro rfl
    exact hk hc)]
  simp

theorem fieldStr_append_replicate {k : Bytes} (n : ℕ) (hk : 0 ∉ k) :
    fieldStr (k ++ List.replicate n 0) = k := by
  cases n with
  | zero =>
    rw [List.replicate_zero,List.append_nil]
    exact List.takeWhile_eq_self_iff.mpr fun c hc => by
      simp only [decide_eq_true_eq]
      rintro rfl
      exact hk hc
  | succ n => exact fieldStr_append_zero _ hk

theorem strncpy_replicate {src : CStr} {m n : ℕ} (hs : src.strlen ≤ n) (hn : n ≤ m) :
    strncpy (List.replicate m 0) src n = src.bytes ++ List.replicate (m-src.strlen) 0 := by
  have hp : src.bytes.takeD n 0 = src.bytes ++ List.replicate (n-src.strlen) 0 :=
    takeD_of_length_le hs
  have hl : (src.bytes.takeD n 0).length = n := List.takeD_length _ _ _
  rw [strncpy,splice_fits (by simp [hl]; exact hn),hl,hp]
  simp only [List.take_zero,List.nil_append,Nat.zero_add,List.drop_replicate,List.append_assoc,
    ← List.replicate_add]
  congr 2
  omega

theorem strncpy_fits {dst : Bytes} {src : CStr} {n : ℕ} (hs : src.strlen ≤ n)
    (hn : n ≤ dst.length) :
    strncpy dst src n = src.bytes ++ List.replicate (n-src.strlen) 0 ++ dst.drop n := by
  have hl : (src.bytes.takeD n 0).length = n := List.takeD_length _ _ _
  have hp : src.bytes.takeD n 0 = src.bytes ++ List.replicate (n-src.strlen) 0 :=
    takeD_of_length_le hs
  rw [strncpy,splice_fits (by omega),hl,hp,List.take_zero,List.nil_append,Nat.zero_add]

theorem prefix_strncpy {dst : Bytes} {src : CStr} {n : ℕ} (hs : src.strlen ≤ n)
    (hn : n ≤ dst.length) : src.bytes <+: strncpy dst src n := by
  rw [strncpy_fits hs hn,List.append_assoc]
  exact List.prefix_append _ _

/-- Copied in front of a NUL, a string is cut at `n` bytes and terminated. -/
theorem strncpy_terminated {dst : Bytes} {src : CStr} {n : ℕ} (h : dst[n]? = some 0) :
    src.bytes.take n ++ [0] <+: strncpy dst src n := by
  obtain ⟨hn,h0⟩ := List.getElem?_eq_some_iff.mp h
  have hdrop : dst.drop n = 0::dst.drop (n+1) := by rw [List.drop_eq_getElem_cons hn,h0]
  by_cases hs : src.strlen ≤ n
  · rw [strncpy_fits hs hn.le,List.take_of_length_le hs,hdrop]
    cases n-src.strlen with
    | zero => exact ⟨dst.drop (n+1),by simp⟩
    | succ k => exact ⟨List.replicate k 0 ++ 0::dst.drop (n+1),by simp [List.replicate_succ]⟩
  · have hlong : n ≤ src.bytes.length := by
      have hlt : n < src.bytes.length := Nat.lt_of_not_le hs
      exact hlt.le
    have hp : src.bytes.takeD n 0 = src.bytes.take n := List.takeD_eq_take _ hlong
    have hl : (src.bytes.take n).length = n := List.length_take_of_le hlong
    rw [strncpy,hp,splice_fits (by omega),hl,List.take_zero,List.nil_append,Nat.zero_add,hdrop]
    exact ⟨dst.drop (n+1),by simp⟩

end CString
end IotBase
