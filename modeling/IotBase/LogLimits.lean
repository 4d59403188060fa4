import IotBase.LogRecord
import Mathlib.Data.Nat.Digits.Defs

/-! The buffer in which a log line is put together, against the lengths that are checked. -/
namespace IotBase
namespace LogLimits
open RawBytes CString LogRecord

structure InRange (c : Clock) : Prop where
  mon : c.mon < 12
  mday : c.mday < 32
  hour : c.hour < 24
  min : c.min < 60
  sec : c.sec < 61
  usec : c.usec < 1000000

theorem digits_length_le_iff {n k : ℕ} (hk : 0 < k) : (digits n).length ≤ k ↔ n < 10^k := by
  rw [digits,List.length_map]
  exact Nat.length_toDigits_le_iff (by decide) hk

theorem padded_length {w n : ℕ} (hw : 0 < w) (h : n < 10^w) : (padded w n).length = w := by
  have hle := (digits_length_le_iff hw).mpr h
  rw [padded,List.length_append,List.length_replicate]
  omega

theorem timeBuf_length {c : Clock} (h : InRange c) : (timeBuf c).length = 21 := by
  obtain ⟨hmon,hmday,hhour,hmin,hsec,husec⟩ := h
  have h₁ := padded_length (w:=2) (n:=c.mon+1) (by decide) (by omega)
  have h₂ := padded_length (w:=2) (n:=c.mday) (by decide) (by omega)
  have h₃ := padded_length (w:=2) (n:=c.hour) (by decide) (by omega)
  have h₄ := padded_length (w:=2) (n:=c.min) (by decide) (by omega)
  have h₅ := padded_length (w:=2) (n:=c.sec) (by decide) (by omega)
  have h₆ := padded_length (w:=6) (n:=c.usec) (by decide) (by omega)
  rw [timeBuf,List.length_take]
  simp only [List.length_append,List.length_singleton,h₁,h₂,h₃,h₄,h₅,h₆,timeBufSize]
  decide

theorem levelName_length {level : ℤ} {name : Bytes} (h : levelName level = some name) :
    name.length ≤ 5 := by
  simp only [levelName] at h
  split at h
  · cases h
    decide
  split at h
  · cases h
    decide
  split at h
  · cases h
    decide
  split at h
  · cases h
    decide
  · cases h

theorem decimal_length_le_iff (n : ℤ) : (decimal n).length ≤ 6 ↔ -99999 ≤ n ∧ n ≤ 999999 := by
  rw [decimal]
  split
  · rw [List.length_cons,Nat.add_le_add_iff_right (n:=1) (m:=(digits n.natAbs).length) (k:=5),
      digits_length_le_iff (by decide)]
    omega
  · rw [digits_length_le_iff (by decide)]
    omega

/-- `"[%s](%s) %s(%d):%s\n"`, before it is cut. -/
def wholeLine (name time : Bytes) (func : CStr) (line : ℤ) (fmt : CStr) : Bytes :=
  [91]++name++[93,40]++time++[41,32]++func.bytes++[40]++decimal line++[41,58]++fmt.bytes++[10]

theorem wholeLine_length (name time : Bytes) (func : CStr) (line : ℤ) (fmt : CStr) :
    (wholeLine name time func line fmt).length =
      9+name.length+time.length+func.strlen+(decimal line).length+fmt.strlen := by
  simp only [wholeLine,List.length_append,List.length_cons,List.length_nil,CStr.strlen]
  omega

theorem lineBuf_eq_iff (name time : Bytes) (func : CStr) (line : ℤ) (fmt : CStr) :
    lineBuf name time func line fmt = wholeLine name time func line fmt ↔
      (wholeLine name time func line fmt).length ≤ bufSize-1 :=
  List.take_eq_self_iff _

def longFunc : CStr := ⟨List.replicate 55 102,fun h => absurd (List.eq_of_mem_replicate h) (by decide)⟩
def longFmt : CStr := ⟨List.replicate 127 97,fun h => absurd (List.eq_of_mem_replicate h) (by decide)⟩

theorem noon_inRange : InRange noon :=
  ⟨by decide,by decide,by decide,by decide,by decide,by decide⟩

/-- The buffer holds the line of every call that passes the checks, with the line feed at its end,
exactly for the line numbers of at most six characters: the checks leave six bytes for the number, and
no more. -/
theorem line_whole_iff (line : ℤ) : (∀ (clock : Clock) (level : ℤ) (name : Bytes) (func fmt : CStr),
      InRange clock → levelName level = some name → func.strlen < functionStringLen →
      fmt.strlen < bufSize-otherStringLen-functionStringLen →
      lineBuf name (timeBuf clock) func line fmt = wholeLine name (timeBuf clock) func line fmt) ↔
    -99999 ≤ line ∧ line ≤ 999999 := by
  rw [← decimal_length_le_iff]
  constructor
  · intro h
    have hfunc : longFunc.strlen = 55 := List.length_replicate
    have hfmt : longFmt.strlen = 127 := List.length_replicate
    have hlong := h noon 0 [68,69,66,85,71] longFunc longFmt noon_inRange rfl
      (by rw [hfunc]; decide) (by rw [hfmt]; decide)
    rw [lineBuf_eq_iff,wholeLine_length,timeBuf_length noon_inRange] at hlong
    simp only [hfunc,hfmt,bufSize,List.length_cons,List.length_nil] at hlong
    omega
  · intro hline clock level name func fmt hclock hname hfunc hfmt
    have hlevel := levelName_length hname
    rw [lineBuf_eq_iff,wholeLine_length,timeBuf_length hclock]
    simp only [functionStringLen,bufSize,otherStringLen] at hfunc hfmt ⊢
    omega

end LogLimits
end IotBase
