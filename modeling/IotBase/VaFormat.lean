import IotBase.RawBytes

/-! Formatting through an argument cursor. The cursor of a `va_list` moves past the arguments that a
format takes and is not set back. How many a format takes and what is printed for them is the C
library's and a parameter. -/
namespace IotBase
namespace VaFormat
open RawBytes

/-- Formatted output: the number of arguments that a format takes, and the text it makes of them. -/
structure Printf (A : Type*) where
  taken : Bytes → ℕ
  text : Bytes → (ℕ → A) → Bytes
  text_congr {format : Bytes} {va vb : ℕ → A} :
    (∀ i < taken format, va i = vb i) → text format va = text format vb

def dropArgs {A : Type*} (n : ℕ) (va : ℕ → A) : ℕ → A := fun i => va (n+i)

section Format

variable {A : Type*} (printf : Printf A)

/-- `vprintf`: what is printed, and where the cursor stands afterwards. -/
def vformat (va : ℕ → A) (format : Bytes) (ap : ℕ) : Bytes × ℕ :=
  (printf.text format (dropArgs ap va),ap+printf.taken format)

/-- `vsnprintf`: the bytes stored before the NUL, the return value and the cursor. -/
def vsnformat (va : ℕ → A) (size : ℕ) (format : Bytes) (ap : ℕ) : Bytes × ℕ × ℕ :=
  let r := vformat printf va format ap
  (r.1.take (size-1),r.1.length,r.2)

theorem dropArgs_zero (va : ℕ → A) : dropArgs 0 va = va := by
  funext i
  rw [dropArgs,Nat.zero_add]

/-- Two uses of one cursor agree, for every argument list, on those formats whose text is the same
for all arguments. -/
theorem text_dropArgs_iff (format : Bytes) (P : Bytes → Prop) :
    (∀ va, P (printf.text format (dropArgs (printf.taken format) va)) →
      printf.text format (dropArgs (printf.taken format) va) = printf.text format va) ↔
    ∀ va vb, P (printf.text format vb) → printf.text format vb = printf.text format va := by
  constructor
  · intro h va vb hP
    -- the arguments `va`, followed by `vb`
    have hboth := h fun i => if i < printf.taken format then va i else vb (i-printf.taken format)
    have hfirst : printf.text format
        (fun i => if i < printf.taken format then va i else vb (i-printf.taken format)) =
        printf.text format va := printf.text_congr fun i hi => if_pos hi
    have hsecond : dropArgs (printf.taken format)
        (fun i => if i < printf.taken format then va i else vb (i-printf.taken format)) = vb := by
      funext i
      simp [dropArgs]
    rw [hsecond,hfirst] at hboth
    exact hboth hP
  · intro h va hP
    exact h va _ hP

end Format

end VaFormat
end IotBase
