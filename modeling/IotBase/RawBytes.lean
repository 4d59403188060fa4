import Mathlib.Data.List.TakeDrop
import Mathlib.Data.List.Basic
import Mathlib.Data.UInt
import Mathlib.Tactic.Ring

/-! Byte strings as memory: fixed-width reads, in-place writes, little-endian
words and the prefix that a NUL ends. -/
namespace IotBase
namespace RawBytes

abbrev Bytes := List UInt8

/-- The `n` bytes from `off` on, zero where the string is too short. -/
def slice (l : Bytes) (off n : ℕ) : Bytes := (l.drop off).takeD n 0

/-- Write `b` over `l` from `off` on; the length of `l` stays, what does not fit is lost. -/
def splice (l : Bytes) (off : ℕ) (b : Bytes) : Bytes :=
  l.take off ++ b.take (l.length-off) ++ l.drop (off+b.length)

@[simp] theorem slice_length (l : Bytes) (off n : ℕ) : (slice l off n).length = n :=
  List.takeD_length _ _ _

theorem slice_eq_take {l : Bytes} {off n : ℕ} (h : off+n ≤ l.length) :
    slice l off n = (l.drop off).take n := by
  apply List.takeD_eq_take
  simp only [List.length_drop]
  omega

@[simp] theorem splice_length (l : Bytes) (off : ℕ) (b : Bytes) :
    (splice l off b).length = l.length := by
  simp only [splice,List.length_append,List.length_take,List.length_drop]
  omega

theorem splice_fits {l b : Bytes} {off : ℕ} (h : off+b.length ≤ l.length) :
    splice l off b = l.take off ++ b ++ l.drop (off+b.length) := by
  have hb : b.take (l.length-off) = b := List.take_of_length_le (by omega)
  rw [splice,hb]

theorem slice_splice_self {l b : Bytes} {off : ℕ} (h : off+b.length ≤ l.length) :
    slice (splice l off b) off b.length = b := by
  rw [slice_eq_take (by simpa using h),splice_fits h,List.append_assoc,
    List.drop_append_of_le_length (by simp; omega)]
  simp

theorem slice_splice_before {l b : Bytes} {off pos n : ℕ} (h : off+b.length ≤ l.length)
    (hpos : pos+n ≤ off) : slice (splice l off b) pos n = slice l pos n := by
  rw [slice_eq_take (by simp; omega),slice_eq_take (by omega),splice_fits h,List.append_assoc,
    List.drop_append_of_le_length (by simp; omega),
    List.take_append_of_le_length (by simp; omega),List.drop_take,List.take_take]
  congr 1
  omega

theorem slice_splice_after {l b : Bytes} {off pos n : ℕ} (h : off+b.length ≤ l.length)
    (hpos : off+b.length ≤ pos) (hn : pos+n ≤ l.length) :
    slice (splice l off b) pos n = slice l pos n := by
  rw [slice_eq_take (by simpa using hn),slice_eq_take hn,splice_fits h]
  congr 1
  have hl : (l.take off ++ b).length = off+b.length := by simp; omega
  rw [List.drop_append,hl,List.drop_of_length_le (by omega),List.nil_append,List.drop_drop]
  congr 1
  omega

theorem getElem?_splice_outside {l b : Bytes} {off k : ℕ} (h : off+b.length ≤ l.length)
    (hk : k < off ∨ off+b.length ≤ k) : (splice l off b)[k]? = l[k]? := by
  rw [splice_fits h]
  rcases hk with hk | hk
  · rw [List.append_assoc,List.getElem?_append_left (by simp; omega),List.getElem?_take,if_pos hk]
  · have hl : (l.take off ++ b).length = off+b.length := by simp; omega
    rw [List.getElem?_append_right (by omega),hl,List.getElem?_drop]
    congr 1
    omega

theorem getElem?_splice_inside {l b : Bytes} {off k : ℕ} (h : off+b.length ≤ l.length)
    (hk : k < b.length) : (splice l off b)[off+k]? = b[k]? := by
  have hl : (l.take off).length = off := by simp; omega
  rw [splice_fits h,List.append_assoc,List.getElem?_append_right (by omega),hl,Nat.add_sub_cancel_left,
    List.getElem?_append_left hk]

theorem splice_slice {l b : Bytes} {off n m : ℕ} (hn : off+n ≤ l.length) (hm : m+b.length ≤ n) :
    splice l off (splice (slice l off n) m b) = splice l (off+m) b := by
  have hlen : (slice l off n).length = n := slice_length l off n
  have hhead : l.take (off+m) = l.take off ++ ((l.drop off).take n).take m := by
    rw [List.take_add,List.take_take,Nat.min_eq_left (by omega)]
  have htail : ((l.drop off).take n).drop (m+b.length) ++ l.drop (off+n) =
      l.drop (off+m+b.length) := by
    have hrest : l.drop (off+n) = ((l.drop off).drop (m+b.length)).drop (n-(m+b.length)) := by
      rw [List.drop_drop,List.drop_drop]
      congr 1
      omega
    rw [List.drop_take,hrest,List.take_append_drop,List.drop_drop,Nat.add_assoc]
  rw [splice_fits (by rw [splice_length,hlen]; exact hn),splice_length,hlen,
    splice_fits (by rw [hlen]; exact hm),splice_fits (by omega),slice_eq_take hn,hhead,← htail]
  simp only [List.append_assoc]

theorem splice_append_right (a l b : Bytes) (off : ℕ) :
    splice (a++l) (a.length+off) b = a ++ splice l off b := by
  have hlen : (a++l).length-(a.length+off) = l.length-off := by
    rw [List.length_append]
    omega
  rw [splice,splice,hlen,List.take_length_add_append,Nat.add_assoc,List.drop_length_add_append]
  simp only [List.append_assoc]

theorem splice_nil (l : Bytes) (off : ℕ) : splice l off [] = l := by
  rw [splice,List.take_nil,List.append_nil,List.length_nil,Nat.add_zero,List.take_append_drop]

/-- A first part written over two ranges goes into the first and then into the second. -/
theorem splice_append_take {a b c d : Bytes} (n : ℕ) (hc : c.length = a.length)
    (hd : d.length ≤ b.length) : splice (a++b) 0 ((c++d).take n) =
      splice a 0 (c.take n) ++ splice b 0 (d.take (n-a.length)) := by
  have hdn : (d.take (n-a.length)).length ≤ b.length := (List.length_take_le' _ _).trans hd
  have hcn : (c.take n).length ≤ a.length := (List.length_take_le' _ _).trans hc.le
  rw [splice_fits (l:=a) (by omega),splice_fits (l:=b) (by omega),List.take_append,hc,
    splice_fits (by rw [List.length_append,List.length_append]; omega),List.length_append]
  simp only [List.take_zero,List.nil_append,Nat.zero_add]
  by_cases hn : n ≤ a.length
  · have hlen : (c.take n).length = n := List.length_take_of_le (by omega)
    rw [Nat.sub_eq_zero_of_le hn,List.take_zero,List.append_nil,List.length_nil,Nat.add_zero,
      List.drop_append_of_le_length (by omega),List.append_assoc]
    simp
  · have hwhole : c.take n = c := List.take_of_length_le (by omega)
    rw [hwhole,hc,List.drop_length_add_append,List.drop_length,List.append_nil,List.append_assoc]

theorem splice_take_self (l : Bytes) (n : ℕ) : splice l 0 (l.take n) = l := by
  rw [splice_fits (by rw [Nat.zero_add]; exact List.length_take_le' _ _)]
  by_cases hn : n ≤ l.length
  · simp [List.length_take_of_le hn]
  · simp [List.take_of_length_le (by omega : l.length ≤ n)]

theorem splice_take_whole {l b : Bytes} {n : ℕ} (h : b.length = l.length) (hn : b.length ≤ n) :
    splice l 0 (b.take n) = b := by
  rw [List.take_of_length_le hn,splice_fits (by omega),Nat.zero_add,h,List.drop_length,List.append_nil,
    List.take_zero,List.nil_append]

theorem splice_again {l b : Bytes} (h : b.length ≤ l.length) (n : ℕ) :
    splice (splice l 0 ((splice l 0 b).take n)) 0 b = splice l 0 b := by
  have hwhole : splice l 0 b = b++l.drop b.length := by
    rw [splice_fits (by omega),List.take_zero,List.nil_append,Nat.zero_add]
  have hhead : (l.take b.length).length = b.length := List.length_take_of_le h
  have htorn := splice_append_take (a:=l.take b.length) (b:=l.drop b.length) (c:=b)
    (d:=l.drop b.length) n hhead.symm le_rfl
  rw [List.take_append_drop,splice_take_self] at htorn
  have hpart : (splice (l.take b.length) 0 (b.take n)).length = b.length := by rw [splice_length,hhead]
  rw [hwhole,htorn,splice_fits (by rw [List.length_append,hpart]; omega),List.take_zero,List.nil_append,
    Nat.zero_add]
  exact congrArg (b ++ ·) (List.drop_left' hpart)

theorem slice_splice_inside {file data : Bytes} {off n : ℕ} (hfit : off+n ≤ file.length)
    (hdata : data.length ≤ n) :
    slice (splice file off data) off n = splice (slice file off n) 0 data := by
  have hlength : (splice (slice file off n) 0 data).length = n := by simp
  have hwhole := splice_slice (m:=0) hfit (by simpa using hdata)
  rw [Nat.add_zero] at hwhole
  have hself : off+(splice (slice file off n) 0 data).length ≤ file.length := by rw [hlength]; exact hfit
  replace hself := slice_splice_self hself
  rw [hlength,hwhole] at hself
  exact hself

theorem slice_splice_behind {file data : Bytes} {off pos n : ℕ} (hfit : off+data.length ≤ file.length)
    (hpos : off+data.length ≤ pos) : slice (splice file off data) pos n = slice file pos n := by
  have hhead : (file.take off++data).length = off+data.length := by
    rw [List.length_append,List.length_take]
    omega
  rw [slice,slice,splice_fits hfit,List.drop_append,hhead,List.drop_of_length_le (by omega),
    List.nil_append,List.drop_drop,Nat.add_sub_cancel' hpos]

theorem slice_self (l : Bytes) : slice l 0 l.length = l := by
  rw [slice_eq_take (by omega)]
  simp

theorem slice_append_slice (l : Bytes) (off n m : ℕ) (h : off+(n+m) ≤ l.length) :
    slice l off n ++ slice l (off+n) m = slice l off (n+m) := by
  rw [slice_eq_take h,slice_eq_take (by omega),slice_eq_take (by omega),List.take_add,
    List.drop_drop]

theorem slice_append_left {a b : Bytes} {n : ℕ} (h : a.length = n) : slice (a++b) 0 n = a := by
  rw [slice_eq_take (by simp; omega)]
  simp [← h]

theorem slice_append_right {a b : Bytes} {off n : ℕ} (h : a.length ≤ off) :
    slice (a++b) off n = slice b (off-a.length) n := by
  rw [slice,slice,List.drop_append,List.drop_of_length_le h,List.nil_append]

theorem slice_replicate {m off n : ℕ} (c : UInt8) (h : off+n ≤ m) :
    slice (List.replicate m c) off n = List.replicate n c := by
  rw [slice_eq_take (by simpa using h)]
  simp only [List.drop_replicate,List.take_replicate]
  congr 1
  omega

theorem takeD_of_length_le {l : Bytes} {n : ℕ} (h : l.length ≤ n) :
    l.takeD n 0 = l ++ List.replicate (n-l.length) 0 := by
  induction l generalizing n with
  | nil => simp
  | cons c l ih =>
    cases n with
    | zero => simp at h
    | succ n =>
      have hl : l.length ≤ n := by simpa using h
      simp [ih hl]

/-- The four bytes of a 32-bit word, least significant first. -/
def word32Bytes (v : BitVec 32) : Bytes :=
  [UInt8.ofNat v.toNat,UInt8.ofNat (v.toNat/256),UInt8.ofNat (v.toNat/65536),
    UInt8.ofNat (v.toNat/16777216)]

/-- The 32-bit word that the first four bytes spell, least significant first. -/
def word32 (b : Bytes) : BitVec 32 :=
  BitVec.ofNat 32 ((b.getD 0 0).toNat+256*(b.getD 1 0).toNat+65536*(b.getD 2 0).toNat+
    16777216*(b.getD 3 0).toNat)

@[simp] theorem word32Bytes_length (v : BitVec 32) : (word32Bytes v).length = 4 := rfl

@[simp] theorem word32_word32Bytes (v : BitVec 32) : word32 (word32Bytes v) = v := by
  apply BitVec.eq_of_toNat_eq
  have hv := v.isLt
  simp only [word32,word32Bytes,List.getD_cons_zero,List.getD_cons_succ,UInt8.toNat_ofNat',
    BitVec.toNat_ofNat]
  omega

theorem word32Bytes_word32 {b : Bytes} (h : b.length = 4) : word32Bytes (word32 b) = b := by
  match b,h with
  | [x,y,z,w],_ =>
    have hx := x.toNat_lt
    have hy := y.toNat_lt
    have hz := z.toNat_lt
    have hw := w.toNat_lt
    have hv : (word32 [x,y,z,w]).toNat =
        x.toNat+256*y.toNat+65536*z.toNat+16777216*w.toNat := by
      simp only [word32,List.getD_cons_zero,List.getD_cons_succ,BitVec.toNat_ofNat]
      omega
    simp only [word32Bytes,hv,List.cons.injEq,and_true]
    refine ⟨?_,?_,?_,?_⟩ <;>
      apply UInt8.toNat_inj.mp <;>
      simp only [UInt8.toNat_ofNat'] <;>
      omega

/-- Of two words of one byte each, a first part of the second over the first is one of them. -/
theorem word32_splice {v w : BitVec 32} (hv : v.toNat < 256) (hw : w.toNat < 256) (n : ℕ) :
    word32 (splice (word32Bytes v) 0 ((word32Bytes w).take n)) = if n = 0 then v else w := by
  have hsmall : ∀ u : BitVec 32, u.toNat < 256 →
      word32Bytes u = UInt8.ofNat u.toNat::List.replicate 3 0 := by
    intro u hu
    rw [word32Bytes,Nat.div_eq_of_lt (by omega),Nat.div_eq_of_lt (by omega),
      Nat.div_eq_of_lt (by omega)]
    rfl
  cases n with
  | zero => rw [List.take_zero,splice_nil,word32_word32Bytes,if_pos rfl]
  | succ n =>
    have hrest : splice (List.replicate 3 0) 0 ((List.replicate 3 (0 : UInt8)).take n) =
        List.replicate 3 0 := splice_take_self _ _
    have hhead : splice [UInt8.ofNat v.toNat] 0 ([UInt8.ofNat w.toNat].take (n+1)) =
        [UInt8.ofNat w.toNat] := splice_take_whole rfl (by simp)
    have happend := splice_append_take (a:=[UInt8.ofNat v.toNat]) (b:=List.replicate 3 0)
      (c:=[UInt8.ofNat w.toNat]) (d:=List.replicate 3 0) (n+1) rfl le_rfl
    rw [List.length_singleton,Nat.add_sub_cancel,hrest,hhead] at happend
    have hword : word32 (UInt8.ofNat w.toNat::List.replicate 3 0) = w := by
      rw [← hsmall w hw,word32_word32Bytes]
    rw [if_neg (Nat.succ_ne_zero n),hsmall v hv,hsmall w hw]
    exact (congrArg word32 happend).trans hword

end RawBytes
end IotBase
