import IotBase.MapfileRow

/-! Rows of which only a first part is written over what was there. A key that the whole row would leave
as it was reads the same. -/
namespace IotBase
namespace MapfileTear
open RawBytes CString MapfileItem MapfileStore MapfileFile MapfileRow

/-- A slot over which the first `n` bytes of another one have been written. -/
def tornItem (n : ℕ) (p q : KvItem) : KvItem where
  key := splice p.key 0 (q.key.take n)
  value := splice p.value 0 (q.value.take (n-itemMaxKeyLen))
  valueLen := word32 (splice (word32Bytes p.valueLen) 0
    ((word32Bytes q.valueLen).take (n-(itemMaxKeyLen+itemMaxValLen))))
  key_length := by simp
  value_length := by simp

/-- A row over which the first `n` bytes of another one have been written. -/
def tornRow : ℕ → List KvItem → List KvItem → List KvItem
  | n, p::kv, q::kv' => tornItem n p q::tornRow (n-itemMaxLen) kv kv'
  | _, kv, _ => kv

theorem tornItem_encode (n : ℕ) (p q : KvItem) :
    (tornItem n p q).encode = splice p.encode 0 (q.encode.take n) := by
  have hfields := splice_append_take (a:=p.key++p.value) (b:=word32Bytes p.valueLen)
    (c:=q.key++q.value) (d:=word32Bytes q.valueLen) n (by simp) le_rfl
  have hchars := splice_append_take (a:=p.key) (b:=p.value) (c:=q.key) (d:=q.value) n (by simp) (by simp)
  have hlen : (p.key++p.value).length = itemMaxKeyLen+itemMaxValLen := by simp
  rw [hlen,hchars,p.key_length] at hfields
  rw [KvItem.encode,KvItem.encode,KvItem.encode,hfields,tornItem,word32Bytes_word32 (splice_length _ _ _)]

theorem tornRow_encode {kv kv' : List KvItem} (n : ℕ) (h : kv'.length = kv.length) :
    encodeRow (tornRow n kv kv') = splice (encodeRow kv) 0 ((encodeRow kv').take n) := by
  induction kv generalizing n kv' with
  | nil =>
    obtain rfl := List.eq_nil_of_length_eq_zero h
    rw [show encodeRow [] = [] from rfl,List.take_nil,splice_nil]
    rfl
  | cons p kv ih =>
    obtain ⟨q,kv',rfl⟩ := List.exists_cons_of_length_eq_add_one h
    rw [List.length_cons,List.length_cons] at h
    have hkv : kv'.length = kv.length := Nat.succ.inj h
    have happend := splice_append_take (a:=p.encode) (b:=encodeRow kv) (c:=q.encode)
      (d:=encodeRow kv') n (by simp) (by simp [hkv])
    rw [p.encode_length,← tornItem_encode,← ih _ hkv] at happend
    exact happend.symm

@[simp] theorem tornRow_length (n : ℕ) (kv kv' : List KvItem) : (tornRow n kv kv').length = kv.length := by
  induction kv generalizing n kv' with
  | nil => cases kv' <;> rfl
  | cons p kv ih =>
    cases kv' with
    | nil => rfl
    | cons q kv' => rw [tornRow,List.length_cons,ih,List.length_cons]

theorem rowAt_torn {file : Bytes} {i n : ℕ} {kv : List KvItem} (hfit : rowOff i+rowLen ≤ file.length)
    (hkv : kv.length = tableRowSize) :
    rowAt (splice file (rowOff i) ((encodeRow kv).take n)) i = tornRow n (rowAt file i) kv := by
  have hlen := row_le_rowLen kv hkv
  have hdata : ((encodeRow kv).take n).length ≤ rowLen := (List.length_take_le' _ _).trans hlen.le
  have hrow : encodeRow (rowAt file i) = slice file (rowOff i) rowLen :=
    encodeRow_decodeRow (slice_length _ _ _)
  have htorn : encodeRow (tornRow n (rowAt file i) kv) =
      splice (encodeRow (rowAt file i)) 0 ((encodeRow kv).take n) :=
    tornRow_encode n (by rw [hkv,rowAt_length])
  rw [rowAt,slice_splice_inside hfit hdata,← hrow,← htorn]
  have hdecode := decodeRow_encodeRow (tornRow n (rowAt file i) kv)
  rwa [tornRow_length,rowAt_length] at hdecode

theorem tornItem_zero (p q : KvItem) : tornItem 0 p q = p := by
  apply KvItem.ext
  · exact splice_nil _ _
  · exact splice_nil _ _
  · simp only [tornItem,Nat.zero_sub,List.take_zero,splice_nil,word32_word32Bytes]

theorem tornItem_self (n : ℕ) (p : KvItem) : tornItem n p p = p := by
  apply KvItem.ext
  · exact splice_take_self _ _
  · exact splice_take_self _ _
  · simp only [tornItem,splice_take_self,word32_word32Bytes]

theorem tornRow_self (n : ℕ) (kv : List KvItem) : tornRow n kv kv = kv := by
  induction kv generalizing n with
  | nil => rfl
  | cons p kv ih => rw [tornRow,tornItem_self,ih]

theorem tornItem_valueLen {p q : KvItem} (hp : p.valueLen.toNat ≤ itemMaxValLen)
    (hq : q.valueLen.toNat ≤ itemMaxValLen) (n : ℕ) : (tornItem n p q).valueLen =
      if n ≤ itemMaxKeyLen+itemMaxValLen then p.valueLen else q.valueLen := by
  have h128 : itemMaxValLen = 128 := rfl
  rw [tornItem,word32_splice (by omega) (by omega)]
  simp only [Nat.sub_eq_zero_iff_le]

theorem tornItem_whole {p q : KvItem} (hp : p.valueLen.toNat ≤ itemMaxValLen)
    (hq : q.valueLen.toNat ≤ itemMaxValLen) {n : ℕ} (hn : itemMaxKeyLen+itemMaxValLen < n) :
    tornItem n p q = q := by
  apply KvItem.ext
  · exact splice_take_whole (by simp) (by rw [q.key_length]; omega)
  · exact splice_take_whole (by simp) (by rw [q.value_length]; omega)
  · rw [tornItem_valueLen hp hq,if_neg (by omega)]

theorem tornItem_name {p q : KvItem} (h : q.key = p.key) (n : ℕ) : (tornItem n p q).name = p.name := by
  refine congrArg fieldStr ?_
  rw [← h]
  exact (congrArg (splice · 0 (q.key.take n)) h.symm).trans (splice_take_self _ _)

theorem updateItem_len_le (p : KvItem) (value : Value) :
    (updateItem p value).valueLen.toNat ≤ itemMaxValLen := by
  rw [updateItem,clampLen_toNat]
  exact clampLen_le value

theorem insertItem_len_le (p : KvItem) (key : CStr) (value : Value) :
    (insertItem p key value).valueLen.toNat ≤ itemMaxValLen := by
  rw [insertItem,clampLen_toNat]
  exact clampLen_le value

theorem tornItem_update_name (p : KvItem) (value : Value) (n : ℕ) :
    (tornItem n p (updateItem p value)).name = p.name := tornItem_name rfl n

theorem tornItem_zero_name (p : KvItem) {n : ℕ} (hn : 0 < n) : (tornItem n p zeroItem).name = [] := by
  have hkey := p.key_length
  have hpos : 0 < min n itemMaxKeyLen := lt_min hn (by decide)
  obtain ⟨m,hm⟩ := Nat.exists_eq_succ_of_ne_zero (Nat.ne_of_gt hpos)
  have hdata : zeroItem.key.take n = 0::List.replicate m 0 := by
    change (List.replicate itemMaxKeyLen (0 : UInt8)).take n = _
    rw [List.take_replicate,hm,List.replicate_succ]
  change fieldStr (splice p.key 0 (zeroItem.key.take n)) = []
  rw [hdata,splice_fits (by rw [List.length_cons,List.length_replicate]; omega),List.take_zero,
    List.nil_append,List.cons_append]
  exact fieldStr_append_zero (k:=[]) _ List.not_mem_nil

theorem tornItem_live {p q : KvItem} (hp : p.Live) (hq : q.Live) (hlen : q.valueLen.toNat < 256) (n : ℕ) :
    (tornItem n p q).Live := by
  intro hzero
  have hbytes : word32Bytes (tornItem n p q).valueLen = splice (word32Bytes p.valueLen) 0
      ((word32Bytes q.valueLen).take (n-(itemMaxKeyLen+itemMaxValLen))) :=
    word32Bytes_word32 (splice_length _ _ _)
  rw [hzero] at hbytes
  cases hm : n-(itemMaxKeyLen+itemMaxValLen) with
  | zero =>
    rw [hm,List.take_zero,splice_nil] at hbytes
    have hword := congrArg word32 hbytes
    rw [word32_word32Bytes,word32_word32Bytes] at hword
    exact hp hword.symm
  | succ m =>
    rw [hm] at hbytes
    have hfirst : (splice (word32Bytes p.valueLen) 0 ((word32Bytes q.valueLen).take (m+1)))[0+0]? =
        ((word32Bytes q.valueLen).take (m+1))[0]? := getElem?_splice_inside (by simp) (by simp)
    rw [← hbytes] at hfirst
    have hbyte : (0 : UInt8) = UInt8.ofNat q.valueLen.toNat := Option.some.inj hfirst
    have hnat := congrArg UInt8.toNat hbyte
    rw [UInt8.toNat_ofNat'] at hnat
    apply hq
    apply BitVec.eq_of_toNat_eq
    change q.valueLen.toNat = 0
    change 0 = q.valueLen.toNat % 256 at hnat
    omega

/-- Bytes that agree up to a place agree there with what is the one first and then the other. -/
theorem take_torn {a l c b : Bytes} (n : ℕ) {m : ℕ} (hlen : c.length = l.length)
    (h : (a++c++b).take m = (a++l++b).take m) :
    (a++splice l 0 (c.take n)++b).take m = (a++l++b).take m := by
  rcases Nat.le_total l.length n with hn | hn
  · rwa [splice_take_whole hlen (by rwa [hlen])]
  have hfirst : (c.take n).length = n := List.length_take_of_le (by rwa [hlen])
  have htorn : splice l 0 (c.take n) = c.take n++l.drop n := by
    rw [splice_fits (by rw [hfirst]; omega),List.take_zero,List.nil_append,hfirst,Nat.zero_add]
  rw [htorn]
  rcases Nat.le_total (a.length+n) m with hm | hm
  · have hkeep : c.take n = l.take n := by
      have hcut := congrArg (List.take (a.length+n)) h
      rw [List.take_take,List.take_take,Nat.min_eq_left hm,List.append_assoc,List.append_assoc,
        List.take_length_add_append,List.take_length_add_append,
        List.take_append_of_le_length (by rwa [hlen]),List.take_append_of_le_length hn] at hcut
      exact List.append_cancel_left hcut
    rw [hkeep,List.take_append_drop]
  · have hshort : (a++(c.take n++l.drop n)++b).take m = (a++c++b).take m := by
      have hle : m-a.length ≤ n := by omega
      simp [List.take_append,List.take_take,Nat.min_eq_left hle,hfirst,hlen,
        Nat.sub_eq_zero_of_le hle,Nat.sub_eq_zero_of_le (hle.trans hn)]
    rw [hshort,h]

section Reads
variable {key k : CStr} {value : Value} {p q : KvItem} {rest row row' : List KvItem} {len : ℤ}

theorem getLoop_cons_hit (hk : k.strlen ≤ itemMaxKeyLen) (hp : p.Live) (hm : k.bytes <+: p.name) :
    getLoop k len (p::rest) = some (copyOut p rest len) := by
  rw [getLoop,if_pos hp,if_pos ((keyMatches_iff rest hk).mpr hm)]

theorem getLoop_cons_skip (hk : k.strlen ≤ itemMaxKeyLen) (hp : p.Live) (hm : ¬ k.bytes <+: p.name) :
    getLoop k len (p::rest) = getLoop k len rest := by
  rw [getLoop,if_pos hp,keyMatches_eq_false rest hk hm,if_neg Bool.false_ne_true]

theorem getLoop_cons_dead (hp : ¬ p.Live) : getLoop k len (p::rest) = none := by rw [getLoop,if_neg hp]

theorem copyOut_tornRow (n : ℕ) (hlen : row'.length = row.length)
    (h : copyOut p row' len = copyOut p row len) :
    copyOut p (tornRow n row row') len = copyOut p row len := by
  obtain ⟨hcount,hbytes⟩ := Prod.mk.inj h
  refine Prod.ext hcount ?_
  change (p.value++word32Bytes p.valueLen++encodeRow (tornRow n row row')++[0]).take _ = _
  rw [tornRow_encode n hlen]
  exact take_torn n (by rw [encodeRow_length,encodeRow_length,hlen]) hbytes

theorem copyOut_tornItem (n : ℕ) (hlen : q.valueLen = p.valueLen)
    (h : copyOut q rest len = copyOut p rest len) :
    copyOut (tornItem n p q) rest len = copyOut p rest len := by
  have hkept : (tornItem n p q).valueLen = p.valueLen := by
    simp only [tornItem,hlen,splice_take_self,word32_word32Bytes]
  obtain ⟨-,hbytes⟩ := Prod.mk.inj h
  rw [hlen] at hbytes
  rw [copyOut,copyOut,hkept]
  refine Prod.ext rfl ?_
  have htorn := take_torn (a:=[]) (l:=p.value) (c:=q.value)
    (b:=word32Bytes p.valueLen++encodeRow rest++[0]) (n-itemMaxKeyLen) (by simp) (by
      simpa only [List.nil_append,List.append_assoc] using hbytes)
  simpa only [tornItem,List.nil_append,List.append_assoc] using htorn

theorem valueLen_of_copyOut (h : copyOut q rest (2^31) = copyOut p rest (2^31)) :
    q.valueLen = p.valueLen := by
  have hcount := congrArg Prod.fst h
  have hp := BitVec.toInt_lt (x:=p.valueLen)
  have hq := BitVec.toInt_lt (x:=q.valueLen)
  change (if q.valueLen.toInt < 2^31 then q.valueLen.toInt else 2^31) =
    if p.valueLen.toInt < 2^31 then p.valueLen.toInt else 2^31 at hcount
  rw [if_pos (by omega),if_pos (by omega)] at hcount
  exact BitVec.eq_of_toInt_eq hcount

theorem getLoop_torn_update (hk : k.strlen ≤ itemMaxKeyLen) (hv : 0 < value.len) (hp : p.Live)
    (hsame : ∀ len, 0 < len → getLoop k len (updateItem p value::rest) = getLoop k len (p::rest)) (n : ℕ)
    (hlen : 0 < len) :
    getLoop k len (tornItem n p (updateItem p value)::rest) = getLoop k len (p::rest) := by
  have hlive := updateItem_live p hv
  have htorn := tornItem_live hp hlive ((updateItem_len_le p value).trans_lt (by decide)) n
  have hname := tornItem_update_name p value n
  by_cases hm : k.bytes <+: p.name
  · have hcopy : ∀ len, 0 < len → copyOut (updateItem p value) rest len = copyOut p rest len := by
      intro len hlen
      have hread := hsame len hlen
      rw [getLoop_cons_hit hk hlive hm,getLoop_cons_hit hk hp hm] at hread
      exact Option.some.inj hread
    rw [getLoop_cons_hit hk htorn (by rwa [hname]),getLoop_cons_hit hk hp hm,
      copyOut_tornItem n (valueLen_of_copyOut (hcopy _ (by decide))) (hcopy len hlen)]
  · rw [getLoop_cons_skip hk htorn (by rwa [hname]),getLoop_cons_skip hk hp hm]

theorem getLoop_torn_insert (hp : ¬ p.Live)
    (hsame : getLoop k len (insertItem p key value::rest) = getLoop k len (p::rest)) (n : ℕ) :
    getLoop k len (tornItem n p (insertItem p key value)::rest) = getLoop k len (p::rest) := by
  have hzero : p.valueLen.toNat ≤ itemMaxValLen := by
    rw [show p.valueLen = 0 from not_not.mp hp]
    exact Nat.zero_le _
  have hinsert := insertItem_len_le p key value
  by_cases hn : n ≤ itemMaxKeyLen+itemMaxValLen
  · have hfree : ¬ (tornItem n p (insertItem p key value)).Live := by
      rw [KvItem.Live,tornItem_valueLen hzero hinsert,if_pos hn]
      exact hp
    rw [getLoop_cons_dead hfree,getLoop_cons_dead hp]
  · rw [tornItem_whole hzero hinsert (by omega)]
    exact hsame

/-- A key that reads in the row of a set as before reads so in the row of which a part is written. -/
theorem getLoop_torn_put (hk : k.strlen ≤ itemMaxKeyLen) (hv : 0 < value.len)
    (hput : putLoop key value row = some row')
    (hsame : ∀ len, 0 < len → getLoop k len row' = getLoop k len row) (n : ℕ) (hlen : 0 < len) :
    getLoop k len (tornRow n row row') = getLoop k len row := by
  induction row generalizing row' n with
  | nil => cases hput
  | cons p rest ih =>
    by_cases hp : p.Live
    · rw [putLoop,if_pos hp] at hput
      by_cases hmatch : keyMatches (p::rest) key = true
      · rw [if_pos hmatch] at hput
        cases hput
        rw [tornRow,tornRow_self]
        exact getLoop_torn_update hk hv hp hsame n hlen
      · rw [if_neg hmatch] at hput
        obtain ⟨tail,htail,rfl⟩ := Option.map_eq_some_iff.mp hput
        rw [tornRow,tornItem_self]
        by_cases hm : k.bytes <+: p.name
        · have hread := hsame len hlen
          rw [getLoop_cons_hit hk hp hm,getLoop_cons_hit hk hp hm] at hread
          rw [getLoop_cons_hit hk hp hm,getLoop_cons_hit hk hp hm,
            copyOut_tornRow _ (putLoop_length htail) (Option.some.inj hread)]
        · rw [getLoop_cons_skip hk hp hm,getLoop_cons_skip hk hp hm]
          refine ih htail (fun len hlen => ?_) _
          have hread := hsame len hlen
          rwa [getLoop_cons_skip hk hp hm,getLoop_cons_skip hk hp hm] at hread
    · rw [putLoop,if_neg hp] at hput
      cases hput
      rw [tornRow,tornRow_self]
      exact getLoop_torn_insert hp (hsame len hlen) n

/-- A deletion takes names away, whether it is finished or not. -/
theorem getLoop_torn_rm_none (hk : k.strlen ≤ itemMaxKeyLen) (hne : k.bytes ≠ []) (n : ℕ)
    (hnone : getLoop k len row = none) : getLoop k len (tornRow n row (rmLoop key row)) = none := by
  induction row generalizing n with
  | nil => rfl
  | cons p rest ih =>
    by_cases hp : p.Live
    · have hm : ¬ k.bytes <+: p.name := by
        intro hm
        rw [getLoop_cons_hit hk hp hm] at hnone
        cases hnone
      rw [getLoop_cons_skip hk hp hm] at hnone
      rw [rmLoop,if_pos hp,tornRow]
      by_cases hmatch : keyMatches (p::rest) key = true
      · rw [if_pos hmatch]
        rcases Nat.eq_zero_or_pos n with rfl | hn
        · rw [tornItem_zero,getLoop_cons_skip hk hp hm]
          exact ih _ hnone
        · have hgone : ¬ k.bytes <+: (tornItem n p zeroItem).name := by
            rw [tornItem_zero_name p hn,List.prefix_nil]
            exact hne
          by_cases hlive : (tornItem n p zeroItem).Live
          · rw [getLoop_cons_skip hk hlive hgone]
            exact ih _ hnone
          · exact getLoop_cons_dead hlive
      · rw [if_neg hmatch,tornItem_self,getLoop_cons_skip hk hp hm]
        exact ih _ hnone
    · rw [rmLoop,if_neg hp,tornRow_self]
      exact hnone

theorem getLoop_torn_rm (hk : k.strlen ≤ itemMaxKeyLen)
    (hsame : getLoop k len (rmLoop key row) = getLoop k len row) (n : ℕ) :
    getLoop k len (tornRow n row (rmLoop key row)) = getLoop k len row := by
  induction row generalizing n with
  | nil => rfl
  | cons p rest ih =>
    by_cases hp : p.Live
    · by_cases hmatch : keyMatches (p::rest) key = true
      · have hnone : getLoop k len (p::rest) = none := by
          rw [← hsame,rmLoop,if_pos hp,if_pos hmatch]
          exact getLoop_cons_dead zeroItem_not_live
        have hne : k.bytes ≠ [] := by
          intro hnil
          rw [getLoop_cons_hit hk hp (by rw [hnil]; exact List.nil_prefix)] at hnone
          cases hnone
        rw [hnone]
        exact getLoop_torn_rm_none hk hne n hnone
      · rw [rmLoop,if_pos hp,if_neg hmatch] at hsame ⊢
        rw [tornRow,tornItem_self]
        by_cases hm : k.bytes <+: p.name
        · rw [getLoop_cons_hit hk hp hm,getLoop_cons_hit hk hp hm] at hsame ⊢
          rw [copyOut_tornRow _ (rmLoop_length key rest) (Option.some.inj hsame)]
        · rw [getLoop_cons_skip hk hp hm,getLoop_cons_skip hk hp hm] at hsame ⊢
          exact ih hsame _
    · rw [rmLoop,if_neg hp,tornRow_self]

end Reads

end MapfileTear
end IotBase
