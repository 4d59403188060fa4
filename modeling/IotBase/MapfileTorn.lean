import IotBase.MapfileAccess
import IotBase.MapfileFaults
import IotBase.MapfileIsolation

/-! Writes that stop half-way, by a short `write` or because the process dies in it. A slot ends in
its `value_len`, so a key that is new is there or not; an old value is overwritten byte by byte, and a
deletion takes the name away first. -/
namespace IotBase
namespace MapfileTorn
open RawBytes CString MapfileItem MapfileStore MapfileFile MapfileRow MapfileAccess KeyedHistory
open MapfileRefinement MapfileTear MapfileFaults LabelledRun

/-- How many of the first `n` bytes of the row are of the slot at which the loop of `hash_table_put`
stops, or behind it. -/
def reached (key : CStr) : List KvItem → ℕ → ℕ
  | [], n => n
  | p::rest, n =>
    if p.Live ∧ keyMatches (p::rest) key = false then reached key rest (n-itemMaxLen) else n

/-- What the key reads as when `n` bytes of its slot have been overwritten: the new value once the
length is, and before that the old value with the bytes that have been overwritten, if there is one. -/
def tornValue (old : Option Bytes) (new : Bytes) (n : ℕ) : Option Bytes :=
  if n ≤ itemMaxKeyLen+itemMaxValLen then
    old.map fun u => ((new++List.replicate itemMaxValLen 0).take (n-itemMaxKeyLen) ++
      u.drop (n-itemMaxKeyLen)).take u.length
  else some new

theorem updateItem_value (p : KvItem) (value : Value) : (updateItem p value).value =
    (value.bytes.take (clampLen value)++List.replicate itemMaxValLen 0).take itemMaxValLen := by
  have hle := clampLen_le value
  have hlen : (value.bytes.take (clampLen value)).length = clampLen value :=
    List.length_take_of_le (clampLen_readable value)
  have hzero : memset p.value 0 itemMaxValLen = List.replicate itemMaxValLen 0 := by
    have hwhole := splice_take_whole (l:=p.value) (b:=List.replicate itemMaxValLen 0) (n:=itemMaxValLen)
      (by simp) (by simp)
    rwa [List.take_of_length_le (by simp)] at hwhole
  change memcpy (memset p.value 0 itemMaxValLen) value.bytes (clampLen value) = _
  rw [hzero,memcpy]
  generalize value.bytes.take (clampLen value) = new at hlen ⊢
  rw [splice_fits (by rw [hlen,List.length_replicate]; omega),hlen,List.take_zero,List.nil_append,
    Nat.zero_add,List.drop_replicate,List.take_append,hlen,List.take_of_length_le (by omega),
    List.take_replicate,Nat.min_eq_left (by omega)]

theorem stored_torn {p : KvItem} (hp : p.valueLen.toNat ≤ itemMaxValLen) {value : Value} {n : ℕ}
    (hn : n ≤ itemMaxKeyLen+itemMaxValLen) : some (stored (tornItem n p (updateItem p value))) =
      tornValue (some (stored p)) (value.bytes.take (clampLen value)) n := by
  have hnew := updateItem_value p value
  have hlen : (updateItem p value).value.length = itemMaxValLen := (updateItem p value).value_length
  have hvalue := p.value_length
  have hkept : (tornItem n p (updateItem p value)).valueLen = p.valueLen := by
    rw [tornItem_valueLen hp (updateItem_len_le p value),if_pos hn]
  obtain ⟨k,hk⟩ : ∃ k, n-itemMaxKeyLen = k := ⟨_,rfl⟩
  have hle : k ≤ itemMaxValLen := by omega
  have hhead : ((updateItem p value).value.take k).length = k := List.length_take_of_le (by omega)
  have hstored : (stored p).length = p.valueLen.toNat := List.length_take_of_le (by omega)
  have htake : (value.bytes.take (clampLen value)++List.replicate itemMaxValLen 0).take k =
      (updateItem p value).value.take k := by
    rw [hnew,List.take_take,Nat.min_eq_left hle]
  rw [tornValue,if_pos hn,Option.map_some,hk,htake,hstored]
  generalize hA : (updateItem p value).value.take k = A at hhead
  have htorn : (tornItem n p (updateItem p value)).value = A++p.value.drop k := by
    change splice p.value 0 ((updateItem p value).value.take (n-itemMaxKeyLen)) = _
    rw [hk,hA,splice_fits (by rw [hhead]; omega),hhead,List.take_zero,List.nil_append,Nat.zero_add]
  have hold : (stored p).drop k = (p.value.drop k).take (p.valueLen.toNat-k) := List.drop_take
  rw [stored,hkept,htorn,hold,List.take_append,List.take_append,hhead,List.take_take,Nat.min_self]

def LensOk (row : List KvItem) : Prop := ∀ p ∈ row, p.valueLen.toNat ≤ itemMaxValLen

theorem RowOk.lensOk {i : ℕ} {row : List KvItem} (h : RowOk i row) : LensOk row := by
  intro p hp
  rcases h.slot hp with hslot | rfl
  · exact hslot.len_le
  · exact Nat.zero_le _

theorem getLoop_lensOk {row : List KvItem} (h : LensOk row) {key : CStr}
    (hk : key.strlen ≤ itemMaxKeyLen) {len : ℤ} (hlen : 0 < len) :
    getLoop key len row = (searchHit key row).map fun p => answer (stored p) len := by
  cases hhit : searchHit key row with
  | none => exact getLoop_of_miss len hhit
  | some p => exact getLoop_of_hit hhit (h p (searchHit_spec hk hhit).1) hlen

theorem tornItem_len_le {p q : KvItem} (hp : p.valueLen.toNat ≤ itemMaxValLen)
    (hq : q.valueLen.toNat ≤ itemMaxValLen) (n : ℕ) :
    (tornItem n p q).valueLen.toNat ≤ itemMaxValLen := by
  rw [tornItem_valueLen hp hq]
  split
  · exact hp
  · exact hq

theorem tornRow_lensOk {row row' : List KvItem} (h : LensOk row) (h' : LensOk row') (n : ℕ) :
    LensOk (tornRow n row row') := by
  induction row generalizing n row' with
  | nil => cases row' <;> exact h
  | cons p rest ih =>
    cases row' with
    | nil => exact h
    | cons q rest' =>
      obtain ⟨hp,hrest⟩ := List.forall_mem_cons.mp h
      obtain ⟨hq,hrest'⟩ := List.forall_mem_cons.mp h'
      exact List.forall_mem_cons.mpr ⟨tornItem_len_le hp hq n,ih hrest hrest' _⟩

theorem putLoop_lensOk {key : CStr} {value : Value} {row row' : List KvItem} (h : LensOk row)
    (hput : putLoop key value row = some row') : LensOk row' :=
  forall_putLoop (fun p _ _ => updateItem_len_le p value) (fun p _ _ => insertItem_len_le p key value) h
    hput

section Rows
variable {key k : CStr} {value : Value} {row row' : List KvItem}

theorem tornItem_update_live {p : KvItem} (hp : p.Live) (hlen : p.valueLen.toNat ≤ itemMaxValLen)
    (hv : 0 < value.len) (n : ℕ) : (tornItem n p (updateItem p value)).Live := by
  rw [KvItem.Live,tornItem_valueLen hlen (updateItem_len_le p value)]
  split
  · exact hp
  · exact updateItem_live p hv

theorem tornItem_insert (key : CStr) (value : Value) (n : ℕ) :
    ¬ (tornItem n zeroItem (insertItem zeroItem key value)).Live ∧ n ≤ itemMaxKeyLen+itemMaxValLen ∨
      tornItem n zeroItem (insertItem zeroItem key value) = insertItem zeroItem key value ∧
        itemMaxKeyLen+itemMaxValLen < n := by
  have hzero : zeroItem.valueLen.toNat ≤ itemMaxValLen := Nat.zero_le _
  have hinsert := insertItem_len_le zeroItem key value
  by_cases hn : n ≤ itemMaxKeyLen+itemMaxValLen
  · refine Or.inl ⟨?_,hn⟩
    rw [KvItem.Live,tornItem_valueLen hzero hinsert,if_pos hn]
    exact zeroItem_not_live
  · exact Or.inr ⟨tornItem_whole hzero hinsert (by omega),by omega⟩

theorem reached_hit (hk : key.strlen ≤ itemMaxKeyLen) {p : KvItem} (rest : List KvItem)
    (hm : key.bytes <+: p.name) {n : ℕ} : reached key (p::rest) n = n := by
  have hmatch := (keyMatches_iff rest hk).mpr hm
  rw [reached,hmatch,if_neg]
  exact fun h => Bool.noConfusion h.2

theorem reached_skip (hk : key.strlen ≤ itemMaxKeyLen) {p : KvItem} (rest : List KvItem) (hp : p.Live)
    (hm : ¬ key.bytes <+: p.name) {n : ℕ} :
    reached key (p::rest) n = reached key rest (n-itemMaxLen) := by
  rw [reached,if_pos ⟨hp,keyMatches_eq_false rest hk hm⟩]

theorem searchHit_dead (k : CStr) (h : ∀ p ∈ row, ¬ p.Live) : searchHit k row = none := by
  cases row with
  | nil => rfl
  | cons p rest => rw [searchHit,if_neg (h p List.mem_cons_self)]

/-- An interrupted set leaves what the keys read that its own key does not start with. -/
theorem searchHit_torn_put (hk : key.strlen < itemMaxKeyLen) (hv : 0 < value.len)
    (hrow : RowOk (hashGen key) row) (hexact : ExactHit key row)
    (hput : putLoop key value row = some row') (n : ℕ) (hks : k.strlen ≤ itemMaxKeyLen)
    (hne : ¬ k.bytes <+: key.bytes) :
    (searchHit k (tornRow n row row')).map stored = (searchHit k row).map stored := by
  induction row generalizing row' n with
  | nil => cases hput
  | cons p rest ih =>
    rcases hrow with ⟨hp,-,hrest⟩ | hz
    · have hlive := hp.live
      by_cases hm : key.bytes <+: p.name
      · have hname := (exactHit_hit hk.le rest hlive hm).mp hexact
        have hmatch := (keyMatches_iff rest hk.le).mpr hm
        simp only [putLoop,if_pos hlive,if_pos hmatch,Option.some.injEq] at hput
        subst hput
        have hkeep := tornItem_update_name p value n
        rw [tornRow,tornRow_self,searchHit_skip hks _ hlive (by rwa [hname]),
          searchHit_skip hks _ (tornItem_update_live hlive hp.len_le hv n) (by rwa [hkeep,hname])]
      · simp only [putLoop,if_pos hlive,keyMatches_eq_false rest hk.le hm,Bool.false_eq_true,if_false] at hput
        obtain ⟨tail,htail,rfl⟩ := Option.map_eq_some_iff.mp hput
        rw [tornRow,tornItem_self]
        by_cases hkm : k.bytes <+: p.name
        · rw [searchHit_hit hks _ hlive hkm,searchHit_hit hks _ hlive hkm]
        · rw [searchHit_skip hks _ hlive hkm,searchHit_skip hks _ hlive hkm]
          exact ih hrest ((exactHit_skip hk.le rest hlive hm).mp hexact) htail _
    · have hdead := not_live_of_zero hz
      obtain ⟨hp,hrest⟩ := List.forall_mem_cons.mp hz
      simp only [putLoop,if_neg (hdead p List.mem_cons_self),Option.some.injEq] at hput
      subst hput
      rw [searchHit_dead k hdead,tornRow,tornRow_self,hp]
      rcases tornItem_insert key value n with ⟨hfree,-⟩ | ⟨hfilled,-⟩
      · rw [searchHit,if_neg hfree]
      · have hname := insertItem_zero_name value hk
        rw [hfilled,searchHit_skip hks _ (insertItem_live _ key hv) (by rwa [hname]),
          searchHit_dead k (not_live_of_zero hrest)]

/-- What the key of an interrupted set reads as. -/
theorem searchHit_torn_put_self (hk : key.strlen < itemMaxKeyLen) (hv : 0 < value.len)
    (hrow : RowOk (hashGen key) row) (hexact : ExactHit key row)
    (hput : putLoop key value row = some row') (n : ℕ) :
    (searchHit key (tornRow n row row')).map stored =
      tornValue ((searchHit key row).map stored) (value.bytes.take (clampLen value))
        (reached key row n) := by
  induction row generalizing row' n with
  | nil => cases hput
  | cons p rest ih =>
    rcases hrow with ⟨hp,-,hrest⟩ | hz
    · have hlive := hp.live
      by_cases hm : key.bytes <+: p.name
      · have hmatch := (keyMatches_iff rest hk.le).mpr hm
        simp only [putLoop,if_pos hlive,if_pos hmatch,Option.some.injEq] at hput
        subst hput
        have hkeep := tornItem_update_name p value n
        rw [tornRow,tornRow_self,searchHit_hit hk.le _ hlive hm,reached_hit hk.le rest hm,
          searchHit_hit hk.le _ (tornItem_update_live hlive hp.len_le hv n) (by rwa [hkeep])]
        by_cases hn : n ≤ itemMaxKeyLen+itemMaxValLen
        · exact stored_torn hp.len_le hn
        · rw [tornItem_whole hp.len_le (updateItem_len_le p value) (by omega),tornValue,if_neg hn]
          exact congrArg some (updateItem_stored p value)
      · have hmatch := keyMatches_eq_false rest hk.le hm
        simp only [putLoop,if_pos hlive,hmatch,Bool.false_eq_true,if_false] at hput
        obtain ⟨tail,htail,rfl⟩ := Option.map_eq_some_iff.mp hput
        rw [tornRow,tornItem_self,searchHit_skip hk.le _ hlive hm,searchHit_skip hk.le _ hlive hm,
          reached_skip hk.le rest hlive hm]
        exact ih hrest ((exactHit_skip hk.le rest hlive hm).mp hexact) htail _
    · have hdead := not_live_of_zero hz
      obtain ⟨hp,-⟩ := List.forall_mem_cons.mp hz
      have hfirst := hdead p List.mem_cons_self
      simp only [putLoop,if_neg hfirst,Option.some.injEq] at hput
      subst hput
      rw [searchHit_dead key hdead,reached,if_neg fun h => hfirst h.1,tornRow,tornRow_self,hp,tornValue]
      rcases tornItem_insert key value n with ⟨hfree,hn⟩ | ⟨hfilled,hn⟩
      · rw [searchHit,if_neg hfree,if_pos hn]
        rfl
      · have hname := insertItem_zero_name value hk
        rw [hfilled,if_neg (Nat.not_le.mpr hn),
          searchHit_hit hk.le _ (insertItem_live _ key hv) (by rw [hname])]
        exact congrArg some (insertItem_stored zeroItem key value)

theorem rmLoop_cons (hk : key.strlen ≤ itemMaxKeyLen) {i : ℕ} {p : KvItem} {rest : List KvItem}
    (hrow : RowOk i (p::rest)) (hexact : RmExact key (p::rest)) :
    (p.Live ∧ p.name = key.bytes ∧ (∀ q ∈ rest, ¬ q.Live) ∧
        rmLoop key (p::rest) = zeroItem::rest) ∨
      (p.Live ∧ ¬ key.bytes <+: p.name ∧ RowOk i rest ∧ RmExact key rest ∧
        rmLoop key (p::rest) = p::rmLoop key rest) ∨
      ((∀ q ∈ p::rest, ¬ q.Live) ∧ rmLoop key (p::rest) = p::rest) := by
  rcases hrow with ⟨hp,-,hrest⟩ | hz
  · have hlive := hp.live
    by_cases hm : key.bytes <+: p.name
    · obtain ⟨hname,hdead⟩ := hexact [] p rest rfl hlive hm
      refine Or.inl ⟨hlive,hname,hdead,?_⟩
      simp only [rmLoop,if_pos hlive,if_pos ((keyMatches_iff rest hk).mpr hm),rmLoop_dead hdead]
    · refine Or.inr (Or.inl ⟨hlive,hm,hrest,fun pre q post he => ?_,?_⟩)
      · exact hexact (p::pre) q post (by rw [he]; rfl)
      · simp only [rmLoop,if_pos hlive,keyMatches_eq_false rest hk hm,Bool.false_eq_true,if_false]
  · have hdead := not_live_of_zero hz
    exact Or.inr (Or.inr ⟨hdead,rmLoop_dead hdead⟩)

/-- An interrupted deletion leaves what the keys read that its own key does not start with. -/
theorem searchHit_torn_rm (hk : key.strlen ≤ itemMaxKeyLen) {i : ℕ} (hrow : RowOk i row)
    (hexact : RmExact key row) (n : ℕ) (hks : k.strlen ≤ itemMaxKeyLen) (hne : ¬ k.bytes <+: key.bytes) :
    (searchHit k (tornRow n row (rmLoop key row))).map stored = (searchHit k row).map stored := by
  induction row generalizing n with
  | nil => rfl
  | cons p rest ih =>
    rcases rmLoop_cons hk hrow hexact with ⟨hlive,hname,hdead,hrm⟩ | ⟨hlive,-,hrest,hexact',hrm⟩ |
      ⟨-,hrm⟩
    · rw [hrm,tornRow,tornRow_self,searchHit_skip hks _ hlive (by rwa [hname]),searchHit_dead k hdead]
      rcases Nat.eq_zero_or_pos n with rfl | hn
      · rw [tornItem_zero,searchHit_skip hks _ hlive (by rwa [hname]),searchHit_dead k hdead]
      · have hgone := tornItem_zero_name p hn
        have hnot : ¬ k.bytes <+: (tornItem n p zeroItem).name := by
          rw [hgone,List.prefix_nil]
          exact fun hnil => hne (hnil ▸ List.nil_prefix)
        by_cases hlive' : (tornItem n p zeroItem).Live
        · rw [searchHit_skip hks _ hlive' hnot,searchHit_dead k hdead]
        · rw [searchHit,if_neg hlive']
    · rw [hrm,tornRow,tornItem_self]
      by_cases hkm : k.bytes <+: p.name
      · rw [searchHit_hit hks _ hlive hkm,searchHit_hit hks _ hlive hkm]
      · rw [searchHit_skip hks _ hlive hkm,searchHit_skip hks _ hlive hkm]
        exact ih hrest hexact' _
    · rw [hrm,tornRow_self]

/-- The key of an interrupted deletion is gone as soon as a byte of its slot has been written. -/
theorem searchHit_torn_rm_self (hk : key.strlen ≤ itemMaxKeyLen) (hne : key.bytes ≠ []) {i : ℕ}
    (hrow : RowOk i row) (hexact : RmExact key row) (n : ℕ) :
    (searchHit key (tornRow n row (rmLoop key row))).map stored =
      if reached key row n = 0 then (searchHit key row).map stored else none := by
  induction row generalizing n with
  | nil => exact (ite_self _).symm
  | cons p rest ih =>
    rcases rmLoop_cons hk hrow hexact with ⟨hlive,hname,hdead,hrm⟩ | ⟨hlive,hm,hrest,hexact',hrm⟩ |
      ⟨hdead,hrm⟩
    · rw [hrm,tornRow,tornRow_self,reached_hit hk rest (by rw [hname])]
      rcases Nat.eq_zero_or_pos n with rfl | hn
      · rw [tornItem_zero,if_pos rfl]
      · rw [if_neg (Nat.ne_of_gt hn)]
        have hnot : ¬ key.bytes <+: (tornItem n p zeroItem).name := by
          rw [tornItem_zero_name p hn,List.prefix_nil]
          exact hne
        by_cases hlive' : (tornItem n p zeroItem).Live
        · rw [searchHit_skip hk _ hlive' hnot,searchHit_dead key hdead]
          rfl
        · rw [searchHit,if_neg hlive']
          rfl
    · rw [hrm,tornRow,tornItem_self,searchHit_skip hk _ hlive hm,searchHit_skip hk _ hlive hm,
        reached_skip hk rest hlive hm]
      exact ih hrest hexact' _
    · rw [hrm,tornRow_self,searchHit_dead key hdead]
      exact (ite_self _).symm

end Rows

/-- The file after a set of which `write` gets no further than the first `n` bytes of the row. -/
def tornSet (n : ℕ) (disk : Disk) (key : CStr) (value : Value) : Disk :=
  (mapfileKvSet { write := { write := .short n } } disk (some key) (some value)).1

def tornDel (n : ℕ) (disk : Disk) (key : CStr) : Disk :=
  (mapfileKvDel { write := { write := .short n } } disk (some key)).1

section Files
variable {file : Bytes} {i n : ℕ} {key k : CStr} {value : Value} {kv : List KvItem}

theorem tornSet_eq (hfit : rowOff (hashGen key)+rowLen ≤ file.length) (hv : 0 < value.len)
    (hput : putLoop key value (rowAt file (hashGen key)) = some kv) :
    tornSet n (some file) key value =
      some (splice file (rowOff (hashGen key)) ((encodeRow kv).take n)) :=
  congrArg Prod.fst (set_short hfit hv hput)

theorem tornDel_eq (hfit : rowOff (hashGen key)+rowLen ≤ file.length)
    (hrm : rmLoop key (rowAt file (hashGen key)) = kv) :
    tornDel n (some file) key =
      some (splice file (rowOff (hashGen key)) ((encodeRow kv).take n)) :=
  congrArg Prod.fst (del_short hfit hrm)

theorem get_torn (hfit : rowOff (hashGen k)+rowLen ≤ file.length) (hkv : kv.length = tableRowSize)
    (hrow : LensOk (rowAt file (hashGen k))) (hlens : LensOk kv) (hk : k.strlen < itemMaxKeyLen) {len : ℤ}
    (hlen : 0 < len) :
    mapfileKvGet false {} (some (splice file (rowOff (hashGen k)) ((encodeRow kv).take n))) (some k)
        (some len) =
      ((searchHit k (tornRow n (rowAt file (hashGen k)) kv)).map stored).map (answer · len) := by
  have hfit' : rowOff (hashGen k)+rowLen ≤
      (splice file (rowOff (hashGen k)) ((encodeRow kv).take n)).length := by rwa [splice_length]
  have hget := kvGet_ok ⟨k,hk⟩ hfit' hlen
  rw [hget,rowAt_torn hfit hkv,getLoop_lensOk (tornRow_lensOk hrow hlens n) hk.le hlen,Option.map_map]
  rfl

theorem sameReads_of_hits {file' : Bytes} (hlength : file'.length = file.length)
    (hfit : rowOff (hashGen k)+rowLen ≤ file.length) (hrow : LensOk (rowAt file (hashGen k)))
    (hrow' : LensOk (rowAt file' (hashGen k))) (hk : k.strlen < itemMaxKeyLen)
    (hsame : (searchHit k (rowAt file' (hashGen k))).map stored =
      (searchHit k (rowAt file (hashGen k))).map stored) :
    SameReads (some file) (some file') (some k) := by
  refine sameReads_of_getLoop hlength hfit fun len hpos => ?_
  have hanswers := congrArg (Option.map (answer · len)) hsame
  rw [getLoop_lensOk hrow hk.le hpos,getLoop_lensOk hrow' hk.le hpos]
  rwa [Option.map_map,Option.map_map] at hanswers

theorem sameReads_torn (hfit : rowOff i+rowLen ≤ file.length) (hkv : kv.length = tableRowSize)
    (hrow : LensOk (rowAt file i)) (hlens : LensOk kv) (hk : k.strlen < itemMaxKeyLen)
    (hsame : hashGen k = i → (searchHit k (tornRow n (rowAt file i) kv)).map stored =
      (searchHit k (rowAt file i)).map stored) :
    SameReads (some file) (some (splice file (rowOff i) ((encodeRow kv).take n))) (some k) := by
  by_cases hi : hashGen k = i
  · subst hi
    have htorn := rowAt_torn (n:=n) hfit hkv
    refine sameReads_of_hits (splice_length _ _ _) hfit hrow ?_ hk ?_
    · rw [htorn]
      exact tornRow_lensOk hrow hlens n
    · rw [htorn]
      exact hsame rfl
  · have hdata : ((encodeRow kv).take n).length ≤ rowLen :=
      (List.length_take_le' _ _).trans (row_le_rowLen kv hkv).le
    exact sameReads_of_row (splice_length _ _ _) fun hkfit =>
      rowAt_splice_other (Ne.symm hi) hfit hkfit hdata

end Files

/-- A run of directed calls from a fresh file leads to this state. -/
def Reached (s : Run) : Prop :=
  ∃ ops, Meets (fun s op => some (Run.step s op)) Directed fresh ops ∧ ops.foldl Run.step fresh = s

def storedValue (s : Run) (key : CStr) : Option Bytes :=
  (read s.history key).map fun v => v.bytes.take (clampLen v)

/-- In every state that directed calls reach, a set that stops in its `write` leaves the keys alone
that its own key does not start with. Its own key has the new value once the length has been
written; until then it is not there if it was not, and else has the old value with the bytes written
over it. -/
theorem set_torn {s : Run} (hs : Reached s) (key : Key) (value : Value)
    (hd : Directed s (.set key value)) (hok : ((Op.set key value).call s.disk).2 = .ok) (n : ℕ) :
    (∀ k : Key, ¬ k.1.bytes <+: key.1.bytes →
      SameReads s.disk (tornSet n s.disk key value) (some k)) ∧
    ∀ len, 0 < len → mapfileKvGet false {} (tornSet n s.disk key value) (some key) (some len) =
      (tornValue (storedValue s key) (value.bytes.take (clampLen value))
        (reached key (s.row key) n)).map (answer · len) := by
  obtain ⟨ops,hops,rfl⟩ := hs
  obtain ⟨file,h⟩ := run_refines ops hops
  obtain ⟨hv,file',row,hfile,hfit,hput,-⟩ := kvSet_ok hok
  obtain rfl : file = file' := Option.some.inj (h.disk.symm.trans hfile)
  have hrow := h.rows _ (hashGen_lt key)
  have hexact := hd hv
  have hlens := RowOk.lensOk hrow
  have hlens' := putLoop_lensOk hlens hput
  have hlen : row.length = tableRowSize := by rw [putLoop_length hput,rowAt_length]
  rw [h.row_eq] at hexact ⊢
  rw [h.disk,tornSet_eq hfit hv hput]
  refine ⟨fun k hk => sameReads_torn hfit hlen hlens hlens' k.2 fun _ => ?_,fun len hpos => ?_⟩
  · exact searchHit_torn_put key.2 hv hrow hexact hput n k.2.le hk
  · rw [get_torn hfit hlen hlens hlens' key.2 hpos,searchHit_torn_put_self key.2 hv hrow hexact hput,
      searchHit_stored key.2.le hrow hexact,h.reads key]
    rfl

def twoBytes : Value := ⟨[2,3],2,by decide⟩

theorem reached_keyAB : ∃ file, Reached ⟨some file,[.put keyAB oneByte]⟩ ∧ file.length = fileLen ∧
    rowAt file (hashGen keyAB) = [insertItem zeroItem keyAB oneByte,zeroItem] ∧
    ExactHit keyAB (rowAt file (hashGen keyAB)) ∧
    mapfileKvGet false {} (some file) (some keyAB) (some 1) = some (1,[1]) := by
  obtain ⟨file,hrun,hlen,hrow⟩ := set_keyAB_eq
  have hAB : hashGen keyAB = 227 := by decide
  have hreached : Reached (List.foldl Run.step fresh [.set keyAB oneByte]) := ⟨_,set_keyAB_meets,rfl⟩
  have hexact := set_keyAB_exact
  rw [List.foldl_cons,List.foldl_nil,hrun] at hreached hexact
  exact ⟨file,hreached,hlen,by rw [hAB,hrow],hexact,get_keyAB hlen hrow⟩

/-- A second set of the key that stops after the first byte of the value. -/
theorem set_torn_keyAB : ∃ s : Run, Reached s ∧
    mapfileKvGet false {} s.disk (some keyAB) (some 1) = some (1,[1]) ∧
    (∀ k : Key, ¬ k.1.bytes <+: keyAB.1.bytes →
      SameReads s.disk (tornSet 97 s.disk keyAB twoBytes) (some k)) ∧
    mapfileKvGet false {} (tornSet 97 s.disk keyAB twoBytes) (some keyAB) (some 1) = some (1,[2]) := by
  obtain ⟨file,hreached,hlen,hrow,hexact,hget⟩ := reached_keyAB
  have hput : putLoop keyAB twoBytes (rowAt file (hashGen keyAB)) =
      some [updateItem (insertItem zeroItem keyAB oneByte) twoBytes,zeroItem] := by
    rw [hrow]
    decide +kernel
  have hok := congrArg Prod.snd (call_set keyAB twoBytes (key_fits hlen keyAB) (by decide) hput)
  obtain ⟨hothers,hself⟩ := set_torn hreached keyAB twoBytes (fun _ => hexact) hok 97
  have hstored : storedValue ⟨some file,[.put keyAB oneByte]⟩ keyAB = some [1] := rfl
  refine ⟨_,hreached,hget,hothers,(hself 1 (by decide)).trans ?_⟩
  rw [Run.row,Option.getD_some,hrow,hstored]
  decide +kernel

/-- A deletion that stops in its `write` leaves the keys alone that its own key does not start with;
its own key is gone as soon as one byte of its slot has been written. -/
theorem del_torn {s : Run} (hs : Reached s) (key : Key) (hne : key.1.bytes ≠ [])
    (hd : Directed s (.del key)) (n : ℕ) :
    (∀ k : Key, ¬ k.1.bytes <+: key.1.bytes → SameReads s.disk (tornDel n s.disk key) (some k)) ∧
    ∀ len, 0 < len → mapfileKvGet false {} (tornDel n s.disk key) (some key) (some len) =
      if reached key (s.row key) n = 0 then mapfileKvGet false {} s.disk (some key) (some len)
      else none := by
  obtain ⟨ops,hops,rfl⟩ := hs
  obtain ⟨file,h⟩ := run_refines ops hops
  have hfit := h.fits (hashGen_lt key)
  have hrow := h.rows _ (hashGen_lt key)
  have hlens := RowOk.lensOk hrow
  obtain ⟨row,hrm⟩ : ∃ row, rmLoop key (rowAt file (hashGen key)) = row := ⟨_,rfl⟩
  have hlens' : LensOk row := by
    rw [← hrm]
    exact forall_rmLoop (Nat.zero_le _) hlens
  have hlen : row.length = tableRowSize := by rw [← hrm,rmLoop_length,rowAt_length]
  have hexact : RmExact key _ := hd
  rw [h.row_eq] at hexact ⊢
  rw [h.disk,tornDel_eq hfit hrm]
  refine ⟨fun k hk => sameReads_torn hfit hlen hlens hlens' k.2 fun _ => ?_,fun len hpos => ?_⟩
  · rw [← hrm]
    exact searchHit_torn_rm key.2.le hrow hexact n k.2.le hk
  · rw [get_torn hfit hlen hlens hlens' key.2 hpos,← hrm,
      searchHit_torn_rm_self key.2.le hne hrow hexact,kvGet_ok key hfit hpos,
      getLoop_lensOk hlens key.2.le hpos]
    split
    · rw [Option.map_map]
      rfl
    · rfl

theorem del_torn_keyAB : ∃ s : Run, Reached s ∧
    mapfileKvGet false {} s.disk (some keyAB) (some 1) = some (1,[1]) ∧
    (∀ k : Key, ¬ k.1.bytes <+: keyAB.1.bytes → SameReads s.disk (tornDel 1 s.disk keyAB) (some k)) ∧
    mapfileKvGet false {} (tornDel 1 s.disk keyAB) (some keyAB) (some 1) = none := by
  obtain ⟨file,hreached,hlen,hrow,-,hget⟩ := reached_keyAB
  have hexact : RmExact keyAB (rowAt file (hashGen keyAB)) := by
    rw [hrow]
    intro pre p post he hlive hm
    cases pre with
    | nil =>
      obtain ⟨rfl,rfl⟩ := List.cons.inj he
      refine ⟨insertItem_keyAB_name,fun q hq => ?_⟩
      rw [List.mem_singleton.mp hq]
      exact zeroItem_not_live
    | cons q pre =>
      obtain ⟨-,he⟩ := List.cons.inj he
      have hp : p ∈ [zeroItem] := by rw [he]; simp
      rw [List.mem_singleton.mp hp] at hlive
      exact absurd hlive zeroItem_not_live
  obtain ⟨hothers,hself⟩ := del_torn hreached keyAB (by decide) hexact 1
  refine ⟨_,hreached,hget,hothers,(hself 1 (by decide)).trans ?_⟩
  rw [Run.row,Option.getD_some,hrow]
  exact if_neg (by decide +kernel)

end MapfileTorn
end IotBase
