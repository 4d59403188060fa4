import IotBase.MapfileFaults
import IotBase.MapfileHandles
import Mathlib.Algebra.BigOperators.Group.Finset.Basic
import Mathlib.Algebra.Order.BigOperators.Group.Finset

/-! Keys of any length. `strncpy` stores the first 95 characters of a key and never writes the
last byte of the field, the searches compare all of the key: a key that does not fit is stored
over and over and never found. -/
namespace IotBase
namespace MapfileLongKey
open RawBytes CString MapfileItem MapfileStore MapfileFile MapfileRow
open MapfileRefinement (readOut answer_take kvGet_ok oneByte keyAB keyBA putLoop_zero open_fresh)
open MapfileFaults (Call)
open MapfileHandles (Holds putLoop_holds)

def liveCount (row : List KvItem) : ℕ := row.countP fun p => decide p.Live

def liveSlots (disk : Disk) : ℕ :=
  ∑ i ∈ Finset.range tableColSize, liveCount (rowAt (disk.getD []) i)

def reached (calls : List Call) : Disk :=
  calls.foldl (fun disk c => (c.run disk).1) (mapfileKvOpen {} none).1

def Updatable (disk : Disk) (key : CStr) (w : Value) : Prop :=
  (mapfileKvSet {} disk (some key) (some w)).2 = .ok ∧
  liveSlots (mapfileKvSet {} disk (some key) (some w)).1 ≤ liveSlots disk ∧
  ∀ n : ℤ, 1 ≤ n → mapfileKvGet false {} (mapfileKvSet {} disk (some key) (some w)).1 (some key)
    (some n) = some (readOut w n)

def Terminated (p : KvItem) : Prop := ∀ c, p.key[itemMaxKeyLen-1]? = some c → c = 0

section Row

variable {key : CStr} {value : Value} {row row' : List KvItem}

theorem zeroItem_terminated : Terminated zeroItem := by
  intro c hc
  exact List.eq_of_mem_replicate (List.mem_of_getElem? hc)

theorem insertItem_terminated {p : KvItem} (h : Terminated p) (key : CStr) (value : Value) :
    Terminated (insertItem p key value) := by
  intro c hc
  apply h c
  have hlen : (key.bytes.takeD (itemMaxKeyLen-1) 0).length = itemMaxKeyLen-1 := List.takeD_length _ _ _
  have hp := p.key_length
  rw [← hc]
  refine (getElem?_splice_outside ?_ (Or.inr ?_)).symm
  · rw [hlen,hp]
    decide
  · rw [hlen,Nat.zero_add]

theorem putLoop_terminated (h : putLoop key value row = some row')
    (hrow : ∀ p ∈ row, Terminated p) : ∀ p ∈ row', Terminated p :=
  forall_putLoop (fun _ _ hp => hp) (fun _ _ hp => insertItem_terminated hp key value) hrow h

theorem rmLoop_terminated (hrow : ∀ p ∈ row, Terminated p) :
    ∀ p ∈ rmLoop key row, Terminated p := forall_rmLoop zeroItem_terminated hrow

/-- A key that does not fit differs from every key field in the last byte. -/
theorem keyMatches_long (hk : itemMaxKeyLen ≤ key.strlen) {p : KvItem} (hp : Terminated p)
    (rest : List KvItem) : keyMatches (p::rest) key = false := by
  refine Bool.eq_false_iff.mpr fun hm => key.nul_free ?_
  obtain ⟨tail,htail⟩ := List.isPrefixOf_iff_prefix.mp hm
  have hlen : itemMaxKeyLen-1 < key.bytes.length := Nat.lt_of_lt_of_le (by decide) hk
  have hfield : p.key[itemMaxKeyLen-1]? = key.bytes[itemMaxKeyLen-1]? := by
    have hbuf : encodeRow (p::rest) ++ [0] =
        p.key ++ (p.value ++ word32Bytes p.valueLen ++ encodeRow rest ++ [0]) := by
      simp [encodeRow,KvItem.encode]
    have hkey : itemMaxKeyLen-1 < p.key.length := by
      rw [p.key_length]
      decide
    calc p.key[itemMaxKeyLen-1]?
        = (p.key ++ (p.value ++ word32Bytes p.valueLen ++ encodeRow rest ++ [0]))[itemMaxKeyLen-1]? :=
          (List.getElem?_append_left hkey).symm
      _ = (key.bytes ++ tail)[itemMaxKeyLen-1]? := by rw [← hbuf,htail]
      _ = key.bytes[itemMaxKeyLen-1]? := List.getElem?_append_left hlen
  have hzero : key.bytes[itemMaxKeyLen-1] = 0 :=
    hp _ (hfield.trans (List.getElem?_eq_getElem hlen))
  rw [← hzero]
  exact List.getElem_mem hlen

theorem putLoop_long (hk : itemMaxKeyLen ≤ key.strlen) (hv : 0 < value.len)
    (hrow : ∀ p ∈ row, Terminated p) (h : putLoop key value row = some row') :
    liveCount row' = liveCount row+1 := by
  induction row generalizing row' with
  | nil => simp [putLoop] at h
  | cons p rest ih =>
    obtain ⟨hp,hrest⟩ := List.forall_mem_cons.mp hrow
    by_cases hlive : p.Live
    · simp only [putLoop,hlive,keyMatches_long hk hp rest,if_true,Bool.false_eq_true,if_false] at h
      obtain ⟨tail,htail,rfl⟩ := Option.map_eq_some_iff.mp h
      have hcount : liveCount tail = liveCount rest+1 := ih hrest htail
      simp only [liveCount,List.countP_cons,hlive,decide_true,if_true] at hcount ⊢
      omega
    · simp only [putLoop,hlive,if_false,Option.some.injEq] at h
      subst h
      simp [liveCount,hlive,insertItem_live p key hv]

theorem putLoop_found {p : KvItem} (h : searchHit key row = some p) (hv : 0 < value.len) :
    ∃ row', putLoop key value row = some row' ∧ liveCount row' = liveCount row := by
  induction row with
  | nil => simp [searchHit] at h
  | cons q rest ih =>
    simp only [searchHit] at h
    split at h
    · rename_i hq
      split at h
      · rename_i hm
        refine ⟨updateItem q value::rest,by simp [putLoop,hq,hm],?_⟩
        simp [liveCount,hq,updateItem_live q hv]
      · rename_i hm
        obtain ⟨row',hput,hcount⟩ := ih h
        refine ⟨q::row',by simp [putLoop,hq,hm,hput],?_⟩
        simp only [liveCount,List.countP_cons] at hcount ⊢
        rw [hcount]
    · cases h

end Row

def FileTerminated (file : Bytes) : Prop :=
  ∀ m c, file[itemMaxLen*m+(itemMaxKeyLen-1)]? = some c → c = 0

theorem decode_terminated {b : Bytes} (hb : itemMaxLen ≤ b.length) (h : FileTerminated b) :
    Terminated (KvItem.decode (slice b 0 itemMaxLen)) := by
  intro c hc
  apply h 0 c
  have hlen : itemMaxKeyLen ≤ itemMaxLen := by decide
  have hlast : itemMaxKeyLen-1 < itemMaxKeyLen := by decide
  have hkey : (KvItem.decode (slice b 0 itemMaxLen)).key = b.take itemMaxKeyLen := by
    show slice (slice b 0 itemMaxLen) 0 itemMaxKeyLen = b.take itemMaxKeyLen
    rw [slice_eq_take (by rw [slice_length,Nat.zero_add]; exact hlen),slice_eq_take (by omega),
      List.drop_zero,List.drop_zero,List.take_take,Nat.min_eq_left hlen]
  rw [hkey,List.getElem?_take,if_pos hlast] at hc
  rw [Nat.mul_zero,Nat.zero_add]
  exact hc

theorem decodeRow_terminated {n : ℕ} {b : Bytes} (hb : itemMaxLen*n ≤ b.length)
    (h : FileTerminated b) : ∀ p ∈ decodeRow n b, Terminated p := by
  induction n generalizing b with
  | zero => simp [decodeRow]
  | succ n ih =>
    rw [Nat.mul_succ] at hb
    rw [decodeRow]
    refine List.forall_mem_cons.mpr ⟨decode_terminated (by omega) h,
      ih (by rw [List.length_drop]; omega) fun m c hc => ?_⟩
    rw [List.getElem?_drop] at hc
    refine h (m+1) c ?_
    rw [Nat.mul_succ,Nat.add_comm (itemMaxLen*m),Nat.add_assoc]
    exact hc

theorem encodeRow_terminated {kv : List KvItem} (h : ∀ p ∈ kv, Terminated p) :
    FileTerminated (encodeRow kv) := by
  induction kv with
  | nil =>
    intro m c hc
    simp [encodeRow] at hc
  | cons p rest ih =>
    obtain ⟨hp,hrest⟩ := List.forall_mem_cons.mp h
    have hcons : encodeRow (p::rest) = p.encode ++ encodeRow rest := rfl
    have hlast : itemMaxKeyLen-1 < itemMaxLen := by decide
    intro m c hc
    rw [hcons] at hc
    cases m with
    | zero =>
      have hkey : itemMaxKeyLen-1 < p.key.length := by
        rw [p.key_length]
        decide
      rw [Nat.mul_zero,Nat.zero_add,List.getElem?_append_left (by rw [p.encode_length]; exact hlast),
        KvItem.encode,List.append_assoc,List.getElem?_append_left hkey] at hc
      exact hp c hc
    | succ m =>
      rw [Nat.mul_succ,List.getElem?_append_right (by rw [p.encode_length]; omega),
        p.encode_length] at hc
      have hpos : itemMaxLen*m+itemMaxLen+(itemMaxKeyLen-1)-itemMaxLen =
          itemMaxLen*m+(itemMaxKeyLen-1) := by omega
      rw [hpos] at hc
      exact ih hrest m c hc

theorem rowAt_terminated {file : Bytes} {i : ℕ} (hfit : rowOff i+rowLen ≤ file.length)
    (h : FileTerminated file) : ∀ p ∈ rowAt file i, Terminated p := by
  rw [rowAt,slice_eq_take hfit]
  refine decodeRow_terminated ?_ fun m c hc => ?_
  · have hrow : itemMaxLen*tableRowSize = rowLen := rfl
    rw [List.length_take,List.length_drop,hrow]
    omega
  · rw [List.getElem?_take] at hc
    split at hc
    · rw [List.getElem?_drop] at hc
      have hpos : rowOff i+(itemMaxLen*m+(itemMaxKeyLen-1)) =
          itemMaxLen*(i*tableRowSize+m)+(itemMaxKeyLen-1) := by
        rw [rowOff]
        ring
      rw [hpos] at hc
      exact h _ c hc
    · cases hc

theorem splice_terminated {file : Bytes} {i n : ℕ} {kv : List KvItem}
    (hfit : rowOff i+rowLen ≤ file.length) (hlen : kv.length = tableRowSize) (h : FileTerminated file)
    (hkv : ∀ p ∈ kv, Terminated p) :
    FileTerminated (splice file (rowOff i) ((encodeRow kv).take n)) := by
  have hrow := row_le_rowLen kv hlen
  have hdata : ((encodeRow kv).take n).length ≤ rowLen := by
    rw [List.length_take,hrow]
    omega
  have hoff : rowOff i = itemMaxLen*(i*tableRowSize) := by
    rw [rowOff]
    ring
  intro m c hc
  by_cases hin : i*tableRowSize ≤ m ∧
      itemMaxLen*m+(itemMaxKeyLen-1) < rowOff i+((encodeRow kv).take n).length
  · obtain ⟨d,rfl⟩ := Nat.exists_eq_add_of_le hin.1
    have hpos : itemMaxLen*(i*tableRowSize+d)+(itemMaxKeyLen-1) =
        rowOff i+(itemMaxLen*d+(itemMaxKeyLen-1)) := by
      rw [hoff]
      ring
    have hend := hin.2
    rw [hpos] at hc hend
    rw [getElem?_splice_inside (by omega) (by omega),List.getElem?_take] at hc
    split at hc
    · exact encodeRow_terminated hkv d c hc
    · cases hc
  · rw [getElem?_splice_outside (by omega)] at hc
    · exact h m c hc
    · by_cases hm : i*tableRowSize ≤ m
      · exact Or.inr (by
          have := not_and.mp hin hm
          omega)
      · left
        have hlt : m+1 ≤ i*tableRowSize := by omega
        have hmul := Nat.mul_le_mul_left itemMaxLen hlt
        have hlast : itemMaxKeyLen-1 < itemMaxLen := by decide
        rw [hoff]
        rw [Nat.mul_succ] at hmul
        omega

/-- What every call keeps, also one that fails half-way: the file is empty or of full size,
and no key field is full. -/
def StoreOk (disk : Disk) : Prop :=
  ∃ file, disk = some file ∧ (file = [] ∨ file.length = fileLen) ∧ FileTerminated file

theorem storeOk_empty : StoreOk (some []) := ⟨[],rfl,Or.inl rfl,fun m c hc => by simp at hc⟩

theorem storeOk_zero : StoreOk (some (List.replicate fileLen 0)) :=
  ⟨_,rfl,Or.inr List.length_replicate,fun _ _ hc => List.eq_of_mem_replicate (List.mem_of_getElem? hc)⟩

theorem StoreOk.length {disk : Disk} (h : StoreOk disk) {file : Bytes} (hdisk : disk = some file)
    {i : ℕ} (hfit : rowOff i+rowLen ≤ file.length) : file.length = fileLen ∧ FileTerminated file := by
  obtain ⟨file',rfl,hlen,hterm⟩ := h
  cases hdisk
  rcases hlen with rfl | hlen
  · have hpos : 0 < rowLen := by decide
    simp only [List.length_nil] at hfit
    omega
  · exact ⟨hlen,hterm⟩

theorem StoreOk.write {disk : Disk} (h : StoreOk disk) (f : WriteFaults) {kv : List KvItem} {i : ℕ}
    (hlen : kv.length = tableRowSize)
    (hkv : (∀ p ∈ rowAt (disk.getD []) i, Terminated p) → ∀ p ∈ kv, Terminated p) :
    StoreOk (writeKvItem f disk kv i).1 := by
  rcases writeKvItem_cases f disk kv i with hfail | ⟨file,rfl,hfit,hw⟩
  · rwa [hfail]
  · obtain ⟨hfile,hterm⟩ := h.length rfl hfit
    rw [hw]
    refine ⟨_,rfl,Or.inr (by rw [splice_length,hfile]),?_⟩
    exact splice_terminated hfit hlen hterm (hkv (rowAt_terminated hfit hterm))

theorem StoreOk.set {disk : Disk} (h : StoreOk disk) (f : Faults) (key : Option CStr)
    (value : Option Value) : StoreOk (mapfileKvSet f disk key value).1 := by
  rcases mapfileKvSet_cases f disk key value with hnone | ⟨k,v,kv,-,-,-,hloop,hset⟩
  · rwa [hnone]
  · rw [hset]
    exact h.write f.write (by rw [putLoop_length hloop,rowAt_length]) (putLoop_terminated hloop)

theorem StoreOk.del {disk : Disk} (h : StoreOk disk) (f : Faults) (key : Option CStr) :
    StoreOk (mapfileKvDel f disk key).1 := by
  rcases mapfileKvDel_cases f disk key with hnone | ⟨k,-,hdel⟩
  · rwa [hnone]
  · rw [hdel]
    exact h.write f.write (by rw [rmLoop_length,rowAt_length]) rmLoop_terminated

theorem StoreOk.call {disk : Disk} (h : StoreOk disk) (c : Call) : StoreOk (c.run disk).1 := by
  cases c with
  | set f key value => exact h.set f key value
  | del f key => exact h.del f key
  | emp f =>
    simp only [Call.run,mapfileKvEmp]
    split
    · exact h
    · split
      · exact storeOk_empty
      · split
        · exact storeOk_zero
        · exact storeOk_zero

theorem reached_storeOk (calls : List Call) : StoreOk (reached calls) := by
  refine List.foldlRecOn calls _ ?_ fun disk h c _ => h.call c
  rw [open_fresh]
  exact storeOk_zero

theorem liveSlots_putRow {file : Bytes} {i : ℕ} {kv : List KvItem} (hlen : file.length = fileLen)
    (hi : i < tableColSize) (hkv : kv.length = tableRowSize) :
    liveSlots (some (putRow file i kv))+liveCount (rowAt file i) =
      liveSlots (some file)+liveCount kv := by
  have hfit : ∀ j < tableColSize, rowOff j+rowLen ≤ file.length := fun j hj => by
    rw [hlen]
    exact row_fits hj
  have hmem := Finset.mem_range.mpr hi
  have hrest : ∑ j ∈ (Finset.range tableColSize).erase i, liveCount (rowAt (putRow file i kv) j) =
      ∑ j ∈ (Finset.range tableColSize).erase i, liveCount (rowAt file j) := by
    apply Finset.sum_congr rfl
    intro j hj
    obtain ⟨hne,hj⟩ := Finset.mem_erase.mp hj
    rw [rowAt_putRow_other (Ne.symm hne) (hfit i hi) (hfit j (Finset.mem_range.mp hj)) hkv]
  simp only [liveSlots,Option.getD_some]
  rw [← Finset.add_sum_erase _ _ hmem,← Finset.add_sum_erase _ _ hmem,hrest,
    rowAt_putRow_self (hfit i hi) hkv]
  omega

section Row

variable {file : Bytes} {key : CStr} {v w : Value} {row : List KvItem}

theorem updatable_of_short (hk : key.strlen < itemMaxKeyLen) (hlen : file.length = fileLen)
    (hrow : Holds key v (rowAt file (hashGen key))) (hw : 0 < w.len) :
    Updatable (some file) key w := by
  have hfit := key_fits hlen key
  obtain ⟨p,hhit,-,-⟩ := hrow
  obtain ⟨row,hput,hcount⟩ := putLoop_found hhit hw
  have hkv : row.length = tableRowSize := by rw [putLoop_length hput,rowAt_length]
  obtain ⟨q,hq,hqlen,hqval⟩ := putLoop_holds hk hw hput
  rw [Updatable,kvSet_some hfit hw hput]
  refine ⟨rfl,?_,fun n hn => ?_⟩
  · have hsum := liveSlots_putRow hlen (hashGen_lt key) hkv
    rw [hcount] at hsum
    exact le_of_eq (Nat.add_right_cancel hsum)
  · have hmax : q.valueLen.toNat ≤ itemMaxValLen := by
      rw [hqlen]
      exact clampLen_le w
    rw [kvGet_ok ⟨key,hk⟩ (by rw [putRow_length]; exact hfit) hn,rowAt_putRow_self hfit hkv,
      getLoop_of_hit hq hmax hn,hqval,answer_take hw hn]

theorem not_updatable_of_long (hk : itemMaxKeyLen ≤ key.strlen) (hlen : file.length = fileLen)
    (hterm : FileTerminated file) (hw : 0 < w.len) : ¬ Updatable (some file) key w := by
  have hfit := key_fits hlen key
  have hrow := rowAt_terminated hfit hterm
  rintro ⟨hret,hlive,-⟩
  cases hput : putLoop key w (rowAt file (hashGen key)) with
  | none =>
    rw [kvSet_none hfit hput] at hret
    cases hret
  | some row =>
    have hkv : row.length = tableRowSize := by rw [putLoop_length hput,rowAt_length]
    have hcount := putLoop_long hk hw hrow hput
    have hsum := liveSlots_putRow hlen (hashGen_lt key) hkv
    rw [kvSet_some hfit hw hput] at hlive
    have hle : liveSlots (some (putRow file (hashGen key) row)) ≤ liveSlots (some file) := hlive
    omega

end Row

theorem set_file {calls : List Call} {f : Faults} {key : CStr} {v : Value}
    (hset : (mapfileKvSet f (reached calls) (some key) (some v)).2 = .ok) :
    ∃ file row, (mapfileKvSet f (reached calls) (some key) (some v)).1 = some file ∧
      file.length = fileLen ∧ FileTerminated file ∧ 0 < v.len ∧
      putLoop key v row = some (rowAt file (hashGen key)) := by
  have hok := (reached_storeOk calls).set f (some key) (some v)
  obtain ⟨hv,file,row,hdisk,hfit,hput,hafter⟩ := kvSet_ok hset
  obtain ⟨hlen,-⟩ := (reached_storeOk calls).length hdisk hfit
  have hkv : row.length = tableRowSize := by rw [putLoop_length hput,rowAt_length]
  have hlen' : (putRow file (hashGen key) row).length = fileLen := by rw [putRow_length,hlen]
  obtain ⟨-,hterm⟩ := hok.length hafter (key_fits hlen' key)
  refine ⟨_,rowAt file (hashGen key),hafter,hlen',hterm,hv,?_⟩
  rw [rowAt_putRow_self hfit hkv]
  exact hput

/-- In any state, after a successful set of `key` a second one works in place exactly when
the key fits its field with the terminating NUL. -/
theorem set_updatable_iff (calls : List Call) (f : Faults) (key : CStr) (v w : Value)
    (hset : (mapfileKvSet f (reached calls) (some key) (some v)).2 = .ok) (hw : 0 < w.len) :
    Updatable (mapfileKvSet f (reached calls) (some key) (some v)).1 key w ↔
      key.strlen < itemMaxKeyLen := by
  obtain ⟨file,row,hafter,hlen,hterm,hv,hput⟩ := set_file hset
  rw [hafter]
  constructor
  · intro hup
    by_contra hk
    exact not_updatable_of_long (by omega) hlen hterm hw hup
  · intro hk
    exact updatable_of_short hk hlen (putLoop_holds hk hv hput) hw

theorem set_fresh_ok (key : CStr) {v : Value} (hv : 0 < v.len) :
    (mapfileKvSet {} (reached []) (some key) (some v)).2 = .ok := by
  have hput : putLoop key v (rowAt (List.replicate fileLen 0) (hashGen key)) =
      some [insertItem zeroItem key v,zeroItem] := by
    rw [rowAt_zero (hashGen_lt key)]
    exact putLoop_zero key v
  have hzero : reached [] = some (List.replicate fileLen 0) := by
    rw [reached,List.foldl_nil]
    exact open_fresh
  rw [hzero,kvSet_some (key_fits_zero key) hv hput]

def setAndFail : List Call := [.set {} (some keyAB) (some oneByte),.emp {fopenFails := true}]

theorem set_second_ok : (mapfileKvSet {} (reached setAndFail) (some keyBA) (some oneByte)).2 = .ok := by
  have hpos : 0 < oneByte.len := by decide
  have hfit := key_fits_zero keyAB
  have hfirst : reached setAndFail = some (putRow (List.replicate fileLen 0) (hashGen keyAB)
      [insertItem zeroItem keyAB oneByte,zeroItem]) := by
    have hput : putLoop keyAB oneByte (rowAt (List.replicate fileLen 0) (hashGen keyAB)) =
        some [insertItem zeroItem keyAB oneByte,zeroItem] := by
      rw [rowAt_zero (hashGen_lt keyAB)]
      exact putLoop_zero _ _
    have hemp : ∀ disk, (Call.run disk (.emp {fopenFails := true})).1 = disk := fun _ => rfl
    rw [reached,open_fresh,setAndFail,List.foldl_cons,List.foldl_cons,List.foldl_nil,hemp,Call.run,
      kvSet_some hfit hpos hput]
  have hsecond : putLoop keyBA oneByte [insertItem zeroItem keyAB oneByte,zeroItem] =
      some [insertItem zeroItem keyAB oneByte,insertItem zeroItem keyBA oneByte] := by decide +kernel
  rw [hfirst,kvSet_some (by rwa [putRow_length]) hpos]
  rw [show hashGen keyBA = hashGen keyAB by decide,rowAt_putRow_self hfit rfl]
  exact hsecond

theorem set_updatable_second :
    Updatable (mapfileKvSet {} (reached setAndFail) (some keyBA) (some oneByte)).1 keyBA oneByte :=
  (set_updatable_iff setAndFail {} keyBA oneByte oneByte set_second_ok (by decide)).mpr (by decide)

def longKey : CStr := ⟨List.replicate itemMaxKeyLen 97,by decide⟩

/-- The 96 characters are accepted, and the same set again takes a second slot. -/
theorem longKey_not_updatable :
    (mapfileKvSet {} (reached []) (some longKey) (some oneByte)).2 = .ok ∧
    ¬ Updatable (mapfileKvSet {} (reached []) (some longKey) (some oneByte)).1 longKey oneByte := by
  have hset := set_fresh_ok longKey (v:=oneByte) (by decide)
  refine ⟨hset,?_⟩
  obtain ⟨file,row,hafter,hlen,hterm,-⟩ := set_file hset
  rw [hafter]
  exact not_updatable_of_long (by decide) hlen hterm (by decide)

end MapfileLongKey
end IotBase
