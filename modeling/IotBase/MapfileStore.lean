import IotBase.MapfileItem

/-! The key-value store `mapfile.c`: a file of hash rows that every call reads
and rewrites in place. The file system's answers are arguments, so one
definition covers undisturbed calls and every failure. -/
namespace IotBase
namespace MapfileStore
open RawBytes CString MapfileItem

inductive Ret
  | ok | fail
  deriving DecidableEq

/-- The file that the handle's `filename` names, if it exists. -/
abbrev Disk := Option Bytes

/-- A value argument: the bytes readable at the pointer and the length passed with it. -/
structure Value where
  bytes : Bytes
  len : ℤ
  readable : len ≤ bytes.length

/-- Which calls of `read_kv_item` fail; `readFails` covers short reads too. -/
structure ReadFaults where
  openFails : Bool := false
  fstatFails : Bool := false
  lseekFails : Bool := false
  readFails : Bool := false

/-- What `write` does with a row: all of it, a first part of it, nothing. -/
inductive WriteResult
  | complete | short (n : ℕ) | error

/-- The return value of `write` for `len` bytes; `none` is `-1`. -/
def WriteResult.count (len : ℕ) : WriteResult → Option ℕ
  | .complete => some len
  | .short n => some (min n len)
  | .error => none

structure WriteFaults where
  openFails : Bool := false
  fstatFails : Bool := false
  lseekFails : Bool := false
  write : WriteResult := .complete
  fsyncFails : Bool := false

structure Faults where
  malloc : Bool := false
  read : ReadFaults := {}
  write : WriteFaults := {}

structure EmpFaults where
  fopenFails : Bool := false
  truncateFails : Bool := false
  fsyncFails : Bool := false

/-- Which calls of `mapfile_kv_open` fail; `access` may fail on a file that exists. -/
structure OpenFaults where
  accessFails : Bool := false
  openFails : Bool := false
  ftruncateFails : Bool := false
  fsyncFails : Bool := false

/-- `*key` promoted from a signed `char` and converted to `unsigned int`. -/
def charToUnsigned (c : UInt8) : UInt32 :=
  if c < 128 then c.toUInt32 else c.toUInt32+0xFFFFFF00

def hashGen (key : CStr) : ℕ :=
  (key.bytes.foldl (fun hash c => (hash <<< (5 : UInt32))+hash+charToUnsigned c) (0 : UInt32)).toNat %
    tableColSize

def rowOff (location : ℕ) : ℕ := location*itemMaxLen*tableRowSize

def rowAt (file : Bytes) (location : ℕ) : List KvItem :=
  decodeRow tableRowSize (slice file (rowOff location) rowLen)

def putRow (file : Bytes) (location : ℕ) (kv : List KvItem) : Bytes :=
  splice file (rowOff location) (encodeRow kv)

/-- `location` is a result of `hash_gen`, so none of the products wraps. -/
def readKvItem (f : ReadFaults) (disk : Disk) (location : ℕ) : Option (List KvItem) :=
  match disk with
  | none => none
  | some file =>
    if f.openFails then none
    else if f.fstatFails then none
    else if file.length < (location+1)*itemMaxLen*tableRowSize then none
    else if f.lseekFails then none
    else if f.readFails then none
    else some (rowAt file location)

/-- A short write has changed the file by the time the call fails; the result of
`fsync` is not looked at. -/
def writeKvItem (f : WriteFaults) (disk : Disk) (kv : List KvItem) (location : ℕ) : Disk × Ret :=
  match disk with
  | none => (none,.fail)
  | some file =>
    if f.openFails then (some file,.fail)
    else if f.fstatFails then (some file,.fail)
    else if file.length < (location+1)*itemMaxLen*tableRowSize then (some file,.fail)
    else if f.lseekFails then (some file,.fail)
    else
      let written := f.write.count rowLen
      (some (splice file (rowOff location) ((encodeRow kv).take (written.getD 0))),
        if written = some rowLen then .ok else .fail)

/-- `memcmp(p->key, key, strlen(key)) == 0` with `p` the first of the slots left in
the buffer, which ends in one more zero byte. -/
def keyMatches (slots : List KvItem) (key : CStr) : Bool :=
  key.bytes.isPrefixOf (encodeRow slots ++ [0])

def clampLen (value : Value) : ℕ :=
  (if value.len > itemMaxValLen then (itemMaxValLen : ℤ) else value.len).toNat

def updateItem (p : KvItem) (value : Value) : KvItem where
  key := p.key
  value := memcpy (memset p.value 0 itemMaxValLen) value.bytes (clampLen value)
  valueLen := BitVec.ofNat 32 (clampLen value)
  key_length := p.key_length
  value_length := by simp

/-- The key has not been stored: fill the free slot, over whatever bytes it holds. -/
def insertItem (p : KvItem) (key : CStr) (value : Value) : KvItem where
  key := strncpy p.key key (itemMaxKeyLen-1)
  value := memcpy p.value value.bytes (clampLen value)
  valueLen := BitVec.ofNat 32 (clampLen value)
  key_length := by simp
  value_length := by simp

/-- The loop of `hash_table_put` and the insertion after it, from slot `p` on;
`none` is the exit "hash row full". -/
def putLoop (key : CStr) (value : Value) : List KvItem → Option (List KvItem)
  | [] => none
  | p::rest =>
    if p.Live then
      if keyMatches (p::rest) key then some (updateItem p value::rest)
      else (putLoop key value rest).map (p::·)
    else some (insertItem p key value::rest)

/-- `hash_table_put` up to the call of `write_kv_item`: the row index and the row to write. -/
def hashTablePutRow (malloc : Bool) (f : ReadFaults) (disk : Disk) (key : Option CStr)
    (value : Option Value) : Option (ℕ × List KvItem) :=
  match key,value with
  | some key,some value =>
    if value.len ≤ 0 then none
    else if malloc then none
    else
      match readKvItem f disk (hashGen key) with
      | none => none
      | some kv => (putLoop key value kv).map fun kv => (hashGen key,kv)
  | _,_ => none

def hashTablePut (f : Faults) (disk : Disk) (key : Option CStr) (value : Option Value) :
    Disk × Ret :=
  match hashTablePutRow f.malloc f.read disk key value with
  | none => (disk,.fail)
  | some (i,kv) => writeKvItem f.write disk kv i

/-- `(size_t)n` on a 64-bit target. -/
def toSizeT (n : ℤ) : ℕ := (n % 2^64).toNat

theorem toSizeT_of_nonneg {n : ℤ} (h : 0 ≤ n) (hn : n < 2^64) : toSizeT n = n.toNat := by
  rw [toSizeT,Int.emod_eq_of_lt h hn]

/-- The new `*len` and the bytes of `memcpy(value, p->value, *len)`, which starts in
the value field and runs to the end of the buffer at most. -/
def copyOut (p : KvItem) (rest : List KvItem) (len : ℤ) : ℤ × Bytes :=
  let n := if p.valueLen.toInt < len then p.valueLen.toInt else len
  (n,(p.value ++ word32Bytes p.valueLen ++ encodeRow rest ++ [0]).take (toSizeT n))

def getLoop (key : CStr) (len : ℤ) : List KvItem → Option (ℤ × Bytes)
  | [] => none
  | p::rest =>
    if p.Live then
      if keyMatches (p::rest) key then some (copyOut p rest len)
      else getLoop key len rest
    else none

/-- `buf` is `*len`, or `none` where the buffer or the length pointer is NULL. The result
is `none` for `MAPFILE_FAIL`, else the new `*len` and the bytes copied out. -/
def hashTableGet (malloc : Bool) (f : ReadFaults) (disk : Disk) (key : Option CStr)
    (buf : Option ℤ) : Option (ℤ × Bytes) :=
  match key,buf with
  | some key,some len =>
    if len ≤ 0 then none
    else if malloc then none
    else
      match readKvItem f disk (hashGen key) with
      | none => none
      | some kv => getLoop key len kv
  | _,_ => none

/-- The loop of `hash_table_rm`: it goes on after a match. -/
def rmLoop (key : CStr) : List KvItem → List KvItem
  | [] => []
  | p::rest =>
    if p.Live then (if keyMatches (p::rest) key then zeroItem else p)::rmLoop key rest
    else p::rest

def hashTableRm (f : Faults) (disk : Disk) (key : Option CStr) : Disk × Ret :=
  match key with
  | none => (disk,.fail)
  | some key =>
    if f.malloc then (disk,.fail)
    else
      match readKvItem f.read disk (hashGen key) with
      | none => (disk,.fail)
      | some kv => writeKvItem f.write disk (rmLoop key kv) (hashGen key)

/-- `__kv_set`; its check is the one `hash_table_put` makes again. -/
def kvSet (f : Faults) (disk : Disk) (key : Option CStr) (value : Option Value) : Disk × Ret :=
  match key,value with
  | some key,some value =>
    if value.len ≤ 0 then (disk,.fail) else hashTablePut f disk (some key) (some value)
  | _,_ => (disk,.fail)

def kvGet (malloc : Bool) (f : ReadFaults) (disk : Disk) (key : Option CStr) (buf : Option ℤ) :
    Option (ℤ × Bytes) :=
  match key,buf with
  | some key,some len =>
    if len ≤ 0 then none else hashTableGet malloc f disk (some key) (some len)
  | _,_ => none

def kvDel (f : Faults) (disk : Disk) (key : Option CStr) : Disk × Ret :=
  match key with
  | none => (disk,.fail)
  | some key => hashTableRm f disk (some key)

def mapfileKvSet (f : Faults) (disk : Disk) (key : Option CStr) (value : Option Value) :
    Disk × Ret := kvSet f disk key value

def mapfileKvGet (malloc : Bool) (f : ReadFaults) (disk : Disk) (key : Option CStr)
    (buf : Option ℤ) : Option (ℤ × Bytes) := kvGet malloc f disk key buf

def mapfileKvDel (f : Faults) (disk : Disk) (key : Option CStr) : Disk × Ret := kvDel f disk key

/-- `fopen(.., "w")` has already emptied the file when `truncate` or `fsync` fails. -/
def mapfileKvEmp (f : EmpFaults) (disk : Disk) : Disk × Ret :=
  if f.fopenFails then (disk,.fail)
  else if f.truncateFails then (some [],.fail)
  else if f.fsyncFails then (some (List.replicate fileLen 0),.fail)
  else (some (List.replicate fileLen 0),.ok)

/-- `ftruncate` to the full size: cut or zero-extended. -/
def createHashFile (f : OpenFaults) (disk : Disk) : Disk × Ret :=
  if f.openFails then (disk,.fail)
  else if f.ftruncateFails then (some (disk.getD []),.fail)
  else if f.fsyncFails then (some (slice (disk.getD []) 0 fileLen),.fail)
  else (some (slice (disk.getD []) 0 fileLen),.ok)

/-- An existing file is opened whatever its size: a wrong size is only printed. -/
def mapfileKvOpen (f : OpenFaults) (disk : Disk) : Disk × Ret :=
  if disk.isNone ∨ f.accessFails then createHashFile f disk else (disk,.ok)

theorem mapfileKvOpen_none (f : OpenFaults) : mapfileKvOpen f none = createHashFile f none := rfl

/-- The widths of `size_t` on the gateways. -/
inductive Abi
  | ilp32 | lp64
  deriving DecidableEq

def Abi.sizeBits : Abi → ℕ
  | .ilp32 => 32
  | .lp64 => 64

def Abi.toSize (abi : Abi) (z : ℤ) : ℕ := (z % 2^abi.sizeBits).toNat

def toInt32 (z : ℤ) : ℤ := z.bmod (2^32)

theorem toInt32_range (z : ℤ) : -2^31 ≤ toInt32 z ∧ toInt32 z < 2^31 := by
  have hlow := Int.le_bmod (x:=z) (m:=2^32) (by decide)
  have hhigh := Int.bmod_lt (x:=z) (m:=2^32) (by decide)
  rw [toInt32]
  constructor <;> omega

theorem toInt32_eq {z : ℤ} (hz : 0 ≤ z) (hlt : z < 2^31) : toInt32 z = z := by
  have hmod : z % (2^32 : ℕ) = z := Int.emod_eq_of_lt hz (by omega)
  rw [toInt32,Int.bmod_eq_emod_of_lt (by rw [hmod]; omega),hmod]

theorem toInt32_of_nonneg {z : ℤ} (hz : 0 ≤ z) (hlt : z < 2^32) (h : 0 ≤ toInt32 z) :
    toInt32 z = z := by
  by_cases hsmall : z < 2^31
  · exact toInt32_eq hz hsmall
  · have hmod : z % (2^32 : ℕ) = z := Int.emod_eq_of_lt hz (by omega)
    rw [toInt32,Int.bmod_neg _ _ (by rw [hmod]; omega),hmod] at h
    omega

@[simp] theorem toInt32_toInt32 (z : ℤ) : toInt32 (toInt32 z) = toInt32 z := Int.bmod_bmod

@[simp] theorem toInt32_add_left (y z : ℤ) : toInt32 (toInt32 y+z) = toInt32 (y+z) := Int.bmod_add_bmod

@[simp] theorem toInt32_add_right (y z : ℤ) : toInt32 (y+toInt32 z) = toInt32 (y+z) := Int.add_bmod_bmod

theorem eq_zero_of_toInt32_add {y z : ℤ} (h : toInt32 (y+z) = y) (hlow : -2^31 ≤ z)
    (hhigh : z < 2^31) : z = 0 := by
  obtain ⟨k,hk⟩ := Int.dvd_self_sub_of_bmod_eq h
  push_cast at hk
  omega

/-- `location * ITEM_MAX_LEN * TABLE_ROW_SIZE` in `size_t` arithmetic. -/
def Abi.rowProduct (abi : Abi) (location : ℤ) : ℕ :=
  abi.toSize (abi.toSize (abi.toSize location*itemMaxLen)*tableRowSize)

/-- `read_kv_item_` on a descriptor of the file; `none` for the descriptor is `fd < 0`. -/
def readKvItem_ (abi : Abi) (f : ReadFaults) (fd : Option Bytes) (location : ℤ) : Option Bytes :=
  match fd with
  | none => none
  | some file =>
    let offset := toInt32 (abi.rowProduct location)
    if f.fstatFails then none
    else if file.length < abi.rowProduct (toInt32 (location+1)) then none
    else if f.lseekFails ∨ offset < 0 then none
    else if f.readFails ∨ file.length < offset.toNat+rowLen then none
    else some (slice file offset.toNat rowLen)

def mapfileKvItemGet (abi : Abi) (f : ReadFaults) (fd : Option Bytes) (location : ℤ) :
    Option Bytes := readKvItem_ abi f fd location

end MapfileStore
end IotBase
