import IotBase.OrderedTable
import IotBase.CString

/-! The sub-device table `subdev_address_hash.c`. Entries are heap cells and uthash
is the ordered list of the pointers it links, searched by exact key bytes. Each
function is cut where it takes the lock, so that its unlocked part and its
locked section can also be steps of a thread. -/
namespace IotBase
namespace SubdevTable
open RawBytes CString OrderedTable

def addressMaxLen : ℕ := 17

def hashAddrTypeNoFind : UInt16 := 65535

def cloudDeviceMatch : UInt8 := 1
def cloudDeviceNotMatch : UInt8 := 0

def retFail : ℤ := -1

/-- `hash_entry_t`; its `hh` is the entry's place in `Table.order`. -/
structure HashEntry where
  address : Bytes
  type : UInt16
  flag : UInt8

/-- The string in the address field, which `HASH_ADD_STR` makes the key. -/
def HashEntry.key (e : HashEntry) : CStr := ⟨fieldStr e.address,nul_notMem_fieldStr _⟩

/-- The allocated cells, by pointer, and the pointers `p_device_hash` links, in order. -/
structure Table where
  heap : ℕ → Option HashEntry
  order : List ℕ

def Table.empty : Table := ⟨fun _ => none,[]⟩

def Table.entries (t : Table) : List HashEntry := rows t.heap t.order

def Table.write (t : Table) (p : ℕ) (e : HashEntry) : Table :=
  {t with heap := Function.update t.heap p (some e)}

/-- `HASH_ADD_STR` puts an entry at the head of its bucket, so of equal keys the newest is found. -/
def hashFindStr (t : Table) (key : CStr) : Option ℕ :=
  findCell HashEntry.key key t.heap t.order.reverse

def hashAddStr (t : Table) (p : ℕ) : Table := {t with order := t.order++[p]}

def hashDel (t : Table) (p : ℕ) : Table := {t with order := t.order.erase p}

def free (t : Table) (p : ℕ) : Table := {t with heap := Function.update t.heap p none}

def typeAt (t : Table) (p : ℕ) : UInt16 := ((t.heap p).map HashEntry.type).getD 0

def setType (t : Table) (p : ℕ) (value : UInt16) : Table :=
  match t.heap p with
  | some e => t.write p {e with type := value}
  | none => t

def setFlag (t : Table) (p : ℕ) (flag : UInt8) : Table :=
  match t.heap p with
  | some e => t.write p {e with flag := flag}
  | none => t

/-- The cell that `subdev_address_hash_add` fills: cleared, at most 16 address bytes copied. -/
def newEntry (address : CStr) (value : UInt16) : HashEntry where
  address := strncpy (List.replicate addressMaxLen 0) address (addressMaxLen-1)
  type := value
  flag := 0

/-- What `subdev_address_hash_add` holds when it reaches the lock. -/
inductive AddPlan
  | mallocFailed | link (p : ℕ) | retype (p : ℕ)

/-- `subdev_address_hash_add` up to the lock; `malloc` is the pointer it gets. -/
def addLookup (t : Table) (address : CStr) (value : UInt16) (malloc : Option ℕ) :
    Table × AddPlan :=
  match hashFindStr t address with
  | none =>
    match malloc with
    | none => (t,.mallocFailed)
    | some p => (t.write p (newEntry address value),.link p)
  | some p => (t,.retype p)

/-- The rest of `subdev_address_hash_add`: no lock is taken after a failed `malloc`. -/
def addLocked (t : Table) (value : UInt16) (lockOk : Bool) : AddPlan → Table × ℤ
  | .mallocFailed => (t,-1)
  | .link p => if lockOk then (hashAddStr t p,0) else (t,-1)
  | .retype p => if lockOk then (setType t p value,0) else (t,-1)

def subdevAddressHashAdd (t : Table) (address : Option CStr) (value : UInt16)
    (malloc : Option ℕ) (lockOk : Bool) : Table × ℤ :=
  match address with
  | none => (t,-1)
  | some address =>
    let r := addLookup t address value malloc
    addLocked r.1 value lockOk r.2

def subdevAddressHashFind (t : Table) (key : Option CStr) (lockOk : Bool) : UInt16 :=
  match key with
  | none => hashAddrTypeNoFind
  | some key =>
    if lockOk then
      match hashFindStr t key with
      | none => hashAddrTypeNoFind
      | some p => typeAt t p
    else hashAddrTypeNoFind

def subdevAddressHashDelete (t : Table) (key : Option CStr) (lockOk : Bool) : Table × ℤ :=
  match key with
  | none => (t,-1)
  | some key =>
    match hashFindStr t key with
    | none => (t,-1)
    | some p => if lockOk then (free (hashDel t p) p,0) else (t,-1)

/-- The `HASH_ITER` of `subdev_address_hash_delete_all`, which has read the next
pointer before it frees one. -/
def deleteAllLoop : List ℕ → Table → Table
  | [], t => t
  | p::ps, t => deleteAllLoop ps (free (hashDel t p) p)

def subdevAddressHashDeleteAll (t : Table) (lockOk : Bool) : Table :=
  if lockOk then deleteAllLoop t.order t else t

def subdevAddressHashFindEx (t : Table) (key : Option CStr) (lockOk : Bool) : Table × UInt16 :=
  match key with
  | none => (t,hashAddrTypeNoFind)
  | some key =>
    if lockOk then
      match hashFindStr t key with
      | none => (t,hashAddrTypeNoFind)
      | some p => (setFlag t p cloudDeviceMatch,typeAt t p)
    else (t,hashAddrTypeNoFind)

/-- The `HASH_ITER` of `subdev_address_hash_iterator`, with the strings handed to
the callback. -/
def iteratorLoop : List ℕ → Table → Table × List CStr
  | [], t => (t,[])
  | p::ps, t =>
    match t.heap p with
    | none => iteratorLoop ps t
    | some e =>
      if e.flag = cloudDeviceMatch then iteratorLoop ps (setFlag t p cloudDeviceNotMatch)
      else
        let r := iteratorLoop ps t
        (r.1,e.key::r.2)

def subdevAddressHashIterator (t : Table) (lockOk : Bool) : Table × List CStr :=
  if lockOk then iteratorLoop t.order t else (t,[])

/-- The `HASH_ITER` of `subdev_address_hash_get_keys` over the caller's rows `list`. -/
def getKeysLoop (t : Table) (type : UInt16) (rows : ℤ) :
    List ℕ → (ℕ → Bytes) → ℕ → (ℕ → Bytes) × ℕ
  | [], list, i => (list,i)
  | p::ps, list, i =>
    match t.heap p with
    | none => getKeysLoop t type rows ps list i
    | some e =>
      if e.type = type then
        let list := Function.update list i (strncpy (list i) e.key (addressMaxLen-1))
        if ((i+1 : ℕ) : ℤ) = rows then (list,i+1) else getKeysLoop t type rows ps list (i+1)
      else getKeysLoop t type rows ps list i

def subdevAddressHashGetKeys (t : Table) (type : UInt16) (list : ℕ → Bytes) (rows : ℤ)
    (lockOk : Bool) : (ℕ → Bytes) × ℤ :=
  if lockOk then
    let r := getKeysLoop t type rows t.order list 0
    (r.1,r.2)
  else (list,retFail)

@[simp] theorem write_order (t : Table) (p : ℕ) (e : HashEntry) : (t.write p e).order = t.order := rfl
@[simp] theorem write_heap (t : Table) (p : ℕ) (e : HashEntry) :
    (t.write p e).heap = Function.update t.heap p (some e) := rfl
@[simp] theorem free_order (t : Table) (p : ℕ) : (free t p).order = t.order := rfl

theorem newEntry_key {address : CStr} (value : UInt16) (h : address.strlen < addressMaxLen) :
    (newEntry address value).key = address := by
  have hc : strncpy (List.replicate addressMaxLen 0) address (addressMaxLen-1) =
      address.bytes ++ List.replicate (addressMaxLen-address.strlen) 0 :=
    strncpy_replicate (Nat.le_sub_one_of_lt h) (by decide)
  refine CStr.ext_bytes ?_
  rw [HashEntry.key,newEntry,hc]
  exact fieldStr_append_replicate _ address.nul_free

end SubdevTable
end IotBase
