import IotBase.DoubleLinks
import IotBase.CString

/-! The hash table macros of `uthash.h`, for elements whose key is the string in one of their
fields. An element and its handle are one pointer, and so are the table and `head->hh.tbl`. There
is no result where a pointer to nothing is followed, an index lies outside the bucket array, or a
loop goes on past `fuel` elements. -/
namespace IotBase
namespace UtHash
open RawBytes CString DoubleLinks

def hashInitialNumBuckets : UInt32 := 32
def hashInitialNumBucketsLog2 : UInt32 := 5
def hashBktCapacityThresh : UInt32 := 10

def sizeofBucket : ℕ := 16
def sizeofTable : ℕ := 64

/-- `UT_hash_handle`; its `key` is the string of the element's own key field. -/
structure HashHandle where
  prev : Option ℕ
  next : Option ℕ
  hhPrev : Option ℕ
  hhNext : Option ℕ
  keylen : UInt32
  hashv : UInt32

structure Element (E : Type) where
  val : E
  hh : HashHandle

structure HashBucket where
  hhHead : Option ℕ
  count : UInt32
  expandMult : UInt32

structure HashTable where
  buckets : List HashBucket
  numBuckets : UInt32
  log2NumBuckets : UInt32
  numItems : UInt32
  tail : ℕ
  idealChainMaxlen : UInt32
  nonidealItems : UInt32
  ineffExpands : UInt32
  noexpand : UInt32

/-- The allocated elements, the variable that heads the table, and the table. -/
structure State (E : Type) where
  mem : ℕ → Option (Element E)
  head : Option ℕ
  tbl : Option HashTable

/-- What a macro does that allocates: `uthash_fatal` ends the process. -/
inductive Outcome (α : Type)
  | exit
  | done (a : α)

variable {E : Type}

def appLinks (E : Type) : Links ℕ (Element E) where
  prev c := c.hh.prev
  next c := c.hh.next
  setPrev v c := {c with hh := {c.hh with prev := v}}
  setNext v c := {c with hh := {c.hh with next := v}}
  erase c := {c with hh := {c.hh with prev := none, next := none}}
  prev_setPrev _ _ := rfl
  next_setPrev _ _ := rfl
  prev_setNext _ _ := rfl
  next_setNext _ _ := rfl
  erase_setPrev _ _ := rfl
  erase_setNext _ _ := rfl

def bktLinks (E : Type) : Links ℕ (Element E) where
  prev c := c.hh.hhPrev
  next c := c.hh.hhNext
  setPrev v c := {c with hh := {c.hh with hhPrev := v}}
  setNext v c := {c with hh := {c.hh with hhNext := v}}
  erase c := {c with hh := {c.hh with hhPrev := none, hhNext := none}}
  prev_setPrev _ _ := rfl
  next_setPrev _ _ := rfl
  prev_setNext _ _ := rfl
  next_setNext _ _ := rfl
  erase_setPrev _ _ := rfl
  erase_setNext _ _ := rfl

def hashToBkt (hashv numBkts : UInt32) : ℕ := (hashv &&& (numBkts-1)).toNat

section Jenkins

def hashJenMix (a b c : UInt32) : UInt32 × UInt32 × UInt32 :=
  let a := (a-b-c) ^^^ (c >>> 13)
  let b := (b-c-a) ^^^ (a <<< 8)
  let c := (c-a-b) ^^^ (b >>> 13)
  let a := (a-b-c) ^^^ (c >>> 12)
  let b := (b-c-a) ^^^ (a <<< 16)
  let c := (c-a-b) ^^^ (b >>> 5)
  let a := (a-b-c) ^^^ (c >>> 3)
  let b := (b-c-a) ^^^ (a <<< 10)
  let c := (c-a-b) ^^^ (b >>> 15)
  (a,b,c)

def jenWord (b₀ b₁ b₂ b₃ : UInt8) : UInt32 :=
  b₀.toUInt32 + (b₁.toUInt32 <<< 8) + (b₂.toUInt32 <<< 16) + (b₃.toUInt32 <<< 24)

/-- The loop over blocks of 12 bytes, with the bytes that are left. -/
def hashJenLoop : Bytes → UInt32 → UInt32 → UInt32 → Bytes × UInt32 × UInt32 × UInt32
  | b₀::b₁::b₂::b₃::b₄::b₅::b₆::b₇::b₈::b₉::b₁₀::b₁₁::rest, i, j, hashv =>
    let (i,j,hashv) := hashJenMix (i+jenWord b₀ b₁ b₂ b₃) (j+jenWord b₄ b₅ b₆ b₇)
      (hashv+jenWord b₈ b₉ b₁₀ b₁₁)
    hashJenLoop rest i j hashv
  | rest, i, j, hashv => (rest,i,j,hashv)

/-- `HASH_JEN`. The cases of its `switch` fall through: a byte that is not there adds nothing. -/
def hashJen (key : Bytes) : UInt32 :=
  let (rest,i,j,hashv) := hashJenLoop key 0x9e3779b9 0x9e3779b9 0xfeedbeef
  let byte := fun k => (rest.getD k 0).toUInt32
  let hashv := hashv + UInt32.ofNat key.length
  let hashv := hashv + (byte 10 <<< 24) + (byte 9 <<< 16) + (byte 8 <<< 8)
  let j := j + (byte 7 <<< 24) + (byte 6 <<< 16) + (byte 5 <<< 8) + byte 4
  let i := i + (byte 3 <<< 24) + (byte 2 <<< 16) + (byte 1 <<< 8) + byte 0
  (hashJenMix i j hashv).2.2

end Jenkins

section Find
variable (field : E → Bytes)

def keyOf (e : E) : Bytes := fieldStr (field e)

def hashFindInBkt (mem : ℕ → Option (Element E)) (key : Bytes) (keylen hashval : UInt32) :
    ℕ → Option ℕ → Option (Option ℕ)
  | _, none => some none
  | 0, some _ => none
  | fuel+1, some out => do
    let c ← mem out
    if c.hh.hashv = hashval ∧ c.hh.keylen = keylen ∧
        (field c.val).take keylen.toNat = key.take keylen.toNat then
      some (some out)
    else hashFindInBkt mem key keylen hashval fuel c.hh.hhNext

def State.headTbl (s : State E) : Option HashTable := do
  let h ← s.head
  let _ ← s.mem h
  s.tbl

/-- `HASH_FIND_STR`: the length of the string is an `unsigned`. -/
def hashFindStr (fuel : ℕ) (s : State E) (findstr : CStr) : Option (Option ℕ) :=
  let keylen := UInt32.ofNat findstr.strlen
  match s.head with
  | none => some none
  | some _ => do
    let hashv := hashJen (findstr.bytes.take keylen.toNat)
    let t ← s.headTbl
    let b ← t.buckets[hashToBkt hashv t.numBuckets]?
    hashFindInBkt field s.mem findstr.bytes keylen hashv fuel b.hhHead

end Find

section Add

/-- What the loop of `HASH_EXPAND_BUCKETS` changes: the handles, the new buckets and
`nonideal_items`. -/
structure Move (E : Type) where
  mem : ℕ → Option (Element E)
  newBuckets : List HashBucket
  nonidealItems : UInt32

/-- The `count` and `expand_mult` of a new bucket that an element joins, with `nonideal_items`. -/
def joinCounts (idealChainMaxlen nonidealItems : UInt32) (b : HashBucket) :
    UInt32 × UInt32 × UInt32 :=
  let count := b.count+1
  if count > idealChainMaxlen then
    (count,if count > b.expandMult*idealChainMaxlen then b.expandMult+1 else b.expandMult,
      nonidealItems+1)
  else (count,b.expandMult,nonidealItems)

/-- The `while` loop of `HASH_EXPAND_BUCKETS` over the elements of one old bucket. -/
def moveChain (idealChainMaxlen numBuckets : UInt32) :
    ℕ → Option ℕ → Move E → Option (Move E)
  | _, none, m => some m
  | 0, some _, _ => none
  | fuel+1, some thh, m => do
    let c ← m.mem thh
    let nxt := c.hh.hhNext
    let bkt := hashToBkt c.hh.hashv numBuckets
    let b ← m.newBuckets[bkt]?
    let (count,expandMult,nonidealItems) := joinCounts idealChainMaxlen m.nonidealItems b
    let mem ← pushFront (bktLinks E) m.mem thh b.hhHead
    moveChain idealChainMaxlen numBuckets fuel nxt
      ⟨mem,m.newBuckets.set bkt ⟨some thh,count,expandMult⟩,nonidealItems⟩

def moveBuckets (fuel : ℕ) (idealChainMaxlen numBuckets : UInt32) :
    List HashBucket → Move E → Option (Move E)
  | [], m => some m
  | b::bs, m => do
    let m ← moveChain idealChainMaxlen numBuckets fuel b.hhHead m
    moveBuckets fuel idealChainMaxlen numBuckets bs m

def zeroBuckets (n : UInt32) : List HashBucket := List.replicate n.toNat ⟨none,0,0⟩

def idealChain (t : HashTable) : UInt32 :=
  (t.numItems >>> (t.log2NumBuckets+1)) +
    (if t.numItems &&& (t.numBuckets*2-1) ≠ 0 then 1 else 0)

/-- The table with its new buckets; two doublings in a row that do not help are the last. -/
def expandedTable (t : HashTable) (m : Move E) : HashTable :=
  let ineffExpands := if m.nonidealItems > t.numItems >>> 1 then t.ineffExpands+1 else 0
  {t with
    buckets := m.newBuckets
    numBuckets := t.numBuckets*2
    log2NumBuckets := t.log2NumBuckets+1
    idealChainMaxlen := idealChain t
    nonidealItems := m.nonidealItems
    ineffExpands := ineffExpands
    noexpand := if ineffExpands > 1 then 1 else t.noexpand}

/-- `HASH_EXPAND_BUCKETS`; `malloc` tells which sizes can be had. -/
def hashExpandBuckets (malloc : ℕ → Bool) (fuel : ℕ) (mem : ℕ → Option (Element E))
    (t : HashTable) : Option (Outcome ((ℕ → Option (Element E)) × HashTable)) :=
  if malloc (sizeofBucket*t.numBuckets.toNat*2) then do
    let m ← moveBuckets fuel (idealChain t) (t.numBuckets*2) t.buckets
      ⟨mem,zeroBuckets (t.numBuckets*2),0⟩
    some (.done (m.mem,expandedTable t m))
  else some .exit

def hashAddToBkt (malloc : ℕ → Bool) (fuel : ℕ) (mem : ℕ → Option (Element E)) (t : HashTable)
    (bkt add : ℕ) : Option (Outcome ((ℕ → Option (Element E)) × HashTable)) := do
  let b ← t.buckets[bkt]?
  let mem ← pushFront (bktLinks E) mem add b.hhHead
  let t := {t with buckets := t.buckets.set bkt ⟨some add,b.count+1,b.expandMult⟩}
  if (b.expandMult+1)*hashBktCapacityThresh ≤ b.count+1 ∧ t.noexpand = 0 then
    hashExpandBuckets malloc fuel mem t
  else some (.done (mem,t))

/-- `HASH_MAKE_TABLE`, for the first element. -/
def hashMakeTable (malloc : ℕ → Bool) (add : ℕ) : Outcome HashTable :=
  if malloc sizeofTable then
    if malloc (sizeofBucket*hashInitialNumBuckets.toNat) then
      .done
        { buckets := zeroBuckets hashInitialNumBuckets
          numBuckets := hashInitialNumBuckets
          log2NumBuckets := hashInitialNumBucketsLog2
          numItems := 0
          tail := add
          idealChainMaxlen := 0
          nonidealItems := 0
          ineffExpands := 0
          noexpand := 0 }
    else .exit
  else .exit

def hashAddToTable (malloc : ℕ → Bool) (fuel : ℕ) (s : State E) (hashv : UInt32) (add : ℕ) :
    Option (Outcome (State E)) := do
  let t ← s.headTbl
  let t := {t with numItems := t.numItems+1}
  match ← hashAddToBkt malloc fuel s.mem t (hashToBkt hashv t.numBuckets) add with
  | .exit => some .exit
  | .done (mem,t) => some (.done {s with mem := mem, tbl := some t})

def hashAddStr (field : E → Bytes) (malloc : ℕ → Bool) (fuel : ℕ) (s : State E) (add : ℕ) :
    Option (Outcome (State E)) := do
  let c ← s.mem add
  let keylen := UInt32.ofNat (keyOf field c.val).length
  let hashv := hashJen ((field c.val).take keylen.toNat)
  let mem ← change s.mem add fun c => {c with hh := {c.hh with hashv := hashv, keylen := keylen}}
  match s.head with
  | none =>
    let mem ← change mem add fun c => {c with hh := {c.hh with next := none, prev := none}}
    match hashMakeTable malloc add with
    | .exit => some .exit
    | .done t => hashAddToTable malloc fuel ⟨mem,some add,some t⟩ hashv add
  | some _ =>
    let t ← State.headTbl {s with mem := mem}
    let mem ← append (appLinks E) mem add t.tail
    hashAddToTable malloc fuel {s with mem := mem, tbl := some {t with tail := add}} hashv add

end Add

/-- `HASH_DEL`: with its last element the table is freed. -/
def hashDel (s : State E) (p : ℕ) : Option (State E) := do
  let c ← s.mem p
  let t ← s.headTbl
  if c.hh.prev = none ∧ c.hh.next = none then some {s with head := none, tbl := none}
  else
    let tail ← (if p = t.tail then c.hh.prev else some t.tail : Option ℕ)
    let head := if c.hh.prev ≠ none then s.head else c.hh.next
    let mem ← unlink (appLinks E) s.mem p
    let t ← State.headTbl ⟨mem,head,some {t with tail := tail}⟩
    let bkt := hashToBkt c.hh.hashv t.numBuckets
    let b ← t.buckets[bkt]?
    let b := {b with count := b.count-1, hhHead := if b.hhHead = some p then c.hh.hhNext else b.hhHead}
    let mem ← unlink (bktLinks E) mem p
    some ⟨mem,head,some {t with buckets := t.buckets.set bkt b, numItems := t.numItems-1}⟩

section Check

/-- The inner loops of `HASH_FSCK`: the elements of one list, each of which points back to the one
before it, are counted. `HASH_OOPS` ends the process. -/
def fsckWalk (L : Links ℕ (Element E)) (mem : ℕ → Option (Element E)) :
    ℕ → Option ℕ → Option ℕ → UInt32 → Option (Outcome UInt32)
  | _, none, _, count => some (.done count)
  | 0, some _, _, _ => none
  | fuel+1, some thh, prev, count => do
    let c ← mem thh
    if prev = L.prev c then fsckWalk L mem fuel (L.next c) (some thh) (count+1) else some .exit

def fsckBuckets (fuel : ℕ) (mem : ℕ → Option (Element E)) :
    List HashBucket → UInt32 → Option (Outcome UInt32)
  | [], count => some (.done count)
  | b::bs, count => do
    match ← fsckWalk (bktLinks E) mem fuel b.hhHead none 0 with
    | .exit => some .exit
    | .done bktCount =>
      if b.count = bktCount then fsckBuckets fuel mem bs (count+bktCount) else some .exit

/-- `HASH_FSCK`, which checks every addition and deletion when `HASH_DEBUG` is defined. -/
def hashFsck (fuel : ℕ) (s : State E) : Option (Outcome Unit) :=
  match s.head with
  | none => some (.done ())
  | some _ => do
    let t ← s.headTbl
    match ← fsckBuckets fuel s.mem t.buckets 0 with
    | .exit => some .exit
    | .done count =>
      if count = t.numItems then
        match ← fsckWalk (appLinks E) s.mem fuel s.head none 0 with
        | .exit => some .exit
        | .done count => some (if count = t.numItems then .done () else .exit)
      else some .exit

end Check

section Iter

/-- `(tmp!=NULL)?(tmp)->hh.next:NULL`. -/
def nextOf (mem : ℕ → Option (Element E)) : Option ℕ → Option (Option ℕ)
  | none => some none
  | some p => (mem p).map fun c => c.hh.next

inductive Control (S : Type)
  | next (s : S)
  | stop (s : S)

variable {S : Type} (mem : S → ℕ → Option (Element E)) (body : S → ℕ → Option (Control S))

/-- `HASH_ITER` from element `el` on, with `tmp` the one to go on with. -/
def hashIterLoop : ℕ → S → Option ℕ → Option ℕ → Option S
  | _, s, none, _ => some s
  | 0, _, some _, _ => none
  | fuel+1, s, some el, tmp => do
    match ← body s el with
    | .stop s => some s
    | .next s =>
      let tmp' ← nextOf (mem s) tmp
      hashIterLoop fuel s tmp tmp'

def hashIter (fuel : ℕ) (s : S) (head : Option ℕ) : Option S := do
  let tmp ← nextOf (mem s) head
  hashIterLoop mem body fuel s head tmp

end Iter

end UtHash
end IotBase
