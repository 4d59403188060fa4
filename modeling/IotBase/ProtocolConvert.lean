import IotBase.BlockHeap
import IotBase.MapfileStore

/-! The property lists of `protocol_convert.c`: insertion behind the head with its three
allocations, and the destructor. There is no result where a pointer that is not to an allocated
node is followed or a block is freed that is not allocated. -/
namespace IotBase
namespace ProtocolConvert
open RawBytes CString BlockHeap
open MapfileStore (toInt32)

inductive Ret
  | ok | fail
  deriving DecidableEq

def protocolMaxPropertyLen : ℤ := 30

/-- `property_entry_node_t`; `none` is NULL. -/
structure PropertyEntryNode where
  pCloudPropertyName : Option ℕ
  pRexDevicePropertyName : Option ℕ
  next : Option ℕ

inductive Block
  | node (n : PropertyEntryNode) | chars (b : Bytes)

abbrev Memory := Heap Block

def Block.node? : Block → Option PropertyEntryNode
  | .node n => some n
  | .chars _ => none

def nodeAt (m : Memory) (p : ℕ) : Option PropertyEntryNode := (m.block p).bind Block.node?

structure Context where
  lightPropertyListHead : Option ℕ
  environmentPropertyListHead : Option ℕ
  electricPowerPropertyListHead : Option ℕ
  securityPropertyListHead : Option ℕ
  miscPropertyListHead : Option ℕ

inductive PropertyList
  | light | environment | electricPower | security | misc
  deriving DecidableEq

def Context.head (c : Context) : PropertyList → Option ℕ
  | .light => c.lightPropertyListHead
  | .environment => c.environmentPropertyListHead
  | .electricPower => c.electricPowerPropertyListHead
  | .security => c.securityPropertyListHead
  | .misc => c.miscPropertyListHead

def Context.setHead (c : Context) (head : Option ℕ) : PropertyList → Context
  | .light => {c with lightPropertyListHead := head}
  | .environment => {c with environmentPropertyListHead := head}
  | .electricPower => {c with electricPowerPropertyListHead := head}
  | .security => {c with securityPropertyListHead := head}
  | .misc => {c with miscPropertyListHead := head}

/-- `protocol_init` up to the reading of the ini file. -/
def Context.init : Context := ⟨none,none,none,none,none⟩

structure MallocFaults where
  node : Bool := false
  cloud : Bool := false
  rex : Bool := false

/-- `malloc` of a block that is filled before it is read. -/
def malloc (fails : Bool) (m : Memory) (b : Block) : Memory × Option ℕ :=
  if fails then (m,none) else ((m.malloc b).1,some (m.malloc b).2)

def nameLen (name : CStr) : ℤ := toInt32 name.strlen

/-- The buffer of a name: `len+1` zero bytes, then `strncpy` of `len`. -/
def nameBuf (name : CStr) : Bytes :=
  strncpy (List.replicate ((nameLen name).toNat+1) 0) name (nameLen name).toNat

/-- `protocol_insert_list`; `listHead` is the value at `list_head`, or `none` where that is NULL. -/
def protocolInsertList (f : MallocFaults) (m : Memory) (listHead : Option (Option ℕ))
    (cloudPropertyName rexPropertyName : Option CStr) :
    Option (Memory × Option (Option ℕ) × Ret) :=
  match listHead,cloudPropertyName,rexPropertyName with
  | some head,some cloud,some rex =>
    if nameLen cloud > protocolMaxPropertyLen ∨ nameLen rex > protocolMaxPropertyLen then
      some (m,some head,.fail)
    else if nameLen cloud ≤ 0 ∨ nameLen rex ≤ 0 then some (m,some head,.fail)
    else
      match malloc f.node m (.node ⟨none,none,none⟩) with
      | (m,none) => some (m,some head,.fail)
      | (m,some node) =>
        match malloc f.cloud m (.chars (nameBuf cloud)) with
        | (m,none) => do
          let m ← m.free node
          some (m,some head,.fail)
        | (m,some cloudNameBuf) =>
          match malloc f.rex m (.chars (nameBuf rex)) with
          | (m,none) => do
            let m ← m.free node
            let m ← m.free cloudNameBuf
            some (m,some head,.fail)
          | (m,some rexNameBuf) => do
            let m ← m.store node (.node ⟨some cloudNameBuf,some rexNameBuf,none⟩)
            match head with
            | none => some (m,some (some node),.ok)
            | some first => do
              let n ← nodeAt m first
              let m ← m.store node (.node ⟨some cloudNameBuf,some rexNameBuf,n.next⟩)
              let m ← m.store first (.node {n with next := some node})
              some (m,some (some first),.ok)
  | _,_,_ => some (m,listHead,.fail)

inductive Name
  | cloud | rex

def PropertyEntryNode.name (n : PropertyEntryNode) : Name → Option ℕ
  | .cloud => n.pCloudPropertyName
  | .rex => n.pRexDevicePropertyName

def PropertyEntryNode.dropName (n : PropertyEntryNode) : Name → PropertyEntryNode
  | .cloud => {n with pCloudPropertyName := none}
  | .rex => {n with pRexDevicePropertyName := none}

def safeFreeName (m : Memory) (p : ℕ) (name : Name) : Option Memory := do
  let n ← nodeAt m p
  match n.name name with
  | none => some m
  | some q => do
    let m ← m.free q
    m.store p (.node (n.dropName name))

/-- The body of a loop of `protocol_destroy`: the memory and `next_node`. -/
def destroyNode (m : Memory) (p : ℕ) : Option (Memory × Option ℕ) := do
  let n ← nodeAt m p
  let m ← safeFreeName m p .cloud
  let m ← safeFreeName m p .rex
  let m ← m.free p
  some (m,n.next)

def destroyLoop : ℕ → Memory → Option ℕ → Option Memory
  | _, m, none => some m
  | 0, _, some _ => none
  | fuel+1, m, some p => do
    let r ← destroyNode m p
    destroyLoop fuel r.1 r.2

/-- `protocol_destroy`; `fuel` bounds the nodes of each list. -/
def protocolDestroy (fuel : ℕ) (m : Memory) (context : Option Context) :
    Option (Memory × Option Context) :=
  match context with
  | none => some (m,none)
  | some c => do
    let m ← destroyLoop fuel m c.lightPropertyListHead
    let c := {c with lightPropertyListHead := none}
    let m ← destroyLoop fuel m c.electricPowerPropertyListHead
    let c := {c with electricPowerPropertyListHead := none}
    let m ← destroyLoop fuel m c.environmentPropertyListHead
    let c := {c with environmentPropertyListHead := none}
    some (m,some c)

end ProtocolConvert
end IotBase
