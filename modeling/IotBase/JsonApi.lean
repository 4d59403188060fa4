import IotBase.MapfileStore

/-! Reading a nested string of a JSON document. The tree is the one that the parser builds:
an item has a name where it is a member of an object, and a `valuestring` where it is a string. -/
namespace IotBase
namespace JsonApi
open RawBytes CString
open MapfileStore (toSizeT toSizeT_of_nonneg)

inductive Ret
  | ok | fail
  deriving DecidableEq

inductive ItemType
  | invalid | false | true | null | number | string (valuestring : CStr) | array | object | raw
  deriving DecidableEq

/-- `cJSON`: the name is `none` where `string` is NULL, and `next` and `prev` are the order of
the children. -/
inductive CJson
  | item (name : Option CStr) (type : ItemType) (child : List CJson)

namespace CJson

def name : CJson → Option CStr
  | item name _ _ => name

def type : CJson → ItemType
  | item _ type _ => type

def child : CJson → List CJson
  | item _ _ child => child

def valuestring (j : CJson) : Option CStr :=
  match j.type with
  | .string s => some s
  | _ => none

end CJson

def tolower (c : UInt8) : UInt8 := if 65 ≤ c ∧ c ≤ 90 then c+32 else c

def sameName (s t : CStr) : Bool := decide (s.bytes.map tolower = t.bytes.map tolower)

def firstNamed (object : CJson) (string : CStr) : Option CJson :=
  object.child.find? fun j => j.name.any (sameName string)

/-- What `cJSON_GetObjectItem` is documented to return. -/
def GetsFirst (cJSONGetObjectItem : CJson → CStr → Option CJson) : Prop :=
  ∀ object string, cJSONGetObjectItem object string = firstNamed object string

section Model
variable (cJSONGetObjectItem : CJson → CStr → Option CJson)

/-- `json_get_sub_value`: the number of bytes that each write puts at the start of `value_buf`,
and the result, which is `none` where `strncpy` is given a NULL `valuestring`. -/
def jsonGetSubValue (jsonRoot : Option CJson) (key subKey : Option CStr) (valueBuf : Option Bytes)
    (size : BitVec 32) : List ℕ × Option (Ret × Option Bytes) :=
  match jsonRoot,key,subKey,valueBuf with
  | some jsonRoot,some key,some subKey,some buf =>
    if subKey.strlen = 0 then ([],some (.fail,some buf))
    else
      let cleared := toSizeT size.toInt
      let buf := memset buf 0 cleared
      match cJSONGetObjectItem jsonRoot key with
      | some targetObject =>
        match cJSONGetObjectItem targetObject subKey with
        | some subKeyObject =>
          let copied := toSizeT (size-1).toInt
          match subKeyObject.valuestring with
          | some s => ([cleared,copied],some (.ok,some (strncpy buf s copied)))
          | none => ([cleared],none)
        | none => ([cleared],some (.fail,some buf))
      | none => ([cleared],some (.fail,some buf))
  | _,_,_,_ => ([],some (.fail,valueBuf))

def subItem (jsonRoot : CJson) (key subKey : CStr) : Option CJson :=
  (firstNamed jsonRoot key).bind fun target => firstNamed target subKey

/-- What reading `root[key][sub_key]` into a buffer of `size` bytes promises: a call that is
defined, that writes inside the buffer and that succeeds on exactly the strings, which it
leaves terminated and cut where they do not fit. -/
structure SubValueSafe (jsonRoot : CJson) (key subKey : CStr) (buf : Bytes) (size : BitVec 32) :
    Prop where
  defined : (jsonGetSubValue cJSONGetObjectItem (some jsonRoot) (some key) (some subKey) (some buf)
    size).2 ≠ none
  inside : ∀ n ∈ (jsonGetSubValue cJSONGetObjectItem (some jsonRoot) (some key) (some subKey) (some buf)
    size).1, n ≤ size.toInt.toNat
  ok_iff : (∃ b, (jsonGetSubValue cJSONGetObjectItem (some jsonRoot) (some key) (some subKey) (some buf)
    size).2 = some (.ok,b)) ↔
      subKey.strlen ≠ 0 ∧ ∃ j s, subItem jsonRoot key subKey = some j ∧ j.type = .string s
  value : ∀ b j s, (jsonGetSubValue cJSONGetObjectItem (some jsonRoot) (some key) (some subKey) (some buf)
    size).2 = some (.ok,some b) → subItem jsonRoot key subKey = some j → j.type = .string s →
    s.bytes.take (size.toInt-1).toNat ++ [0] <+: b

end Model

theorem valuestring_eq_some {j : CJson} {s : CStr} : j.valuestring = some s ↔ j.type = .string s := by
  rw [CJson.valuestring]
  cases j.type <;> simp

section sizes
variable {size : BitVec 32}

theorem toSizeT_le_iff : toSizeT size.toInt ≤ size.toInt.toNat ↔ 0 ≤ size.toInt := by
  have hlo : -2^31 ≤ size.toInt := BitVec.le_toInt size
  rw [toSizeT]
  omega

theorem toInt_pred (h : 0 ≤ size.toInt) : (size-1).toInt = size.toInt-1 := by
  have hhi : size.toInt < 2^31 := BitVec.toInt_lt
  have hone : (1 : BitVec 32).toInt = 1 := rfl
  rw [BitVec.toInt_sub,hone]
  apply Int.bmod_eq_of_le
  · omega
  · omega

theorem toSizeT_pred_le_iff (h : 0 ≤ size.toInt) :
    toSizeT (size-1).toInt ≤ size.toInt.toNat ↔ 1 ≤ size.toInt := by
  have hhi : size.toInt < 2^31 := BitVec.toInt_lt
  rw [toInt_pred h,toSizeT]
  omega

end sizes

section calls
variable {cJSONGetObjectItem : CJson → CStr → Option CJson} {jsonRoot : CJson} {key subKey : CStr}
  (buf : Bytes) (size : BitVec 32)

theorem call_empty (h : subKey.strlen = 0) :
    jsonGetSubValue cJSONGetObjectItem (some jsonRoot) (some key) (some subKey) (some buf) size =
      ([],some (.fail,some buf)) := by
  simp only [jsonGetSubValue,h,if_true]

theorem call_missing (hget : GetsFirst cJSONGetObjectItem) (h : subKey.strlen ≠ 0)
    (hj : subItem jsonRoot key subKey = none) :
    jsonGetSubValue cJSONGetObjectItem (some jsonRoot) (some key) (some subKey) (some buf) size =
      ([toSizeT size.toInt],some (.fail,some (memset buf 0 (toSizeT size.toInt)))) := by
  obtain rfl : cJSONGetObjectItem = firstNamed := funext₂ hget
  simp only [jsonGetSubValue,h,if_false]
  cases htarget : firstNamed jsonRoot key with
  | none => rfl
  | some target =>
    rw [subItem,htarget,Option.bind_some] at hj
    simp only [hj]

theorem call_found (hget : GetsFirst cJSONGetObjectItem) (h : subKey.strlen ≠ 0) {j : CJson}
    (hj : subItem jsonRoot key subKey = some j) :
    jsonGetSubValue cJSONGetObjectItem (some jsonRoot) (some key) (some subKey) (some buf) size =
      match j.valuestring with
      | some s => ([toSizeT size.toInt,toSizeT (size-1).toInt],
          some (.ok,some (strncpy (memset buf 0 (toSizeT size.toInt)) s (toSizeT (size-1).toInt))))
      | none => ([toSizeT size.toInt],none) := by
  obtain rfl : cJSONGetObjectItem = firstNamed := funext₂ hget
  obtain ⟨target,htarget,hsub⟩ := Option.bind_eq_some_iff.mp hj
  simp only [jsonGetSubValue,h,if_false,htarget,hsub]

end calls

section safe
variable {cJSONGetObjectItem : CJson → CStr → Option CJson} {jsonRoot : CJson} {key subKey : CStr}
  {buf : Bytes} {size : BitVec 32} {j : CJson} {s : CStr}

theorem safe_empty (h : subKey.strlen = 0) :
    SubValueSafe cJSONGetObjectItem jsonRoot key subKey buf size where
  defined := by simp [call_empty buf size h]
  inside := by simp [call_empty buf size h]
  ok_iff := by simp [call_empty buf size h,h]
  value := by simp [call_empty buf size h]

theorem safe_missing (hget : GetsFirst cJSONGetObjectItem) (h : subKey.strlen ≠ 0)
    (hj : subItem jsonRoot key subKey = none) (hsize : 0 ≤ size.toInt) :
    SubValueSafe cJSONGetObjectItem jsonRoot key subKey buf size where
  defined := by simp [call_missing buf size hget h hj]
  inside := by
    rw [call_missing buf size hget h hj]
    simpa using toSizeT_le_iff.mpr hsize
  ok_iff := by simp [call_missing buf size hget h hj,hj]
  value := by simp [call_missing buf size hget h hj]

theorem call_string (hget : GetsFirst cJSONGetObjectItem) (h : subKey.strlen ≠ 0)
    (hj : subItem jsonRoot key subKey = some j) (hs : j.type = .string s) (hsize : 1 ≤ size.toInt) :
    jsonGetSubValue cJSONGetObjectItem (some jsonRoot) (some key) (some subKey) (some buf) size =
      ([size.toInt.toNat,(size.toInt-1).toNat],
        some (.ok,some (strncpy (memset buf 0 size.toInt.toNat) s (size.toInt-1).toNat))) := by
  have hhi : size.toInt < 2^31 := BitVec.toInt_lt
  rw [call_found buf size hget h hj,valuestring_eq_some.mpr hs,toInt_pred (by omega),
    toSizeT_of_nonneg (by omega) (by omega),toSizeT_of_nonneg (by omega) (by omega)]

theorem safe_string (hget : GetsFirst cJSONGetObjectItem) (h : subKey.strlen ≠ 0)
    (hj : subItem jsonRoot key subKey = some j) (hs : j.type = .string s) (hsize : 1 ≤ size.toInt)
    (hbuf : size.toInt ≤ buf.length) :
    SubValueSafe cJSONGetObjectItem jsonRoot key subKey buf size where
  defined := by simp [call_string hget h hj hs hsize]
  inside := by
    rw [call_string hget h hj hs hsize]
    simp
  ok_iff := by simp [call_string hget h hj hs hsize,h,hj,hs]
  value := by
    intro b i t hb hi ht
    rw [call_string hget h hj hs hsize] at hb
    obtain rfl : j = i := Option.some.inj (hj.symm.trans hi)
    obtain rfl : s = t := by simpa [hs] using ht
    obtain rfl : strncpy (memset buf 0 size.toInt.toNat) s (size.toInt-1).toNat = b := by simpa using hb
    apply strncpy_terminated
    exact getElem?_memset 0 (by omega) (by omega)

theorem SubValueSafe.size_nonneg (hget : GetsFirst cJSONGetObjectItem)
    (h : SubValueSafe cJSONGetObjectItem jsonRoot key subKey buf size)
    (hne : subKey.strlen ≠ 0) : 0 ≤ size.toInt := by
  apply toSizeT_le_iff.mp
  apply h.inside
  cases hj : subItem jsonRoot key subKey with
  | none => simp [call_missing buf size hget hne hj]
  | some j =>
    rw [call_found buf size hget hne hj]
    cases j.valuestring <;> simp

theorem SubValueSafe.string (hget : GetsFirst cJSONGetObjectItem)
    (h : SubValueSafe cJSONGetObjectItem jsonRoot key subKey buf size)
    (hne : subKey.strlen ≠ 0) (hj : subItem jsonRoot key subKey = some j) :
    1 ≤ size.toInt ∧ ∃ s, j.type = .string s := by
  have hcall := call_found buf size hget hne hj
  cases hs : j.valuestring with
  | none =>
    rw [hs] at hcall
    exact absurd (congrArg Prod.snd hcall) h.defined
  | some s =>
    rw [hs] at hcall
    have hcopied := h.inside (toSizeT (size-1).toInt) (by rw [hcall]; simp)
    exact ⟨(toSizeT_pred_le_iff (h.size_nonneg hget hne)).mp hcopied,s,valuestring_eq_some.mp hs⟩

end safe

/-- Where the call reaches the document, the size is not negative and an item that is found is
a string with room for a byte at least. -/
def Readable (jsonRoot : CJson) (key subKey : CStr) (size : BitVec 32) : Prop :=
  subKey.strlen ≠ 0 → 0 ≤ size.toInt ∧
    ∀ j, subItem jsonRoot key subKey = some j → 1 ≤ size.toInt ∧ ∃ s, j.type = .string s

/-- Reading a nested value is safe exactly on the documents and sizes that the code assumes. -/
theorem subValue_safe_iff {cJSONGetObjectItem : CJson → CStr → Option CJson}
    (hget : GetsFirst cJSONGetObjectItem) (jsonRoot : CJson) (key subKey : CStr) {buf : Bytes}
    {size : BitVec 32} (hbuf : size.toInt ≤ buf.length) :
    SubValueSafe cJSONGetObjectItem jsonRoot key subKey buf size ↔ Readable jsonRoot key subKey size := by
  constructor
  · intro h hne
    exact ⟨h.size_nonneg hget hne,fun j hj => h.string hget hne hj⟩
  · intro h
    by_cases hne : subKey.strlen = 0
    · exact safe_empty hne
    · obtain ⟨hsize,hfound⟩ := h hne
      cases hj : subItem jsonRoot key subKey with
      | none => exact safe_missing hget hne hj hsize
      | some j =>
        obtain ⟨hone,s,hs⟩ := hfound j hj
        exact safe_string hget hne hj hs hone hbuf

/-- Names `k` and `K`, and the value `on`. -/
def nameK : CStr := ⟨[107],by decide⟩

def nameUpperK : CStr := ⟨[75],by decide⟩

def valueOn : CStr := ⟨[111,110],by decide⟩

def document (type : ItemType) : CJson :=
  .item none .object [.item (some nameK) .object [.item (some nameK) type []]]

theorem subItem_document (type : ItemType) :
    subItem (document type) nameUpperK nameK = some (.item (some nameK) type []) := rfl

theorem subValue_safe_short :
    SubValueSafe firstNamed (document (.string valueOn)) nameUpperK nameK [120,120,120] 2 := by
  refine (subValue_safe_iff (fun _ _ => rfl) _ _ _ (by decide)).mpr fun _ =>
    ⟨by decide,fun j hj => ⟨by decide,?_⟩⟩
  rw [subItem_document] at hj
  cases hj
  exact ⟨valueOn,rfl⟩

/-- A number has no `valuestring` to copy, though the buffer has room. -/
theorem subValue_number_unsafe :
    ¬ SubValueSafe firstNamed (document .number) nameK nameK (List.replicate 16 0) 16 := by
  intro h
  have hj : subItem (document .number) nameK nameK = some (.item (some nameK) .number []) := rfl
  obtain ⟨-,s,hs⟩ := h.string (fun _ _ => rfl) (by decide) hj
  cases hs

end JsonApi
end IotBase
