import IotBase.UtHashWalk
import IotBase.SubdevRefinement
import IotBase.LabelledRun

/-! The sub-device table over the macros of `uthash.h`: every call does to the linked elements what
`SubdevTable` does to an ordered list of pointers, and never follows a stray pointer. -/
namespace IotBase
namespace SubdevUthash
open RawBytes CString BlockHeap DoubleLinks OrderedTable UtHash UtHashBuckets UtHashTable UtHashWalk
open SubdevRefinement LabelledRun
open SubdevTable (HashEntry Table addressMaxLen newEntry hashAddrTypeNoFind cloudDeviceMatch
  cloudDeviceNotMatch retFail typeAt setType setFlag)

abbrev Store := State HashEntry

def zeroHandle : HashHandle := ⟨none,none,none,none,0,0⟩

def assign (s : Store) (p : ℕ) (f : HashEntry → HashEntry) : Option Store :=
  (change s.mem p fun c => {c with val := f c.val}).map fun mem => {s with mem := mem}

def free (s : Store) (p : ℕ) : Option Store :=
  (s.mem p).map fun _ => {s with mem := Function.update s.mem p none}

section Calls
variable (fuel : ℕ) (s : Store)

def find (key : CStr) : Option (Option ℕ) := hashFindStr HashEntry.address fuel s key

/-- `malloc` is the cell for an entry and `room` tells which other sizes can be had. -/
def subdevAddressHashAdd (address : Option CStr) (value : UInt16) (malloc : Option ℕ)
    (room : ℕ → Bool) (lockOk : Bool) : Option (Outcome (Store × ℤ)) :=
  match address with
  | none => some (.done (s,-1))
  | some address => (find fuel s address).bind fun
    | none =>
      match malloc with
      | none => some (.done (s,-1))
      | some p =>
        let s := {s with mem := Function.update s.mem p (some ⟨newEntry address value,zeroHandle⟩)}
        if lockOk then (hashAddStr HashEntry.address room fuel s p).map fun
          | .exit => .exit
          | .done s => .done (s,0)
        else some (.done (s,-1))
    | some p =>
      if lockOk then (assign s p fun e => {e with type := value}).map fun s => .done (s,0)
      else some (.done (s,-1))

def subdevAddressHashFind (key : Option CStr) (lockOk : Bool) : Option UInt16 :=
  match key with
  | none => some hashAddrTypeNoFind
  | some key =>
    if lockOk then (find fuel s key).bind fun
      | none => some hashAddrTypeNoFind
      | some p => (s.mem p).map fun c => c.val.type
    else some hashAddrTypeNoFind

def subdevAddressHashDelete (key : Option CStr) (lockOk : Bool) : Option (Store × ℤ) :=
  match key with
  | none => some (s,-1)
  | some key => (find fuel s key).bind fun
    | none => some (s,-1)
    | some p =>
      if lockOk then (hashDel s p).bind fun s => (free s p).map fun s => (s,0)
      else some (s,-1)

def deleteBody (s : Store) (p : ℕ) : Option (Control Store) :=
  (hashDel s p).bind fun s => (free s p).map .next

def subdevAddressHashDeleteAll (lockOk : Bool) : Option Store :=
  if lockOk then hashIter State.mem deleteBody fuel s s.head else some s

def subdevAddressHashFindEx (key : Option CStr) (lockOk : Bool) : Option (Store × UInt16) :=
  match key with
  | none => some (s,hashAddrTypeNoFind)
  | some key =>
    if lockOk then (find fuel s key).bind fun
      | none => some (s,hashAddrTypeNoFind)
      | some p => (assign s p fun e => {e with flag := cloudDeviceMatch}).bind fun s =>
        (s.mem p).map fun c => (s,c.val.type)
    else some (s,hashAddrTypeNoFind)

/-- The body of the loop of `subdev_address_hash_iterator`, with the strings handed to the
callback so far. -/
def iteratorBody (r : Store × List CStr) (p : ℕ) : Option (Control (Store × List CStr)) :=
  (r.1.mem p).bind fun c =>
    if c.val.flag = cloudDeviceMatch then
      (assign r.1 p fun e => {e with flag := cloudDeviceNotMatch}).map fun s => .next (s,r.2)
    else some (.next (r.1,r.2++[c.val.key]))

def subdevAddressHashIterator (lockOk : Bool) : Option (Store × List CStr) :=
  if lockOk then hashIter (fun r => r.1.mem) iteratorBody fuel (s,[]) s.head else some (s,[])

/-- The body of the loop of `subdev_address_hash_get_keys`: a row outside the caller's array cannot be
written. -/
def keysBody (type : UInt16) (rows : ℤ) (r : List Bytes × ℕ) (p : ℕ) :
    Option (Control (List Bytes × ℕ)) :=
  (s.mem p).bind fun c =>
    if c.val.type = type then (r.1[r.2]?).map fun row =>
      let r := (r.1.set r.2 (strncpy row c.val.key (addressMaxLen-1)),r.2+1)
      if (r.2 : ℤ) = rows then .stop r else .next r
    else some (.next r)

def subdevAddressHashGetKeys (type : UInt16) (list : List Bytes) (rows : ℤ) (lockOk : Bool) :
    Option (List Bytes × ℤ) :=
  if lockOk then (hashIter (fun _ => s.mem) (keysBody s type rows) fuel (list,0) s.head).map fun r =>
    (r.1,(r.2 : ℤ))
  else some (list,retFail)

end Calls

inductive Call
  | add (address : Option CStr) (value : UInt16) (malloc : Option ℕ) (room : ℕ → Bool) (lockOk : Bool)
  | find (key : Option CStr) (lockOk : Bool)
  | delete (key : Option CStr) (lockOk : Bool)
  | deleteAll (lockOk : Bool)
  | findEx (key : Option CStr) (lockOk : Bool)
  | iterator (lockOk : Bool)
  | getKeys (type : UInt16) (list : List Bytes) (rows : ℤ) (lockOk : Bool)

inductive Reply
  | nothing
  | code (ret : ℤ)
  | type (value : UInt16)
  | devices (names : List CStr)
  | keys (list : List Bytes) (ret : ℤ)

def call (fuel : ℕ) (s : Store) : Call → Option (Outcome (Store × Reply))
  | .add address value malloc room lockOk =>
    (subdevAddressHashAdd fuel s address value malloc room lockOk).map fun
      | .exit => .exit
      | .done r => .done (r.1,.code r.2)
  | .find key lockOk => (subdevAddressHashFind fuel s key lockOk).map fun v => .done (s,.type v)
  | .delete key lockOk =>
    (subdevAddressHashDelete fuel s key lockOk).map fun r => .done (r.1,.code r.2)
  | .deleteAll lockOk => (subdevAddressHashDeleteAll fuel s lockOk).map fun s => .done (s,.nothing)
  | .findEx key lockOk =>
    (subdevAddressHashFindEx fuel s key lockOk).map fun r => .done (r.1,.type r.2)
  | .iterator lockOk =>
    (subdevAddressHashIterator fuel s lockOk).map fun r => .done (r.1,.devices r.2)
  | .getKeys type list rows lockOk =>
    (subdevAddressHashGetKeys fuel s type list rows lockOk).map fun r => .done (s,.keys r.1 r.2)

def Call.key : Call → Option CStr
  | .add address _ _ _ _ => address
  | .find key _ => key
  | .delete key _ => key
  | .findEx key _ => key
  | .deleteAll _ => none
  | .iterator _ => none
  | .getKeys _ _ _ _ => none

def rowOf (list : List Bytes) (i : ℕ) : Bytes := list.getD i []

def keysReply (n : ℕ) (r : (ℕ → Bytes) × ℤ) : Reply := .keys ((List.range n).map r.1) r.2

theorem map_rowOf (list : List Bytes) : (List.range list.length).map (rowOf list) = list := by
  apply List.ext_getElem
  · rw [List.length_map,List.length_range]
  · intro i _ hi
    rw [List.getElem_map,List.getElem_range,rowOf,List.getD_eq_getElem?_getD,List.getElem?_eq_getElem hi]
    rfl

theorem set_map_range {n i : ℕ} (f : ℕ → Bytes) (row : Bytes) :
    ((List.range n).map f).set i row = (List.range n).map (Function.update f i row) := by
  apply List.ext_getElem
  · simp
  · intro j _ _
    by_cases hj : i = j
    · simp [hj]
    · simp [hj,Function.update_of_ne (Ne.symm hj)]

/-- The call on the ordered list of pointers, when `out` is the cell it finds. -/
def tableCall (t : Table) (out : Option ℕ) : Call → Table × Reply
  | .add none _ _ _ _ => (t,.code (-1))
  | .add (some address) value malloc _ lockOk =>
    match out, malloc with
    | none, none => (t,.code (-1))
    | none, some p =>
      let t := t.write p (newEntry address value)
      if lockOk then (SubdevTable.hashAddStr t p,.code 0) else (t,.code (-1))
    | some p, _ => if lockOk then (setType t p value,.code 0) else (t,.code (-1))
  | .find none _ => (t,.type hashAddrTypeNoFind)
  | .find (some _) lockOk =>
    (t,.type (if lockOk then (out.map (typeAt t)).getD hashAddrTypeNoFind else hashAddrTypeNoFind))
  | .delete none _ => (t,.code (-1))
  | .delete (some _) lockOk =>
    match out with
    | none => (t,.code (-1))
    | some p => if lockOk then (SubdevTable.free (SubdevTable.hashDel t p) p,.code 0) else (t,.code (-1))
  | .deleteAll lockOk => (SubdevTable.subdevAddressHashDeleteAll t lockOk,.nothing)
  | .findEx none _ => (t,.type hashAddrTypeNoFind)
  | .findEx (some _) lockOk =>
    match out with
    | none => (t,.type hashAddrTypeNoFind)
    | some p =>
      if lockOk then (setFlag t p cloudDeviceMatch,.type (typeAt t p)) else (t,.type hashAddrTypeNoFind)
  | .iterator lockOk =>
    ((SubdevTable.subdevAddressHashIterator t lockOk).1,
      .devices (SubdevTable.subdevAddressHashIterator t lockOk).2)
  | .getKeys type list rows lockOk =>
    (t,keysReply list.length (SubdevTable.subdevAddressHashGetKeys t type (rowOf list) rows lockOk))

/-- The elements are the entries of the table, linked in its order. -/
structure Sim (s : Store) (t : Table) : Prop where
  inv : Inv HashEntry.address s t.order
  heap : ∀ p, t.heap p = (s.mem p).map Element.val

structure Found (t : Table) (a : CStr) (out : Option ℕ) : Prop where
  some : ∀ p, out = some p → LinkedAt t p a
  none : out = none → ∀ p, ¬ LinkedAt t p a

section Simulation
variable {s : Store} {t : Table} {fuel p : ℕ} {a : CStr}

theorem Sim.cell (h : Sim s t) (hp : p ∈ t.order) :
    ∃ c, s.mem p = some c ∧ t.heap p = some c.val := by
  obtain ⟨c,hc⟩ := h.inv.alloc hp
  exact ⟨c,hc,by rw [h.heap p,hc,Option.map_some]⟩

theorem Sim.find (h : Sim s t) (hshort : a.strlen < 2^32) (hfuel : t.order.length ≤ fuel) :
    ∃ out, find fuel s a = some out ∧ Found t a out := by
  obtain ⟨out,hout,hsome,hnone⟩ := hashFindStr_spec h.inv hshort hfuel
  refine ⟨out,hout,fun p hp => ?_,fun hn p hp => ?_⟩
  · obtain ⟨hmem,c,hc,hkey⟩ := hsome p hp
    exact ⟨hmem,c.val,by rw [h.heap p,hc,Option.map_some],CStr.ext_bytes hkey⟩
  · obtain ⟨hmem,e,he,hkey⟩ := hp
    obtain ⟨c,hc,hval⟩ := h.cell hmem
    rw [he] at hval
    cases hval
    exact hnone hn p hmem c hc (congrArg CStr.bytes hkey)

theorem Sim.update_of_notMem (h : Sim s t) (hp : p ∉ t.order) (x : Option (Element HashEntry)) :
    Sim {s with mem := Function.update s.mem p x}
      {t with heap := Function.update t.heap p (x.map Element.val)} where
  inv := h.inv.update_of_notMem hp x
  heap q := by
    by_cases hq : q = p
    · rw [hq]
      exact (Function.update_self _ _ _).trans
        (congrArg (Option.map Element.val) (Function.update_self p x s.mem)).symm
    · exact (Function.update_of_ne hq _ _).trans ((h.heap q).trans
        (congrArg (Option.map Element.val) (Function.update_of_ne hq _ _)).symm)

theorem Sim.assign (h : Sim s t) (hp : p ∈ t.order) {f : HashEntry → HashEntry}
    (hf : ∀ e, (f e).address = e.address) :
    ∃ s', ∃ c : Element HashEntry, t.heap p = some c.val ∧ assign s p f = some s' ∧
      Sim s' (t.write p (f c.val)) ∧ (s'.mem p).map Element.val = some (f c.val) := by
  obtain ⟨c,hc,hval⟩ := h.cell hp
  let mem' := Function.update s.mem p (some (⟨f c.val,c.hh⟩ : Element HashEntry))
  have hself : mem' p = some ⟨f c.val,c.hh⟩ := Function.update_self _ _ _
  refine ⟨{s with mem := mem'},c,hval,?_,⟨h.inv.congr fun q _ => ?_,fun q => ?_⟩,?_⟩
  · rw [SubdevUthash.assign,change_some hc]
    rfl
  · by_cases hq : q = p
    · rw [hq,hself,hc,Option.map_some,Option.map_some,linkedPart,linkedPart,keyOf,keyOf,hf]
    · rw [show mem' q = s.mem q from Function.update_of_ne hq _ _]
  · by_cases hq : q = p
    · rw [hq]
      exact (Function.update_self _ _ _).trans (congrArg (Option.map Element.val) hself).symm
    · exact (Function.update_of_ne hq _ _).trans ((h.heap q).trans
        (congrArg (Option.map Element.val) (Function.update_of_ne hq _ _)).symm)
  · exact congrArg (Option.map Element.val) hself

theorem Sim.delete (h : Sim s t) (hp : p ∈ t.order) :
    ∃ s₁ s₂, hashDel s p = some s₁ ∧ free s₁ p = some s₂ ∧
      Sim s₂ (SubdevTable.free (SubdevTable.hashDel t p) p) := by
  obtain ⟨c,hc,-⟩ := h.cell hp
  obtain ⟨l₁,l₂,horder⟩ := List.append_of_mem hp
  have hnodup := h.inv.app.nodup
  rw [horder] at hnodup
  have hout : p ∉ l₁++l₂ := (List.nodup_cons.mp (List.nodup_middle.mp hnodup)).1
  have herase : t.order.erase p = l₁++l₂ := by
    rw [horder,List.erase_append_right _ fun hmem => hout (List.mem_append_left _ hmem),
      List.erase_cons_head]
  have hinv := h.inv
  rw [horder] at hinv
  obtain ⟨s₁,hdel,hinv₁,hvals,hframe⟩ := hashDel_spec hinv
  have hsim : Sim s₁ (SubdevTable.hashDel t p) := by
    refine ⟨?_,fun q => (h.heap q).trans (hvals q).symm⟩
    rw [SubdevTable.hashDel,herase]
    exact hinv₁
  refine ⟨s₁,_,hdel,?_,hsim.update_of_notMem (by rw [SubdevTable.hashDel,herase]; exact hout) none⟩
  rw [free,hframe p hout,hc]
  rfl

theorem Sim.add (h : Sim s t) {room : ℕ → Bool} (hroom : Bounded room) (hfresh : s.mem p = none)
    (hfuel : t.order.length < fuel) (a : CStr) (value : UInt16) :
    let s₁ : Store := {s with mem := Function.update s.mem p (some ⟨newEntry a value,zeroHandle⟩)}
    Sim s₁ (t.write p (newEntry a value)) ∧
    (hashAddStr HashEntry.address room fuel s₁ p = some .exit ∨
      ∃ s₂, hashAddStr HashEntry.address room fuel s₁ p = some (.done s₂) ∧
        Sim s₂ (SubdevTable.hashAddStr (t.write p (newEntry a value)) p)) := by
  intro s₁
  have hp : p ∉ t.order := by
    intro hp
    obtain ⟨c,hc,-⟩ := h.cell hp
    rw [hfresh] at hc
    cases hc
  have hsim : Sim s₁ (t.write p (newEntry a value)) :=
    h.update_of_notMem hp (some ⟨newEntry a value,zeroHandle⟩)
  have hlength : (keyOf HashEntry.address (newEntry a value)).length ≤ addressMaxLen := by
    have haddress : (newEntry a value).address.length = addressMaxLen := by
      rw [newEntry,strncpy_length,List.length_replicate]
    exact (List.takeWhile_prefix _).length_le.trans haddress.le
  refine ⟨hsim,?_⟩
  rcases hashAddStr_spec hroom hsim.inv hp (Function.update_self _ _ _)
    (hlength.trans_lt (by decide)) hfuel with hexit | ⟨s₂,hdone,hinv,hvals,-⟩
  · exact Or.inl hexit
  · exact Or.inr ⟨s₂,hdone,hinv,fun q => (hsim.heap q).trans (hvals q).symm⟩

section Loops

theorem Sim.chain {s' : Store} {t' : Table} (h : Sim s' t') {ps : List ℕ} (hps : ps <:+ t'.order) :
    Chain (appLinks HashEntry).next s'.mem ps.head? ps := h.inv.app.chain_of_suffix hps

theorem Sim.deleteAll (h : Sim s t) (hfuel : t.order.length ≤ fuel) (lockOk : Bool) :
    ∃ s', subdevAddressHashDeleteAll fuel s lockOk = some s' ∧
      Sim s' (SubdevTable.subdevAddressHashDeleteAll t lockOk) := by
  rw [subdevAddressHashDeleteAll,SubdevTable.subdevAddressHashDeleteAll]
  cases lockOk with
  | false => exact ⟨s,rfl,h⟩
  | true =>
    rw [if_pos rfl,if_pos rfl,h.inv.head]
    refine hashIter_spec (R:=fun ps s' => ∃ t', Sim s' t' ∧ t'.order = ps ∧
        SubdevTable.deleteAllLoop ps t' = SubdevTable.deleteAllLoop t.order t) ?_ ?_ ?_
      ⟨t,h,rfl,rfl⟩ hfuel
    · rintro ps s' ⟨t',hsim,rfl,-⟩
      exact hsim.chain (List.suffix_refl _)
    · rintro p ps s' ⟨t',hsim,horder,hloop⟩
      obtain ⟨s₁,s₂,hdel,hfree,hsim₂⟩ := hsim.delete (horder ▸ List.mem_cons_self)
      refine Or.inl ⟨s₂,?_,_,hsim₂,?_,hloop⟩
      · rw [deleteBody,hdel,Option.bind_some,hfree]
        rfl
      · rw [SubdevTable.free_order,SubdevTable.hashDel,horder,List.erase_cons_head]
    · rintro s' ⟨t',hsim,-,hloop⟩
      exact hloop ▸ hsim

theorem Sim.iterator (h : Sim s t) (hfuel : t.order.length ≤ fuel) (lockOk : Bool) :
    ∃ s', subdevAddressHashIterator fuel s lockOk =
        some (s',(SubdevTable.subdevAddressHashIterator t lockOk).2) ∧
      Sim s' (SubdevTable.subdevAddressHashIterator t lockOk).1 := by
  rw [subdevAddressHashIterator,SubdevTable.subdevAddressHashIterator]
  cases lockOk with
  | false => exact ⟨s,rfl,h⟩
  | true =>
    rw [if_pos rfl,if_pos rfl,h.inv.head]
    have hiter : ∃ r, hashIter (fun r : Store × List CStr => r.1.mem) iteratorBody fuel (s,[])
        t.order.head? = some r ∧ (Sim r.1 (SubdevTable.iteratorLoop t.order t).1 ∧
          r.2 = (SubdevTable.iteratorLoop t.order t).2) := by
      refine hashIter_spec (R:=fun ps r => ∃ t', Sim r.1 t' ∧ ps <:+ t'.order ∧
        (SubdevTable.iteratorLoop ps t').1 = (SubdevTable.iteratorLoop t.order t).1 ∧
        r.2++(SubdevTable.iteratorLoop ps t').2 = (SubdevTable.iteratorLoop t.order t).2) ?_ ?_ ?_
        ⟨t,h,List.suffix_refl _,rfl,rfl⟩ hfuel
      · rintro ps r ⟨t',hsim,hps,-⟩
        exact hsim.chain hps
      · rintro p ps ⟨s',names⟩ ⟨t',hsim,hps,hloop,hnames⟩
        have hp : p ∈ t'.order := hps.subset List.mem_cons_self
        obtain ⟨c,hc,hval⟩ := hsim.cell hp
        have hrest : ps <:+ t'.order := (List.suffix_cons p ps).trans hps
        refine Or.inl ?_
        rw [iteratorBody,show (s',names).1.mem p = some c from hc,Option.bind_some]
        simp only [SubdevTable.iteratorLoop,hval] at hloop hnames
        by_cases hmatch : c.val.flag = cloudDeviceMatch
        · obtain ⟨s₁,d,hd,hassign,hsim₁,-⟩ := hsim.assign hp
            (f:=fun e => {e with flag := cloudDeviceNotMatch}) fun _ => rfl
          have hset : setFlag t' p cloudDeviceNotMatch =
              t'.write p {d.val with flag := cloudDeviceNotMatch} := by
            rw [setFlag,hd]
          rw [if_pos hmatch] at hloop hnames ⊢
          rw [hset] at hloop hnames
          refine ⟨(s₁,names),?_,_,hsim₁,hrest,hloop,hnames⟩
          rw [show SubdevUthash.assign s' p _ = some s₁ from hassign]
          rfl
        · rw [if_neg hmatch] at hloop hnames ⊢
          refine ⟨(s',names++[c.val.key]),rfl,t',hsim,hrest,hloop,?_⟩
          rw [List.append_assoc]
          exact hnames
      · rintro r ⟨t',hsim,-,hloop,hnames⟩
        rw [← hloop,← hnames]
        exact ⟨hsim,(List.append_nil _).symm⟩
    obtain ⟨r,hrun,hsim,hnames⟩ := hiter
    refine ⟨r.1,hrun.trans ?_,hsim⟩
    rw [← hnames]

theorem Sim.getKeys (h : Sim s t) (hfuel : t.order.length ≤ fuel) (type : UInt16) {list : List Bytes}
    {rows : ℤ} (hpos : 0 < rows) (hrows : rows ≤ list.length) (lockOk : Bool) :
    subdevAddressHashGetKeys fuel s type list rows lockOk = some
      ((List.range list.length).map
        (SubdevTable.subdevAddressHashGetKeys t type (rowOf list) rows lockOk).1,
        (SubdevTable.subdevAddressHashGetKeys t type (rowOf list) rows lockOk).2) := by
  rw [subdevAddressHashGetKeys,SubdevTable.subdevAddressHashGetKeys]
  cases lockOk with
  | false => exact congrArg (fun l => some (l,retFail)) (map_rowOf list).symm
  | true =>
    rw [if_pos rfl,if_pos rfl,h.inv.head]
    obtain ⟨n,hn⟩ : ∃ n, list.length = n := ⟨_,rfl⟩
    have hiter : ∃ r, hashIter (fun _ : List Bytes × ℕ => s.mem) (keysBody s type rows) fuel (list,0)
        t.order.head? = some r ∧ r.1 = (List.range n).map
          (SubdevTable.getKeysLoop t type rows t.order (rowOf list) 0).1 ∧
        r.2 = (SubdevTable.getKeysLoop t type rows t.order (rowOf list) 0).2 := by
      refine hashIter_spec (R:=fun ps r => ps <:+ t.order ∧ (r.2 : ℤ) < rows ∧ ∃ f,
        r.1 = (List.range n).map f ∧ SubdevTable.getKeysLoop t type rows ps f r.2 =
          SubdevTable.getKeysLoop t type rows t.order (rowOf list) 0) ?_ ?_ ?_
        ⟨List.suffix_refl _,hpos,rowOf list,hn ▸ (map_rowOf list).symm,rfl⟩ hfuel
      · rintro ps r ⟨hps,-⟩
        exact h.chain hps
      · rintro p ps ⟨list',i⟩ ⟨hps,hi,f,hlist,hloop⟩
        have hp : p ∈ t.order := hps.subset List.mem_cons_self
        obtain ⟨c,hc,hval⟩ := h.cell hp
        have hrest : ps <:+ t.order := (List.suffix_cons p ps).trans hps
        simp only at hi hlist
        simp only [SubdevTable.getKeysLoop,hval] at hloop
        rw [keysBody,hc,Option.bind_some]
        by_cases htype : c.val.type = type
        · rw [if_pos htype] at hloop ⊢
          have hin : i < n := by omega
          have hrow : list'[i]? = some (f i) := by
            rw [hlist,List.getElem?_map,List.getElem?_range hin,Option.map_some]
          have hset : list'.set i (strncpy (f i) c.val.key (addressMaxLen-1)) =
              (List.range n).map (Function.update f i (strncpy (f i) c.val.key (addressMaxLen-1))) := by
            rw [hlist,set_map_range]
          rw [show (list',i).1[(list',i).2]? = some (f i) from hrow,Option.map_some]
          by_cases hlast : ((i+1 : ℕ) : ℤ) = rows
          · rw [if_pos hlast] at hloop
            refine Or.inr ⟨_,congrArg some (if_pos hlast),?_,?_⟩
            · rw [← hloop]
              exact hset
            · rw [← hloop]
          · rw [if_neg hlast] at hloop
            refine Or.inl ⟨_,congrArg some (if_neg hlast),hrest,?_,_,hset,hloop⟩
            change ((i+1 : ℕ) : ℤ) < rows
            omega
        · rw [if_neg htype] at hloop ⊢
          exact Or.inl ⟨_,rfl,hrest,hi,f,hlist,hloop⟩
      · rintro r ⟨-,-,f,hlist,hloop⟩
        rw [← hloop]
        exact ⟨hlist,rfl⟩
    obtain ⟨r,hrun,hlist,hcount⟩ := hiter
    rw [hrun,Option.map_some,hlist,hcount,hn]

end Loops

/-- What the system and the callers of a call promise: `malloc` returns a cell that is not in use,
no 64 GiB can be had, a string is shorter than 2^32, and an array has at least one row and as many as
the call is told. -/
structure Promised (s : Store) (c : Call) : Prop where
  short : ∀ a, c.key = some a → a.strlen < 2^32
  fresh : ∀ address value p room lockOk, c = .add address value (some p) room lockOk → s.mem p = none
  bounded : ∀ address value malloc room lockOk, c = .add address value malloc room lockOk → Bounded room
  array : ∀ type list rows lockOk, c = .getKeys type list rows lockOk → 0 < rows ∧ rows ≤ list.length

theorem found_noKey {out : Option ℕ} : ∀ a, (none : Option CStr) = some a → Found t a out := fun _ h =>
  absurd h (Option.some_ne_none _).symm

/-- The call over the macros does what it does on the ordered list of pointers. -/
def Follows (fuel : ℕ) (s : Store) (t : Table) (out : Option ℕ) (c : Call) : Prop :=
  ∃ s', call fuel s c = some (.done (s',(tableCall t out c).2)) ∧ Sim s' (tableCall t out c).1

section Keyed
variable {out : Option ℕ}

theorem Sim.call_add (h : Sim s t) {value : UInt16} {malloc : Option ℕ} {room : ℕ → Bool} {lockOk : Bool}
    (hc : Promised s (.add (some a) value malloc room lockOk)) (hfuel : t.order.length < fuel)
    (hout : SubdevUthash.find fuel s a = some out) (hfound : Found t a out) :
    call fuel s (.add (some a) value malloc room lockOk) = some .exit ∨
      Follows fuel s t out (.add (some a) value malloc room lockOk) := by
  simp only [Follows,call,subdevAddressHashAdd,hout,Option.bind_some]
  cases out with
  | none =>
    cases malloc with
    | none => exact Or.inr ⟨s,rfl,h⟩
    | some p =>
      obtain ⟨hsim,hadd⟩ := h.add (hc.bounded _ _ _ _ _ rfl) (hc.fresh _ _ _ _ _ rfl) hfuel a value
      cases lockOk with
      | false => exact Or.inr ⟨_,rfl,hsim⟩
      | true =>
        rcases hadd with hexit | ⟨s₂,hdone,hsim₂⟩
        · left
          simp only [if_true,hexit,Option.map_some]
        · refine Or.inr ⟨s₂,?_,hsim₂⟩
          simp only [if_true,hdone,Option.map_some]
          rfl
  | some p =>
    obtain ⟨hp,-⟩ := hfound.some p rfl
    cases lockOk with
    | false => exact Or.inr ⟨s,rfl,h⟩
    | true =>
      obtain ⟨s',c,hval,hassign,hsim,-⟩ := h.assign hp (f:=fun e => {e with type := value}) fun _ => rfl
      refine Or.inr ⟨s',?_,?_⟩
      · simp only [if_true,hassign,Option.map_some]
        rfl
      · simp only [tableCall,if_true,setType,hval]
        exact hsim

theorem Sim.call_find (h : Sim s t) (hout : SubdevUthash.find fuel s a = some out) (hfound : Found t a out)
    (lockOk : Bool) : Follows fuel s t out (.find (some a) lockOk) := by
  refine ⟨s,?_,h⟩
  cases lockOk with
  | false => rfl
  | true =>
    cases out with
    | none =>
      simp only [call,subdevAddressHashFind,if_true,hout,Option.bind_some]
      rfl
    | some p =>
      obtain ⟨c,hcell,hval⟩ := h.cell (hfound.some p rfl).1
      simp only [call,subdevAddressHashFind,if_true,hout,Option.bind_some,hcell,tableCall,
        Option.map_some,Option.getD_some,typeAt,hval]

theorem Sim.call_delete (h : Sim s t) (hout : SubdevUthash.find fuel s a = some out)
    (hfound : Found t a out) (lockOk : Bool) : Follows fuel s t out (.delete (some a) lockOk) := by
  simp only [Follows,call,subdevAddressHashDelete,hout,Option.bind_some]
  cases out with
  | none => exact ⟨s,rfl,h⟩
  | some p =>
    cases lockOk with
    | false => exact ⟨s,rfl,h⟩
    | true =>
      obtain ⟨s₁,s₂,hdel,hfree,hsim⟩ := h.delete (hfound.some p rfl).1
      refine ⟨s₂,?_,hsim⟩
      simp only [if_true,hdel,hfree,Option.bind_some,Option.map_some]
      rfl

theorem Sim.call_findEx (h : Sim s t) (hout : SubdevUthash.find fuel s a = some out)
    (hfound : Found t a out) (lockOk : Bool) : Follows fuel s t out (.findEx (some a) lockOk) := by
  simp only [Follows,call,subdevAddressHashFindEx,hout,Option.bind_some]
  cases lockOk with
  | false =>
    refine ⟨s,?_,?_⟩
    · cases out <;> rfl
    · cases out <;> exact h
  | true =>
    cases out with
    | none => exact ⟨s,rfl,h⟩
    | some p =>
      obtain ⟨s',c,hval,hassign,hsim,hcell⟩ := h.assign (hfound.some p rfl).1
        (f:=fun e => {e with flag := cloudDeviceMatch}) fun _ => rfl
      obtain ⟨d,hd,hdval⟩ := Option.map_eq_some_iff.mp hcell
      refine ⟨s',?_,?_⟩
      · simp only [if_true,hassign,Option.bind_some,hd,Option.map_some,tableCall,typeAt,hval,
          Option.getD_some,hdval]
      · simp only [tableCall,if_true,setFlag,hval]
        exact hsim

theorem Sim.call_keyed (h : Sim s t) {c : Call} (hc : Promised s c) (hfuel : t.order.length < fuel)
    (hkey : c.key = some a) :
    ∃ out, Found t a out ∧ (call fuel s c = some .exit ∨ Follows fuel s t out c) := by
  obtain ⟨out,hout,hfound⟩ := h.find (hc.short a hkey) hfuel.le
  refine ⟨out,hfound,?_⟩
  cases c with
  | add address value malloc room lockOk =>
    obtain rfl : address = some a := hkey
    exact h.call_add hc hfuel hout hfound
  | find key lockOk =>
    obtain rfl : key = some a := hkey
    exact Or.inr (h.call_find hout hfound lockOk)
  | delete key lockOk =>
    obtain rfl : key = some a := hkey
    exact Or.inr (h.call_delete hout hfound lockOk)
  | findEx key lockOk =>
    obtain rfl : key = some a := hkey
    exact Or.inr (h.call_findEx hout hfound lockOk)
  | deleteAll lockOk => cases hkey
  | iterator lockOk => cases hkey
  | getKeys type list rows lockOk => cases hkey

end Keyed

theorem Sim.call_noKey (h : Sim s t) {c : Call} (hc : Promised s c) (hfuel : t.order.length < fuel)
    (hkey : c.key = none) : Follows fuel s t none c := by
  cases c with
  | add address value malloc room lockOk =>
    obtain rfl : address = none := hkey
    exact ⟨s,rfl,h⟩
  | find key lockOk =>
    obtain rfl : key = none := hkey
    exact ⟨s,rfl,h⟩
  | delete key lockOk =>
    obtain rfl : key = none := hkey
    exact ⟨s,rfl,h⟩
  | findEx key lockOk =>
    obtain rfl : key = none := hkey
    exact ⟨s,rfl,h⟩
  | deleteAll lockOk =>
    obtain ⟨s',hrun,hsim⟩ := h.deleteAll hfuel.le lockOk
    refine ⟨s',?_,hsim⟩
    rw [call,hrun]
    rfl
  | iterator lockOk =>
    obtain ⟨s',hrun,hsim⟩ := h.iterator hfuel.le lockOk
    refine ⟨s',?_,hsim⟩
    rw [call,hrun]
    rfl
  | getKeys type list rows lockOk =>
    obtain ⟨hpos,hrows⟩ := hc.array _ _ _ _ rfl
    refine ⟨s,?_,h⟩
    rw [call,h.getKeys hfuel.le type hpos hrows]
    rfl

/-- What a call does over the macros and what it does on the ordered list of pointers. -/
theorem call_spec (h : Sim s t) {c : Call} (hc : Promised s c) (hfuel : t.order.length < fuel) :
    call fuel s c = some .exit ∨ ∃ s' out, (∀ a, c.key = some a → Found t a out) ∧
      call fuel s c = some (.done (s',(tableCall t out c).2)) ∧ Sim s' (tableCall t out c).1 := by
  cases hkey : c.key with
  | none =>
    obtain ⟨s',hcall,hsim⟩ := h.call_noKey hc hfuel hkey
    exact Or.inr ⟨s',none,found_noKey,hcall,hsim⟩
  | some a =>
    obtain ⟨out,hfound,hexit | ⟨s',hcall,hsim⟩⟩ := h.call_keyed hc hfuel hkey
    · exact Or.inl hexit
    · exact Or.inr ⟨s',out,fun b hb => Option.some.inj hb ▸ hfound,hcall,hsim⟩

theorem call_exit {c : Call} (h : call fuel s c = some .exit) :
    ∃ address value malloc room lockOk size, c = .add address value malloc room lockOk ∧ Asks s size ∧
      room size = false := by
  cases c with
  | add address value malloc room lockOk =>
    obtain ⟨r,hr,hexit⟩ := Option.map_eq_some_iff.mp h
    cases r with
    | done r => cases hexit
    | exit =>
      cases address with
      | none => cases hr
      | some a =>
        obtain ⟨out,-,hr⟩ := Option.bind_eq_some_iff.mp hr
        cases out with
        | some p =>
          cases lockOk with
          | false => cases hr
          | true =>
            obtain ⟨s',-,hs'⟩ := Option.map_eq_some_iff.mp hr
            cases hs'
        | none =>
          cases malloc with
          | none => cases hr
          | some p =>
            cases lockOk with
            | false => cases hr
            | true =>
              obtain ⟨r,hr,hr'⟩ := Option.map_eq_some_iff.mp hr
              cases r with
              | done r => cases hr'
              | exit =>
                obtain ⟨size,hasks,hroom⟩ := hashAddStr_exit hr
                exact ⟨_,_,_,_,_,size,rfl,hasks,hroom⟩
  | find key lockOk =>
    obtain ⟨v,-,hv⟩ := Option.map_eq_some_iff.mp h
    cases hv
  | delete key lockOk =>
    obtain ⟨v,-,hv⟩ := Option.map_eq_some_iff.mp h
    cases hv
  | deleteAll lockOk =>
    obtain ⟨v,-,hv⟩ := Option.map_eq_some_iff.mp h
    cases hv
  | findEx key lockOk =>
    obtain ⟨v,-,hv⟩ := Option.map_eq_some_iff.mp h
    cases hv
  | iterator lockOk =>
    obtain ⟨v,-,hv⟩ := Option.map_eq_some_iff.mp h
    cases hv
  | getKeys type list rows lockOk =>
    obtain ⟨v,-,hv⟩ := Option.map_eq_some_iff.mp h
    cases hv

end Simulation

end SubdevUthash
end IotBase
