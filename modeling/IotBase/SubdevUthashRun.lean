import IotBase.SubdevUthash

/-! Runs of calls on the sub-device table over `uthash.h`, from the empty table on. -/
namespace IotBase
namespace SubdevUthashRun
open RawBytes CString OrderedTable UtHash UtHashBuckets UtHashTable UtHashWalk
open SubdevRefinement SubdevUthash LabelledRun
open SubdevTable (HashEntry Table addressMaxLen hashAddrTypeNoFind cloudDeviceMatch retFail)

def start : Store := ⟨fun _ => none,none,none⟩

def run (fuel : ℕ) (s : Store) : List Call → Option (Outcome (Store × List Reply))
  | [] => some (.done (s,[]))
  | c::cs => (call fuel s c).bind fun
    | .exit => some .exit
    | .done (s,r) => (run fuel s cs).map fun
      | .exit => .exit
      | .done (s,rs) => .done (s,r::rs)

def step (fuel : ℕ) (s : Store) (c : Call) : Option Store :=
  match call fuel s c with
  | some (.done r) => some r.1
  | _ => none

def mapCall (l : List Device) : Call → List Device × Reply
  | .add none _ _ _ _ => (l,.code (-1))
  | .add (some a) value malloc _ lockOk =>
    if lockOk then ((mapAdd a value malloc.isSome l).1,.code (mapAdd a value malloc.isSome l).2)
    else (l,.code (-1))
  | .find none _ => (l,.type hashAddrTypeNoFind)
  | .find (some a) lockOk => (l,.type (if lockOk then mapFind a l else hashAddrTypeNoFind))
  | .delete none _ => (l,.code (-1))
  | .delete (some a) lockOk =>
    if lockOk then ((mapDelete a l).1,.code (mapDelete a l).2) else (l,.code (-1))
  | .deleteAll lockOk => (if lockOk then [] else l,.nothing)
  | .findEx none _ => (l,.type hashAddrTypeNoFind)
  | .findEx (some a) lockOk =>
    if lockOk then ((mapFindEx a l).1,.type (mapFindEx a l).2) else (l,.type hashAddrTypeNoFind)
  | .iterator lockOk => if lockOk then ((mapSweep l).1,.devices (mapSweep l).2) else (l,.devices [])
  | .getKeys type list rows lockOk =>
    (l,if lockOk then keysReply list.length (mapKeys type (rowOf list) rows l) else .keys list retFail)

def mapRun (l : List Device) : List Call → List Device × List Reply
  | [] => (l,[])
  | c::cs => ((mapRun (mapCall l c).1 cs).1,(mapCall l c).2::(mapRun (mapCall l c).1 cs).2)

def Fits : Call → Prop
  | .add (some a) _ _ _ _ => a.strlen < addressMaxLen
  | _ => True

def Locked : Call → Prop
  | .add _ _ _ _ lockOk => lockOk = true
  | _ => True

def Fresh (t : Table) (c : Call) : Prop :=
  ∀ address value p room lockOk, c = .add address value (some p) room lockOk → t.heap p = none

/-- Calls on the ordered list of pointers; a call finds any entry of the address it looks for. -/
inductive TableRun : Table → List Call → List Reply → Table → Prop
  | nil (t : Table) : TableRun t [] [] t
  | cons {t u : Table} {out : Option ℕ} {c : Call} {cs : List Call} {rs : List Reply}
      (fresh : Fresh t c) (found : ∀ a, c.key = some a → Found t a out)
      (rest : TableRun (tableCall t out c).1 cs rs u) : TableRun t (c::cs) ((tableCall t out c).2::rs) u

section Table
variable {t : Table} {a : CStr} {out : Option ℕ} {s : Store} {fuel : ℕ}

theorem eq_find_of_found (hv : Valid t) (h : Found t a out) : out = SubdevTable.hashFindStr t a := by
  cases hf : SubdevTable.hashFindStr t a with
  | none =>
    cases out with
    | none => rfl
    | some p =>
      obtain ⟨d,hd⟩ := lookup_of_linkedAt (h.some p rfl)
      rw [lookup_devices_eq_none.mpr hf] at hd
      cases hd
  | some p =>
    have hp := linkedAt_of_find hf
    cases out with
    | none => exact absurd hp (h.none rfl p)
    | some q =>
      obtain ⟨hq,e,he,hkey⟩ := h.some q rfl
      obtain ⟨hp,f,hf,hkey'⟩ := hp
      rw [hv.cell_inj hq hp he hf (hkey.trans hkey'.symm)]

section Calls

theorem tableCall_add (hv : Valid t) {value : UInt16} {malloc : Option ℕ} {room : ℕ → Bool} {lockOk : Bool}
    (ha : a.strlen < addressMaxLen) (hm : ∀ p, malloc = some p → t.heap p = none)
    (hout : out = SubdevTable.hashFindStr t a) :
    Valid (tableCall t out (.add (some a) value malloc room lockOk)).1 ∧
      (devices (tableCall t out (.add (some a) value malloc room lockOk)).1,
        (tableCall t out (.add (some a) value malloc room lockOk)).2) =
        mapCall (devices t) (.add (some a) value malloc room lockOk) := by
  subst hout
  cases lockOk with
  | false =>
    obtain ⟨hvalid,hsame,-⟩ := addLookup_spec (a:=a) (v:=value) hv hm
    have hcall : tableCall t (SubdevTable.hashFindStr t a) (.add (some a) value malloc room false) =
        ((SubdevTable.addLookup t a value malloc).1,.code (-1)) := by
      simp only [tableCall,SubdevTable.addLookup]
      cases SubdevTable.hashFindStr t a <;> cases malloc <;> rfl
    rw [hcall]
    exact ⟨hvalid,Prod.ext hsame rfl⟩
  | true =>
    obtain ⟨hvalid,hadd⟩ := add_spec (v:=value) hv ha hm
    have hcall : tableCall t (SubdevTable.hashFindStr t a) (.add (some a) value malloc room true) =
        ((SubdevTable.subdevAddressHashAdd t (some a) value malloc true).1,
          .code (SubdevTable.subdevAddressHashAdd t (some a) value malloc true).2) := by
      simp only [tableCall,SubdevTable.subdevAddressHashAdd,SubdevTable.addLookup]
      cases SubdevTable.hashFindStr t a <;> cases malloc <;> rfl
    rw [hcall]
    refine ⟨hvalid,?_⟩
    rw [mapCall,if_pos rfl,← hadd]

theorem tableCall_find (hv : Valid t) (hout : out = SubdevTable.hashFindStr t a) (lockOk : Bool) :
    (devices (tableCall t out (.find (some a) lockOk)).1,(tableCall t out (.find (some a) lockOk)).2) =
      mapCall (devices t) (.find (some a) lockOk) := by
  subst hout
  cases lockOk with
  | false => rfl
  | true =>
    have hfind := find_spec hv a
    rw [SubdevTable.subdevAddressHashFind,if_pos rfl] at hfind
    rw [mapCall,if_pos rfl,← hfind,tableCall]
    cases SubdevTable.hashFindStr t a <;> rfl

theorem tableCall_delete (hv : Valid t) (hout : out = SubdevTable.hashFindStr t a) (lockOk : Bool) :
    Valid (tableCall t out (.delete (some a) lockOk)).1 ∧
      (devices (tableCall t out (.delete (some a) lockOk)).1,
        (tableCall t out (.delete (some a) lockOk)).2) =
        mapCall (devices t) (.delete (some a) lockOk) := by
  subst hout
  cases lockOk with
  | false => cases SubdevTable.hashFindStr t a <;> exact ⟨hv,rfl⟩
  | true =>
    obtain ⟨hvalid,hdel⟩ := delete_spec hv a
    have hcall : tableCall t (SubdevTable.hashFindStr t a) (.delete (some a) true) =
        ((SubdevTable.subdevAddressHashDelete t (some a) true).1,
          .code (SubdevTable.subdevAddressHashDelete t (some a) true).2) := by
      simp only [tableCall,SubdevTable.subdevAddressHashDelete]
      cases SubdevTable.hashFindStr t a <;> rfl
    rw [hcall]
    refine ⟨hvalid,?_⟩
    rw [mapCall,if_pos rfl,← hdel]

theorem tableCall_findEx (hv : Valid t) (hout : out = SubdevTable.hashFindStr t a) (lockOk : Bool) :
    Valid (tableCall t out (.findEx (some a) lockOk)).1 ∧
      (devices (tableCall t out (.findEx (some a) lockOk)).1,
        (tableCall t out (.findEx (some a) lockOk)).2) =
        mapCall (devices t) (.findEx (some a) lockOk) := by
  subst hout
  cases lockOk with
  | false => cases SubdevTable.hashFindStr t a <;> exact ⟨hv,rfl⟩
  | true =>
    obtain ⟨hvalid,-,hmark⟩ := findEx_spec hv a
    have hcall : tableCall t (SubdevTable.hashFindStr t a) (.findEx (some a) true) =
        ((SubdevTable.subdevAddressHashFindEx t (some a) true).1,
          .type (SubdevTable.subdevAddressHashFindEx t (some a) true).2) := by
      simp only [tableCall,SubdevTable.subdevAddressHashFindEx,if_true]
      cases SubdevTable.hashFindStr t a <;> rfl
    rw [hcall]
    refine ⟨hvalid,?_⟩
    rw [mapCall,if_pos rfl,← hmark]

theorem tableCall_noKey (hv : Valid t) {c : Call} (hkey : c.key = none) :
    Valid (tableCall t out c).1 ∧
      (devices (tableCall t out c).1,(tableCall t out c).2) = mapCall (devices t) c := by
  cases c with
  | add address value malloc room lockOk =>
    obtain rfl : address = none := hkey
    exact ⟨hv,rfl⟩
  | find key lockOk =>
    obtain rfl : key = none := hkey
    exact ⟨hv,rfl⟩
  | delete key lockOk =>
    obtain rfl : key = none := hkey
    exact ⟨hv,rfl⟩
  | findEx key lockOk =>
    obtain rfl : key = none := hkey
    exact ⟨hv,rfl⟩
  | deleteAll lockOk =>
    cases lockOk with
    | false => exact ⟨hv,rfl⟩
    | true =>
      obtain ⟨hvalid,hdev⟩ := deleteAll_spec t
      exact ⟨hvalid,Prod.ext hdev rfl⟩
  | iterator lockOk =>
    cases lockOk with
    | false => exact ⟨hv,rfl⟩
    | true =>
      obtain ⟨hvalid,-,hsweep⟩ := iterator_spec hv
      refine ⟨hvalid,?_⟩
      rw [mapCall,if_pos rfl,← hsweep]
      rfl
  | getKeys type list rows lockOk =>
    refine ⟨hv,?_⟩
    cases lockOk with
    | false =>
      refine Prod.ext rfl ?_
      change keysReply list.length (rowOf list,retFail) = .keys list retFail
      rw [keysReply,map_rowOf]
    | true =>
      rw [mapCall,if_pos rfl,← getKeys_spec]
      rfl

end Calls

theorem tableCall_spec (hv : Valid t) {c : Call} (hfits : Fits c)
    (hfresh : Fresh t c)
    (hfound : ∀ a, c.key = some a → Found t a out) :
    Valid (tableCall t out c).1 ∧
      (devices (tableCall t out c).1,(tableCall t out c).2) = mapCall (devices t) c := by
  cases hkey : c.key with
  | none => exact tableCall_noKey hv hkey
  | some a =>
    have hout := eq_find_of_found hv (hfound a hkey)
    cases c with
    | add address value malloc room lockOk =>
      obtain rfl : address = some a := hkey
      exact tableCall_add hv hfits (fun p hp => hfresh (some a) value p room lockOk (by rw [hp])) hout
    | find key lockOk =>
      obtain rfl : key = some a := hkey
      exact ⟨hv,tableCall_find hv hout lockOk⟩
    | delete key lockOk =>
      obtain rfl : key = some a := hkey
      exact tableCall_delete hv hout lockOk
    | findEx key lockOk =>
      obtain rfl : key = some a := hkey
      exact tableCall_findEx hv hout lockOk
    | deleteAll lockOk => cases hkey
    | iterator lockOk => cases hkey
    | getKeys type list rows lockOk => cases hkey

theorem setType_order (t : Table) (p : ℕ) (v : UInt16) : (SubdevTable.setType t p v).order = t.order := by
  rw [SubdevTable.setType]
  split <;> rfl

theorem setFlag_order (t : Table) (p : ℕ) (v : UInt8) : (SubdevTable.setFlag t p v).order = t.order := by
  rw [SubdevTable.setFlag]
  split <;> rfl

theorem iteratorLoop_order : ∀ (ps : List ℕ) (t : Table),
    (SubdevTable.iteratorLoop ps t).1.order = t.order
  | [], _ => rfl
  | p::ps, t => by
    rw [SubdevTable.iteratorLoop]
    split
    · exact iteratorLoop_order ps t
    · split
      · exact (iteratorLoop_order ps _).trans (setFlag_order _ _ _)
      · exact iteratorLoop_order ps t

theorem tableCall_length (t : Table) (out : Option ℕ) (c : Call) :
    (tableCall t out c).1.order.length ≤ t.order.length+1 := by
  cases c with
  | add address value malloc room lockOk =>
    cases address with
    | none => exact Nat.le_succ _
    | some a =>
      cases out with
      | none =>
        cases malloc with
        | none => exact Nat.le_succ _
        | some p =>
          cases lockOk with
          | false => exact Nat.le_succ _
          | true => exact List.length_append.le
      | some p =>
        cases lockOk with
        | false => exact Nat.le_succ _
        | true =>
          rw [show (tableCall t (some p) (.add (some a) value malloc room true)).1 =
            SubdevTable.setType t p value from rfl,setType_order]
          exact Nat.le_succ _
  | find key lockOk => cases key <;> exact Nat.le_succ _
  | delete key lockOk =>
    cases key with
    | none => exact Nat.le_succ _
    | some a =>
      cases out with
      | none => exact Nat.le_succ _
      | some p =>
        cases lockOk with
        | false => exact Nat.le_succ _
        | true => exact (List.erase_sublist.length_le).trans (Nat.le_succ _)
  | deleteAll lockOk =>
    cases lockOk with
    | false => exact Nat.le_succ _
    | true =>
      rw [show (tableCall t out (.deleteAll true)).1.order = [] from deleteAllLoop_order t.order t rfl]
      exact Nat.zero_le _
  | findEx key lockOk =>
    cases key with
    | none => exact Nat.le_succ _
    | some a =>
      cases out with
      | none => exact Nat.le_succ _
      | some p =>
        cases lockOk with
        | false => exact Nat.le_succ _
        | true =>
          rw [show (tableCall t (some p) (.findEx (some a) true)).1 =
            SubdevTable.setFlag t p cloudDeviceMatch from rfl,setFlag_order]
          exact Nat.le_succ _
  | iterator lockOk =>
    cases lockOk with
    | false => exact Nat.le_succ _
    | true =>
      rw [show (tableCall t out (.iterator true)).1.order = t.order from iteratorLoop_order t.order t]
      exact Nat.le_succ _
  | getKeys type list rows lockOk => exact Nat.le_succ _

/-- An addition of the run was refused a size that it asked for. -/
def Refused (fuel : ℕ) (s : Store) (cs : List Call) : Prop :=
  ∃ pre address value malloc room lockOk post s', cs = pre++.add address value malloc room lockOk::post ∧
    exec (step fuel) s pre = some s' ∧ ∃ size, Asks s' size ∧ room size = false

theorem refused_of_exit {cs : List Call} (h : run fuel s cs = some .exit) : Refused fuel s cs := by
  induction cs generalizing s with
  | nil => cases h
  | cons c cs ih =>
    obtain ⟨r,hr,hrun⟩ := Option.bind_eq_some_iff.mp h
    cases r with
    | exit =>
      obtain ⟨address,value,malloc,room,lockOk,size,rfl,hasks,hroom⟩ := call_exit hr
      exact ⟨[],address,value,malloc,room,lockOk,cs,s,rfl,rfl,size,hasks,hroom⟩
    | done r =>
      obtain ⟨r',hr',hexit⟩ := Option.map_eq_some_iff.mp hrun
      cases r' with
      | done r' => cases hexit
      | exit =>
        obtain ⟨pre,address,value,malloc,room,lockOk,post,s',rfl,hexec,hrefused⟩ := ih hr'
        have hstep : step fuel s c = some r.1 := by rw [step,hr]
        exact ⟨c::pre,address,value,malloc,room,lockOk,post,s',rfl,exec_cons.mpr ⟨r.1,hstep,hexec⟩,hrefused⟩

/-- Over the macros every run is one on the ordered list of pointers. -/
theorem run_spec {cs : List Call} (h : Sim s t) (hcs : Meets (step fuel) Promised s cs)
    (hfuel : t.order.length+cs.length < fuel+1) : run fuel s cs = some .exit ∨
      ∃ s' t' rs, run fuel s cs = some (.done (s',rs)) ∧ Sim s' t' ∧ TableRun t cs rs t' ∧
        t'.order.length ≤ fuel := by
  induction cs generalizing s t with
  | nil => exact Or.inr ⟨s,t,[],rfl,h,.nil t,Nat.le_of_lt_succ hfuel⟩
  | cons c cs ih =>
    obtain ⟨hc,hrest⟩ := hcs
    rw [List.length_cons] at hfuel
    have hroom : t.order.length < fuel := by omega
    rcases call_spec h hc hroom with hexit | ⟨s₁,out,hfound,hdone,hsim⟩
    · left
      rw [run,hexit]
      rfl
    · have hlength := tableCall_length t out c
      have hfresh : Fresh t c := fun address value p room lockOk hadd => by
        rw [h.heap p,hc.fresh address value p room lockOk hadd,Option.map_none]
      have hstep : step fuel s c = some s₁ := by rw [step,hdone]
      rcases ih hsim (hrest s₁ hstep) (by omega) with hexit | ⟨s₂,t₂,rs,hrun,hsim₂,htable,hlen⟩
      · left
        simp only [run,hdone,Option.bind_some,hexit,Option.map_some]
      · refine Or.inr ⟨s₂,t₂,_,?_,hsim₂,.cons hfresh hfound htable,hlen⟩
        simp only [run,hdone,Option.bind_some,hrun,Option.map_some]

theorem mapRun_of_tableRun {cs : List Call} {rs : List Reply} {u : Table} (h : TableRun t cs rs u)
    (hv : Valid t) (hfits : ∀ c ∈ cs, Fits c) : rs = (mapRun (devices t) cs).2 := by
  induction h with
  | nil t => rfl
  | @cons t u out c cs rs hfresh hfound _ ih =>
    obtain ⟨hvalid,hcall⟩ := tableCall_spec hv (hfits c List.mem_cons_self) hfresh hfound
    rw [mapRun,← hcall,ih hvalid fun c hc => hfits c (List.mem_cons_of_mem _ hc)]

section Owned

def Owned (t : Table) : Prop := ∀ p, t.heap p ≠ none → p ∈ t.order

theorem Owned.write (h : Owned t) {p : ℕ} (hp : p ∈ t.order) (e : HashEntry) : Owned (t.write p e) := by
  intro q hq
  by_cases hqp : q = p
  · exact hqp ▸ hp
  · refine h q ?_
    rwa [SubdevTable.write_heap,Function.update_of_ne hqp] at hq

theorem Owned.setType (h : Owned t) (p : ℕ) (v : UInt16) : Owned (SubdevTable.setType t p v) := by
  rw [SubdevTable.setType]
  split
  · rename_i e he
    exact h.write (h p (by rw [he]; exact Option.some_ne_none _)) _
  · exact h

theorem Owned.setFlag (h : Owned t) (p : ℕ) (v : UInt8) : Owned (SubdevTable.setFlag t p v) := by
  rw [SubdevTable.setFlag]
  split
  · rename_i e he
    exact h.write (h p (by rw [he]; exact Option.some_ne_none _)) _
  · exact h

theorem Owned.delete (h : Owned t) (p : ℕ) : Owned (SubdevTable.free (SubdevTable.hashDel t p) p) := by
  intro q hq
  have hqp : q ≠ p := fun he => hq (he ▸ Function.update_self _ _ _)
  refine (List.mem_erase_of_ne hqp).mpr (h q fun hnone => hq ?_)
  exact (Function.update_of_ne hqp _ _).trans hnone

theorem Owned.deleteAllLoop : ∀ (ps : List ℕ) {t : Table}, Owned t → Owned (SubdevTable.deleteAllLoop ps t)
  | [], _, h => h
  | p::ps, _, h => Owned.deleteAllLoop ps (h.delete p)

theorem Owned.iteratorLoop : ∀ (ps : List ℕ) {t : Table}, Owned t →
    Owned (SubdevTable.iteratorLoop ps t).1
  | [], _, h => h
  | p::ps, t, h => by
    rw [SubdevTable.iteratorLoop]
    split
    · exact Owned.iteratorLoop ps h
    · split
      · exact Owned.iteratorLoop ps (h.setFlag _ _)
      · exact Owned.iteratorLoop ps h

theorem Owned.tableCall (h : Owned t) {c : Call} (hlocked : Locked c) : Owned (tableCall t out c).1 := by
  cases c with
  | add address value malloc room lockOk =>
    obtain rfl : lockOk = true := hlocked
    cases address with
    | none => exact h
    | some a =>
      cases out with
      | none =>
        cases malloc with
        | none => exact h
        | some p =>
          intro q hq
          by_cases hqp : q = p
          · exact List.mem_append_right _ (hqp ▸ List.mem_cons_self)
          · refine List.mem_append_left _ (h q fun hnone => hq ?_)
            exact (Function.update_of_ne hqp _ _).trans hnone
      | some p => exact h.setType p value
  | find key lockOk => cases key <;> exact h
  | delete key lockOk =>
    cases key with
    | none => exact h
    | some a =>
      cases out with
      | none => exact h
      | some p =>
        cases lockOk with
        | false => exact h
        | true => exact h.delete p
  | deleteAll lockOk =>
    cases lockOk with
    | false => exact h
    | true => exact Owned.deleteAllLoop t.order h
  | findEx key lockOk =>
    cases key with
    | none => exact h
    | some a =>
      cases out with
      | none => exact h
      | some p =>
        cases lockOk with
        | false => exact h
        | true => exact h.setFlag p cloudDeviceMatch
  | iterator lockOk =>
    cases lockOk with
    | false => exact h
    | true => exact Owned.iteratorLoop t.order h
  | getKeys type list rows lockOk => exact h

theorem Owned.tableRun {cs : List Call} {rs : List Reply} {u : Table} (h : TableRun t cs rs u)
    (howned : Owned t) (hlocked : ∀ c ∈ cs, Locked c) : Owned u := by
  induction h with
  | nil t => exact howned
  | cons _ _ _ ih =>
    exact ih (howned.tableCall (hlocked _ List.mem_cons_self)) fun c hc =>
      hlocked c (List.mem_cons_of_mem _ hc)

theorem order_of_deleteAll {cs : List Call} {rs : List Reply} {u : Table}
    (h : TableRun t (cs++[.deleteAll true]) rs u) : u.order = [] := by
  induction cs generalizing t rs with
  | nil =>
    obtain _ | ⟨_,_,hrest⟩ := h
    cases hrest
    exact deleteAllLoop_order t.order t rfl
  | cons c cs ih =>
    obtain _ | ⟨_,_,hrest⟩ := h
    exact ih hrest

end Owned

end Table

theorem start_sim : Sim start Table.empty := ⟨Inv.nil _ _,fun _ => rfl⟩

variable {fuel : ℕ} {cs : List Call}

section Example

def below (size : ℕ) : Bool := decide (size < 2^36)

def addressA : CStr := ⟨[65,49],by decide⟩

/-- A device is added, its type is looked up and the addresses of the type are read. -/
def addA : Call := .add (some addressA) 5 (some 0) below true

def readA : List Call :=
  [.find (some addressA) true,.getKeys 5 [List.replicate addressMaxLen 0] 1 true]

theorem promised_addA : Promised start addA where
  short _ h := Option.some.inj h ▸ show 2 < 2^32 by decide
  fresh _ _ _ _ _ _ := rfl
  bounded _ _ _ _ _ h := by
    cases h
    exact fun size hsize => decide_eq_false hsize.not_gt
  array _ _ _ _ h := by cases h

theorem promised_of_ne_add (s : Store) {c : Call}
    (hadd : ∀ address value malloc room lockOk, c ≠ .add address value malloc room lockOk)
    (hshort : ∀ a, c.key = some a → a.strlen < 2^32)
    (harray : ∀ type list rows lockOk, c = .getKeys type list rows lockOk → 0 < rows ∧ rows ≤ list.length) :
    Promised s c where
  short := hshort
  fresh address value p room lockOk h := absurd h (hadd address value (some p) room lockOk)
  bounded address value malloc room lockOk h := absurd h (hadd address value malloc room lockOk)
  array := harray

theorem readA_ne_add : ∀ c ∈ readA, ∀ address value malloc room lockOk,
    c ≠ .add address value malloc room lockOk := by
  intro c hc address value malloc room lockOk he
  rw [he] at hc
  simp [readA] at hc

theorem promised_readA (s : Store) {c : Call} (hc : c ∈ readA) : Promised s c := by
  refine promised_of_ne_add s (readA_ne_add c hc) (fun a ha => ?_) fun type list rows lockOk he => ?_
  · rw [readA,List.mem_cons,List.mem_singleton] at hc
    rcases hc with rfl | rfl
    · obtain rfl := Option.some.inj ha
      decide
    · cases ha
  · rw [he,readA,List.mem_cons,List.mem_singleton] at hc
    rcases hc with hc | hc
    · cases hc
    · cases hc
      decide

theorem promised_deleteAll (s : Store) (lockOk : Bool) : Promised s (.deleteAll lockOk) := by
  refine promised_of_ne_add s (fun _ _ _ _ _ h => ?_) (fun _ h => ?_) fun _ _ _ _ h => ?_
  · cases h
  · cases h
  · cases h

theorem not_refused (hcs : ∀ c ∈ cs, ∀ address value malloc room lockOk,
    c ≠ .add address value malloc room lockOk) : ¬ Refused fuel start (addA::cs) := by
  rintro ⟨pre,address,value,malloc,room,lockOk,post,s',he,hexec,size,hasks,hroom⟩
  cases pre with
  | nil =>
    obtain ⟨hadd,-⟩ := List.cons.inj he
    cases hadd
    cases hexec
    rcases hasks with ⟨-,rfl | rfl⟩ | ⟨t,-,ht,-⟩
    · exact absurd hroom (by decide)
    · exact absurd hroom (by decide)
    · cases ht
  | cons q pre =>
    obtain ⟨-,hpost⟩ := List.cons.inj he
    exact hcs _ (by rw [hpost]; simp) address value malloc room lockOk rfl

theorem meets_readA : Meets (step fuel) Promised start (addA::readA) :=
  ⟨promised_addA,fun s _ => ⟨promised_readA s (by simp [readA]),fun s' _ =>
    ⟨promised_readA s' (by simp [readA]),fun _ _ => trivial⟩⟩⟩

end Example

end SubdevUthashRun
end IotBase
