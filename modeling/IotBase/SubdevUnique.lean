import IotBase.SubdevKeys
import IotBase.LabelledRun

/-! Runs of additions and deletions with addresses of any length. The search for a
known address uses all of it, the entry keeps what fits its field. -/
namespace IotBase
namespace SubdevUnique
open RawBytes CString OrderedTable SubdevTable SubdevRefinement SubdevKeys LabelledRun

/-- A call with what the system answers it: the cell of `malloc`, whether the lock is taken. -/
inductive Call
  | add (address : CStr) (type : UInt16) (malloc : Option ℕ) (lockOk : Bool)
  | delete (address : CStr) (lockOk : Bool)

/-- The table after a call; `malloc` returns no cell that is in use. -/
def step (t : Table) : Call → Option Table
  | .add address type malloc lockOk =>
    if (malloc.bind t.heap).isNone then
      some (subdevAddressHashAdd t (some address) type malloc lockOk).1
    else none
  | .delete address lockOk => some (subdevAddressHashDelete t (some address) lockOk).1

def addresses (t : Table) : List Bytes := t.entries.map HashEntry.address

def cut (a : CStr) : CStr where
  bytes := a.bytes.take (addressMaxLen-1)
  nul_free := fun h => a.nul_free (List.mem_of_mem_take h)

/-- No two entries hold the same address field, the iterator reports no address twice and
`get_keys` copies no address into two rows. -/
structure NoDuplicates (t : Table) : Prop where
  fields : (addresses t).Nodup
  reports : ∀ lockOk, (subdevAddressHashIterator t lockOk).2.Nodup
  keys : ∀ (type : UInt16) (list : ℕ → Bytes) (rows : ℤ) (lockOk : Bool) (i j : ℕ),
    (∀ k, (list k).length = addressMaxLen) → i < j →
    j < (subdevAddressHashGetKeys t type list rows lockOk).2 →
    ((subdevAddressHashGetKeys t type list rows lockOk).1 i).take (addressMaxLen-1) ≠
      ((subdevAddressHashGetKeys t type list rows lockOk).1 j).take (addressMaxLen-1)

/-- An addition that links an entry does not cut its address down to a stored one. -/
def NotCutToStored (t : Table) : Call → Prop
  | .add address _ malloc lockOk => malloc.isSome = true → lockOk = true →
      addressMaxLen ≤ address.strlen → cut address ∉ t.entries.map HashEntry.key
  | .delete _ _ => True

/-- Well-formed links, and fields as `subdev_address_hash_add` fills them. -/
structure Inv (t : Table) : Prop where
  valid : Valid t
  padded : ∀ b ∈ addresses t, ∃ a : CStr, a.strlen < addressMaxLen ∧ b = (newEntry a 0).address

theorem cut_strlen (a : CStr) : (cut a).strlen < addressMaxLen := by
  have h : (cut a).strlen = min (addressMaxLen-1) a.strlen := List.length_take
  have h17 : addressMaxLen = 17 := rfl
  omega

theorem cut_of_short {a : CStr} (h : a.strlen < addressMaxLen) : cut a = a :=
  CStr.ext_bytes (List.take_of_length_le (Nat.le_sub_one_of_lt h))

theorem takeD_take (l : Bytes) (n : ℕ) : (l.take n).takeD n 0 = l.takeD n 0 := by
  induction n generalizing l with
  | zero => rfl
  | succ n ih =>
    cases l with
    | nil => rfl
    | cons c l => simp [List.takeD_succ,ih]

theorem newEntry_address_cut (a : CStr) (v : UInt16) :
    (newEntry a v).address = (newEntry (cut a) 0).address := by
  simp only [newEntry,strncpy,cut,takeD_take]

theorem newEntry_key_cut (a : CStr) (v : UInt16) : (newEntry a v).key = cut a := by
  rw [← newEntry_key 0 (cut_strlen a)]
  exact CStr.ext_bytes (congrArg fieldStr (newEntry_address_cut a v))

theorem key_of_padded {e : HashEntry} {a : CStr} (ha : a.strlen < addressMaxLen)
    (h : e.address = (newEntry a 0).address) : e.key = a := by
  rw [← newEntry_key 0 ha]
  exact CStr.ext_bytes (congrArg fieldStr h)

namespace Inv
variable {t : Table}

theorem address_eq (h : Inv t) {e : HashEntry} (he : e ∈ t.entries) :
    e.address = (newEntry e.key 0).address ∧ e.key.strlen < addressMaxLen := by
  obtain ⟨a,ha,haddr⟩ := h.padded e.address (List.mem_map_of_mem he)
  rw [key_of_padded ha haddr]
  exact ⟨haddr,ha⟩

theorem fields_nodup (h : Inv t) : (addresses t).Nodup := by
  have hkeys : (t.entries.map HashEntry.key).Nodup := h.valid.distinct
  have hsplit : t.entries.map HashEntry.key =
      (addresses t).map fun b => ⟨fieldStr b,nul_notMem_fieldStr b⟩ := by
    rw [addresses,List.map_map]
    rfl
  rw [hsplit] at hkeys
  exact hkeys.of_map

theorem reports_nodup (h : Inv t) (lockOk : Bool) : (subdevAddressHashIterator t lockOk).2.Nodup := by
  cases lockOk with
  | false => exact List.nodup_nil
  | true =>
    have hsweep := congrArg Prod.snd (iterator_spec h.valid).2.2
    simp only [mapSweep] at hsweep
    rw [hsweep]
    exact h.valid.addresses_nodup.sublist (List.filter_sublist.map _)

theorem keysFrom_nodup (h : Inv t) (type : UInt16) (n : ℤ) :
    (keysFrom type n 0 (devices t)).Nodup := by
  have hall : ((devices t).filter fun d => decide (d.type = type)).map Device.address |>.Nodup :=
    h.valid.addresses_nodup.sublist (List.filter_sublist.map _)
  rw [keysFrom]
  split
  · exact hall.sublist (List.take_sublist _ _)
  · exact hall

theorem fieldStr_row {row : Bytes} {a : CStr} (hrow : row.length = addressMaxLen)
    (ha : a.strlen < addressMaxLen) :
    fieldStr ((strncpy row a (addressMaxLen-1)).take (addressMaxLen-1)) = a.bytes := by
  have h17 : addressMaxLen = 17 := rfl
  have hlen : (a.bytes ++ List.replicate (addressMaxLen-1-a.strlen) 0).length = addressMaxLen-1 := by
    have hbytes : a.bytes.length = a.strlen := rfl
    rw [List.length_append,List.length_replicate]
    omega
  rw [strncpy_fits (by omega) (by omega),List.take_left' hlen]
  exact fieldStr_append_replicate _ a.nul_free

theorem rows_distinct (h : Inv t) (type : UInt16) {list : ℕ → Bytes} (rows : ℤ) {i j : ℕ}
    (hlist : ∀ k, (list k).length = addressMaxLen) (hij : i < j)
    (hj : j < (subdevAddressHashGetKeys t type list rows true).2) :
    ((subdevAddressHashGetKeys t type list rows true).1 i).take (addressMaxLen-1) ≠
      ((subdevAddressHashGetKeys t type list rows true).1 j).take (addressMaxLen-1) := by
  have hnodup := h.keysFrom_nodup type rows
  rw [getKeys_spec,mapKeys] at hj ⊢
  simp only at hj ⊢
  have hshort : ∀ a ∈ keysFrom type rows 0 (devices t), a.strlen < addressMaxLen := by
    intro a ha
    have hmem : a ∈ (devices t).map Device.address := by
      have hsub : (keysFrom type rows 0 (devices t)).Sublist ((devices t).map Device.address) := by
        rw [keysFrom]
        split
        · exact (List.take_sublist _ _).trans (List.filter_sublist.map _)
        · exact List.filter_sublist.map _
      exact hsub.subset ha
    obtain ⟨d,hd,rfl⟩ := List.mem_map.mp hmem
    obtain ⟨e,he,rfl⟩ := List.mem_map.mp hd
    exact (h.address_eq he).2
  generalize keysFrom type rows 0 (devices t) = m at hj hnodup hshort ⊢
  have hj' : j < m.length := Int.ofNat_lt.mp hj
  have hi' : i < m.length := hij.trans hj'
  have hrow : ∀ k (hk : k < m.length),
      fieldStr ((fillKeys list 0 m k).take (addressMaxLen-1)) = m[k].bytes := by
    intro k hk
    have hfill : fillKeys list 0 m (0+k) = _ := fillKeys_at (List.getElem?_eq_getElem hk)
    rw [Nat.zero_add] at hfill
    rw [hfill]
    exact fieldStr_row (hlist k) (hshort _ (List.getElem_mem hk))
  intro heq
  have hsame : m[i] = m[j] := CStr.ext_bytes (by rw [← hrow i hi',heq,hrow j hj'])
  have hidx : i = j := hnodup.getElem_inj_iff.mp hsame
  omega

theorem noDuplicates (h : Inv t) : NoDuplicates t where
  fields := h.fields_nodup
  reports := h.reports_nodup
  keys := by
    intro type list rows lockOk i j hlist hij hj
    cases lockOk with
    | true => exact h.rows_distinct type rows hlist hij hj
    | false =>
      have hfail : (subdevAddressHashGetKeys t type list rows false).2 = -1 := rfl
      omega

end Inv

theorem empty_inv : Inv Table.empty where
  valid := empty_valid
  padded := by simp [addresses,Table.entries,Table.empty,rows]

theorem Inv.of_sublist {t u : Table} (h : Inv t) (hv : Valid u)
    (hs : (addresses u).Sublist (addresses t)) : Inv u where
  valid := hv
  padded := fun b hb => h.padded b (hs.subset hb)

theorem setType_addresses {t : Table} {a : CStr} {p : ℕ} (hv : Valid t) (hp : LinkedAt t p a)
    (v : UInt16) : addresses (setType t p v) = addresses t := by
  obtain ⟨hmem,e,he,rfl⟩ := hp
  have hrows := hv.rows_update hmem he fun e => {e with type := v}
  simp only [setType,he]
  rw [addresses,Table.entries,write_order,write_heap,hrows,OrderedTable.modify]
  refine map_key_map (fun e' => ?_) _
  split <;> rfl

theorem write_unlinked {t : Table} {p : ℕ} (hv : Valid t) (hp : t.heap p = none) (e : HashEntry) :
    p ∉ t.order ∧ (t.write p e).entries = t.entries ∧ Valid (t.write p e) := by
  have hmem : p ∉ t.order := fun hmem => by
    obtain ⟨e',he'⟩ := hv.alloc p hmem
    rw [hp] at he'
    cases he'
  refine ⟨hmem,?_,hv.update_unlinked hmem _⟩
  rw [Table.entries,write_order,write_heap,rows_update_unlinked hmem]
  rfl

theorem add_links {t : Table} {a : CStr} (v : UInt16) {p : ℕ} (hv : Valid t)
    (hf : hashFindStr t a = none) (hp : t.heap p = none) :
    addresses (subdevAddressHashAdd t (some a) v (some p) true).1 =
      addresses t ++ [(newEntry a v).address] ∧
    (cut a ∉ t.entries.map HashEntry.key →
      Valid (subdevAddressHashAdd t (some a) v (some p) true).1) := by
  obtain ⟨hmem,hsame,hunlinked⟩ := write_unlinked hv hp (newEntry a v)
  have hcell : (t.write p (newEntry a v)).heap p = some (newEntry a v) :=
    Function.update_self _ _ _
  simp only [subdevAddressHashAdd,addLookup,hf,addLocked,if_true]
  refine ⟨?_,fun hcut => hunlinked.concat hmem hcell ?_⟩
  · rw [addresses,Table.entries,hashAddStr,rows_concat hcell,List.map_append]
    exact congrArg (·.map HashEntry.address ++ _) hsame
  · rw [newEntry_key_cut]
    exact fun hin => hcut (by rwa [← hsame])

theorem step_cases {t u : Table} {l : Call} (hv : Valid t) (h : step t l = some u) :
    (Valid u ∧ (addresses u).Sublist (addresses t)) ∨
      ∃ a v p, l = .add a v (some p) true ∧ hashFindStr t a = none ∧ t.heap p = none ∧
        u = (subdevAddressHashAdd t (some a) v (some p) true).1 := by
  cases l with
  | delete a lockOk =>
    left
    simp only [step,Option.some.injEq] at h
    subst h
    cases hf : hashFindStr t a with
    | none =>
      simp only [subdevAddressHashDelete,hf]
      exact ⟨hv,List.Sublist.refl _⟩
    | some p =>
      simp only [subdevAddressHashDelete,hf]
      split
      · obtain ⟨hdel,-,hgone⟩ := hashDel_spec hv (linkedAt_of_find hf)
        have hentries : (free (hashDel t p) p).entries = rows t.heap (t.order.erase p) := by
          rw [Table.entries,free_order,free,rows_update_unlinked hgone]
          rfl
        refine ⟨(free_spec hdel hgone).1,?_⟩
        rw [addresses,hentries]
        exact (List.erase_sublist.filterMap t.heap).map _
      · exact ⟨hv,List.Sublist.refl _⟩
  | add a v malloc lockOk =>
    simp only [step] at h
    split at h
    · rename_i hfresh
      cases h
      cases hf : hashFindStr t a with
      | some p =>
        left
        simp only [subdevAddressHashAdd,addLookup,hf,addLocked]
        split
        · have hp := linkedAt_of_find hf
          exact ⟨(setType_spec hv hp v).1,by rw [setType_addresses hv hp]⟩
        · exact ⟨hv,List.Sublist.refl _⟩
      | none =>
        cases malloc with
        | none =>
          left
          simp only [subdevAddressHashAdd,addLookup,hf,addLocked]
          exact ⟨hv,List.Sublist.refl _⟩
        | some p =>
          have hp : t.heap p = none := by simpa using hfresh
          cases lockOk with
          | false =>
            left
            obtain ⟨-,hsame,hunlinked⟩ := write_unlinked hv hp (newEntry a v)
            have hleak : (subdevAddressHashAdd t (some a) v (some p) false).1 =
                t.write p (newEntry a v) := by
              simp [subdevAddressHashAdd,addLookup,hf,addLocked]
            rw [hleak,addresses,hsame]
            exact ⟨hunlinked,List.Sublist.refl _⟩
          | true => exact Or.inr ⟨a,v,p,rfl,hf,hp,rfl⟩
    · cases h

theorem step_inv {t u : Table} {l : Call} (h : Inv t) (hc : NotCutToStored t l)
    (hstep : step t l = some u) : Inv u := by
  rcases step_cases h.valid hstep with ⟨hv,hs⟩ | ⟨a,v,p,rfl,hf,hp,rfl⟩
  · exact h.of_sublist hv hs
  · obtain ⟨haddr,hv⟩ := add_links v h.valid hf hp
    refine ⟨hv fun hmem => ?_,fun b hb => ?_⟩
    · by_cases ha : a.strlen < addressMaxLen
      · rw [cut_of_short ha] at hmem
        exact lookup_eq_none.mp (find_eq_none.mpr hf) hmem
      · exact hc rfl rfl (by omega) hmem
    · rw [haddr] at hb
      rcases List.mem_append.mp hb with hb | hb
      · exact h.padded b hb
      · exact ⟨cut a,cut_strlen a,by rw [List.mem_singleton.mp hb,newEntry_address_cut]⟩

/-- A call that cuts an address down to a stored one stores it twice. -/
theorem notCutToStored_of_nodup {t u : Table} {l : Call} (h : Inv t) (hstep : step t l = some u)
    (hu : (addresses u).Nodup) : NotCutToStored t l := by
  cases l with
  | delete a lockOk => trivial
  | add a v malloc lockOk =>
    intro hm hl ha hmem
    obtain ⟨p,rfl⟩ := Option.isSome_iff_exists.mp hm
    subst hl
    have hf : hashFindStr t a = none := by
      refine find_eq_none.mp (lookup_eq_none.mpr fun hin => ?_)
      obtain ⟨e,he,rfl⟩ := List.mem_map.mp hin
      have hshort := (h.address_eq he).2
      omega
    simp only [step] at hstep
    split at hstep
    · rename_i hfresh
      cases hstep
      rw [(add_links v h.valid hf (by simpa using hfresh)).1,newEntry_address_cut] at hu
      obtain ⟨e,he,hkey⟩ := List.mem_map.mp hmem
      have haddr := (h.address_eq he).1
      rw [hkey] at haddr
      exact (List.nodup_append.mp hu).2.2 _ (List.mem_map_of_mem he) _ (by simp) haddr
    · cases hstep

theorem meets_of_short {ls : List Call}
    (h : ∀ a v malloc lockOk, .add a v malloc lockOk ∈ ls → a.strlen < addressMaxLen) (t : Table) :
    Meets step NotCutToStored t ls := by
  induction ls generalizing t with
  | nil => trivial
  | cons l ls ih =>
    refine ⟨?_,fun u _ => ih (fun a v m k hmem => h a v m k (List.mem_cons_of_mem _ hmem)) u⟩
    cases l with
    | delete a lockOk => trivial
    | add a v malloc lockOk =>
      intro _ _ hlong
      have hshort := h a v malloc lockOk List.mem_cons_self
      omega

/-- Addresses stay unique through a run exactly when none of its additions cuts an address of
more than 16 characters down to one that is stored. -/
theorem addresses_unique_iff (ls : List Call) {u : Table} (hu : exec step Table.empty ls = some u) :
    Meets step NotCutToStored Table.empty ls ↔
      ∀ pre t, pre <+: ls → exec step Table.empty pre = some t → NoDuplicates t :=
  meets_iff_forall_reached (fun _ _ _ h hc hs => step_inv h hc hs) (fun _ h => h.noDuplicates)
    (fun _ _ _ h hs hu => notCutToStored_of_nodup h hs hu.fields) empty_inv hu

def longAddress : CStr := ⟨List.replicate 17 48,by decide⟩

def joinTwice : List Call := [.add longAddress 1203 (some 0) true,.add longAddress 1203 (some 1) true]

/-- A device with an address of 16 characters joins, joins again and leaves. -/
def joinAndLeave : List Call := [.add zigbeeAddress 1203 (some 0) true,
  .add zigbeeAddress 1204 (some 1) true,.delete zigbeeAddress true]

theorem joinAndLeave_unique : ∃ u, exec step Table.empty joinAndLeave = some u ∧
    ∀ pre t, pre <+: joinAndLeave → exec step Table.empty pre = some t → NoDuplicates t := by
  obtain ⟨u,hu⟩ : ∃ u, exec step Table.empty joinAndLeave = some u :=
    Option.isSome_iff_exists.mp (by decide +kernel)
  refine ⟨u,hu,(addresses_unique_iff joinAndLeave hu).mp (meets_of_short ?_ _)⟩
  rintro a v malloc lockOk hmem
  simp only [joinAndLeave,List.mem_cons,Call.add.injEq,List.not_mem_nil,or_false] at hmem
  rcases hmem with ⟨rfl,-⟩ | ⟨rfl,-⟩ | hmem
  · decide
  · decide
  · cases hmem

theorem joinTwice_duplicates : ∃ t, exec step Table.empty joinTwice = some t ∧ ¬ NoDuplicates t := by
  have hany : (exec step Table.empty joinTwice).any
      (fun t => decide (¬ (addresses t).Nodup)) = true := by decide +kernel
  obtain ⟨t,ht,hdup⟩ := (Option.any_eq_true _ _).mp hany
  exact ⟨t,ht,fun h => of_decide_eq_true hdup h.fields⟩

end SubdevUnique
end IotBase
