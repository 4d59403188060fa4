import IotBase.MapfileSet

/-! The shape of the rows along whole runs. Sets keep the live slots in front and their names
apart; a deletion does so exactly when it leaves no live slot behind one it clears. Along such
runs a set fails only where the row is taken by other stored keys. -/
namespace IotBase
namespace MapfileCompact
open RawBytes CString MapfileItem MapfileStore MapfileFile MapfileRow KeyedHistory LabelledRun
open MapfileRefinement (Key Op Run fresh refines_fresh call_set call_set_full call_del keyAB keyBA
  oneByte set_both_eq hole_eq step_set_eq insertItem_keyAB_name insertItem_keyBA_name)
open MapfileSet (Full full_iff_name set_fail_iff)

def Compact (row : List KvItem) : Prop :=
  ∀ pre p post, row = pre ++ p::post → ¬ p.Live → ∀ q ∈ post, ¬ q.Live

def Distinct (row : List KvItem) : Prop :=
  ∀ pre p post, row = pre ++ p::post → p.Live → ∀ q ∈ post, q.Live → q.name ≠ p.name

/-- Behind a slot that a deletion of `key` clears there are only slots that it clears too. -/
def RmTail (key : CStr) (row : List KvItem) : Prop :=
  ∀ pre p post, row = pre ++ p::post → p.Live → key.bytes <+: p.name →
    ∀ q ∈ post, q.Live → key.bytes <+: q.name

def DelsTail (s : Run) : Op → Prop
  | .del key => RmTail key (s.row key)
  | _ => True

theorem RowOk.compact {i : ℕ} {row : List KvItem} (h : RowOk i row) : Compact row := by
  induction row with
  | nil =>
    intro pre p post he
    simp at he
  | cons q rest ih =>
    intro pre p post he hp
    rcases h with ⟨hq,_,hrest⟩ | hz
    · cases pre with
      | nil =>
        cases he
        exact absurd hq.live hp
      | cons q' pre =>
        cases he
        exact ih hrest pre p post rfl hp
    · intro r hr
      rw [hz r (by rw [he]; simp [hr])]
      exact zeroItem_not_live

theorem RowOk.distinct {i : ℕ} {row : List KvItem} (h : RowOk i row) : Distinct row := by
  induction row with
  | nil =>
    intro pre p post he
    simp at he
  | cons q rest ih =>
    intro pre p post he hp r hr hrlive hname
    rcases h with ⟨_,hlater,hrest⟩ | hz
    · cases pre with
      | nil =>
        cases he
        exact hlater r hr hrlive (by rw [hname])
      | cons q' pre =>
        cases he
        exact ih hrest pre p post rfl hp r hr hrlive hname
    · rw [hz p (by rw [he]; simp)] at hp
      exact zeroItem_not_live hp

theorem RmTail.tail {key : CStr} {p : KvItem} {rest : List KvItem} (h : RmTail key (p::rest)) :
    RmTail key rest := by
  intro pre q post he
  exact h (p::pre) q post (by rw [he]; rfl)

section Loops

variable {i : ℕ} {key : CStr}

section rm
variable (hk : key.strlen ≤ itemMaxKeyLen)
include hk

theorem rmLoop_hit {p : KvItem} (rest : List KvItem) (hp : p.Live) (hm : key.bytes <+: p.name) :
    rmLoop key (p::rest) = zeroItem::rmLoop key rest := by
  simp [rmLoop,hp,(keyMatches_iff rest hk).mpr hm]

theorem rmLoop_miss {p : KvItem} (rest : List KvItem) (hp : p.Live) (hm : ¬ key.bytes <+: p.name) :
    rmLoop key (p::rest) = p::rmLoop key rest := by
  simp [rmLoop,hp,keyMatches_eq_false rest hk hm]

/-- In a row in order the deletion reaches every slot: what it leaves live are the old live
slots whose names do not start with the key. -/
theorem mem_rmLoop_live {row : List KvItem} (hrow : RowOk i row) {q : KvItem} :
    q ∈ rmLoop key row ∧ q.Live ↔ q ∈ row ∧ q.Live ∧ ¬ key.bytes <+: q.name := by
  induction row with
  | nil => simp [rmLoop]
  | cons p rest ih =>
    rcases hrow with ⟨hp,_,hrest⟩ | hz
    · by_cases hm : key.bytes <+: p.name
      · rw [rmLoop_hit hk rest hp.live hm,List.mem_cons,List.mem_cons,or_and_right,or_and_right,
          ih hrest]
        have hzero : ¬ (q = zeroItem ∧ q.Live) := by
          rintro ⟨rfl,hq⟩
          exact zeroItem_not_live hq
        have hhit : ¬ (q = p ∧ q.Live ∧ ¬ key.bytes <+: q.name) := by
          rintro ⟨rfl,-,hq⟩
          exact hq hm
        simp only [hzero,hhit,false_or]
      · rw [rmLoop_miss hk rest hp.live hm,List.mem_cons,List.mem_cons,or_and_right,or_and_right,
          ih hrest]
        have hkept : q = p ∧ q.Live ↔ q = p ∧ q.Live ∧ ¬ key.bytes <+: q.name := by
          constructor
          · rintro ⟨rfl,hq⟩
            exact ⟨rfl,hq,hm⟩
          · rintro ⟨rfl,hq,-⟩
            exact ⟨rfl,hq⟩
        rw [hkept]
    · have hdead := not_live_of_zero hz
      rw [rmLoop_dead hdead]
      exact ⟨fun h => absurd h.2 (hdead q h.1),fun h => absurd h.2.1 (hdead q h.1)⟩

theorem rmLoop_zero {row : List KvItem} (hrow : RowOk i row)
    (hall : ∀ q ∈ row, q.Live → key.bytes <+: q.name) : ∀ q ∈ rmLoop key row, q = zeroItem := by
  induction row with
  | nil => simp [rmLoop]
  | cons p rest ih =>
    rcases hrow with ⟨hp,_,hrest⟩ | hz
    · rw [rmLoop_hit hk rest hp.live (hall p (by simp) hp.live)]
      exact List.forall_mem_cons.mpr ⟨rfl,ih hrest fun q hq => hall q (by simp [hq])⟩
    · rw [rmLoop_dead (not_live_of_zero hz)]
      exact hz

theorem rmLoop_rowOk {row : List KvItem} (hrow : RowOk i row) (htail : RmTail key row) :
    RowOk i (rmLoop key row) := by
  induction row with
  | nil => trivial
  | cons p rest ih =>
    rcases hrow with ⟨hp,hlater,hrest⟩ | hz
    · by_cases hm : key.bytes <+: p.name
      · have hall := htail [] p rest rfl hp.live hm
        rw [rmLoop_hit hk rest hp.live hm]
        exact rowOk_of_zero i (List.forall_mem_cons.mpr ⟨rfl,rmLoop_zero hk hrest hall⟩)
      · rw [rmLoop_miss hk rest hp.live hm]
        exact Or.inl ⟨hp,fun q hq hlive => hlater q (rmLoop_live q hq hlive) hlive,
          ih hrest htail.tail⟩
    · rw [rmLoop_dead (not_live_of_zero hz)]
      exact Or.inr hz

theorem rmTail_of_compact {row : List KvItem} (hrow : RowOk i row)
    (hc : Compact (rmLoop key row)) : RmTail key row := by
  induction row with
  | nil =>
    intro pre p post he
    simp at he
  | cons p rest ih =>
    rcases hrow with ⟨hp,_,hrest⟩ | hz
    · have hrestCompact : Compact (rmLoop key rest) := by
        intro pre q post he
        by_cases hm : key.bytes <+: p.name
        · exact hc (zeroItem::pre) q post (by rw [rmLoop_hit hk rest hp.live hm,he]; rfl)
        · exact hc (p::pre) q post (by rw [rmLoop_miss hk rest hp.live hm,he]; rfl)
      intro pre q post he hq hm r hr hrlive
      cases pre with
      | nil =>
        cases he
        by_contra hn
        have hleft := (mem_rmLoop_live hk hrest).mpr ⟨hr,hrlive,hn⟩
        exact hc [] zeroItem _ (rmLoop_hit hk _ hq hm) zeroItem_not_live r hleft.1 hrlive
      | cons q' pre =>
        cases he
        exact ih hrest hrestCompact pre q post rfl hq hm r hr hrlive
    · intro pre q post he hq
      rw [hz q (by rw [he]; simp)] at hq
      exact absurd hq zeroItem_not_live

end rm

end Loops

def nameStr (p : KvItem) : CStr := ⟨p.name,nul_notMem_fieldStr p.key⟩

/-- A set of the key succeeded and nothing has removed it since. -/
def Present (s : Run) (key : CStr) : Prop := (read s.history key).isSome = true

structure Inv (s : Run) (file : Bytes) : Prop where
  disk : s.disk = some file
  length : file.length = fileLen
  rows : ∀ i < tableColSize, RowOk i (rowAt file i)
  present : ∀ i < tableColSize, ∀ p ∈ rowAt file i, p.Live → Present s (nameStr p)

section Runs

variable {s : Run} {file : Bytes}

theorem Inv.fits (h : Inv s file) {i : ℕ} (hi : i < tableColSize) : rowOff i+rowLen ≤ file.length := by
  rw [h.length]
  exact row_fits hi

theorem Inv.row_eq (h : Inv s file) (key : CStr) : s.row key = rowAt file (hashGen key) := by
  rw [Run.row,h.disk]
  rfl

theorem zero_inv (history : List (Event CStr Value)) :
    Inv ⟨some (List.replicate fileLen 0),history⟩ (List.replicate fileLen 0) where
  disk := rfl
  length := List.length_replicate
  rows := refines_fresh.rows
  present := by
    intro i hi p hp hlive
    rw [rowAt_zero hi] at hp
    rw [List.eq_of_mem_replicate hp] at hlive
    exact absurd hlive zeroItem_not_live

theorem fresh_inv : Inv fresh (List.replicate fileLen 0) := by
  have hz := zero_inv []
  rwa [← MapfileRefinement.fresh_eq] at hz

theorem Inv.putRow (h : Inv s file) (key : Key) {history : List (Event CStr Value)}
    (hread : ∀ k ≠ key.1, read history k = read s.history k) {row : List KvItem}
    (hlen : row.length = tableRowSize) (hrow : RowOk (hashGen key) row)
    (hpresent : ∀ p ∈ row, p.Live → (read history (nameStr p)).isSome = true) :
    Inv ⟨some (putRow file (hashGen key) row),history⟩ (putRow file (hashGen key) row) where
  disk := rfl
  length := by rw [putRow_length,h.length]
  rows := forall_rows_putRow h.length (hashGen_lt key) hlen hrow fun i hi _ => h.rows i hi
  present := by
    refine forall_rows_putRow (P:=fun _ row => ∀ p ∈ row, p.Live →
      (read history (nameStr p)).isSome = true) h.length (hashGen_lt key) hlen hpresent
      fun i hi hik p hp hlive => ?_
    have hne : nameStr p ≠ key.1 := by
      intro he
      have hhash : hashGen (nameStr p) = i := ((h.rows i hi).slotOk hp hlive).hash
      rw [he] at hhash
      exact hik hhash.symm
    rw [hread _ hne]
    exact h.present i hi p hp hlive

theorem read_put_of_ne (history : List (Event CStr Value)) (key : Key) (value : Value) {k : CStr}
    (hk : k ≠ key.1) : read (history++[.put key value]) k = read history k := by
  rw [read_concat,Event.apply,Function.update_of_ne hk]

theorem read_erase_of_ne (history : List (Event CStr Value)) (key : Key) {k : CStr}
    (hk : k ≠ key.1) : read (history++[.erase key]) k = read history k := by
  rw [read_concat,Event.apply,Function.update_of_ne hk]

theorem Inv.unchanged (h : Inv s file) : Inv ⟨s.disk,s.history++[]⟩ file := by
  rw [List.append_nil]
  exact h

theorem set_inv (h : Inv s file) (key : Key) (value : Value) :
    ∃ file', Inv (s.step (.set key value)) file' := by
  have hfit := h.fits (hashGen_lt key)
  by_cases hv : 0 < value.len
  · cases hput : putLoop key value (rowAt file (hashGen key)) with
    | none =>
      have hcall := call_set_full key value hfit hput
      rw [← h.disk] at hcall
      exact ⟨file,by simpa only [Run.step,hcall,Op.event,Option.toList_none] using h.unchanged⟩
    | some row =>
      have hcall := call_set key value hfit hv hput
      rw [← h.disk] at hcall
      have hrow := h.rows _ (hashGen_lt key)
      refine ⟨putRow file (hashGen key) row,?_⟩
      simp only [Run.step,hcall,Op.event,Option.toList_some]
      refine h.putRow key (fun k hk => read_put_of_ne _ _ _ hk)
        (by rw [putLoop_length hput,rowAt_length]) (putLoop_rowOk key.2 hv hrow hput) ?_
      intro p hp hlive
      by_cases hname : nameStr p = key.1
      · rw [hname,read_concat,Event.apply,Function.update_self]
        rfl
      · rw [read_put_of_ne _ _ _ hname]
        rcases putLoop_names key.2 hrow hput p hp hlive with hn | ⟨r,hr,hrlive,hrn⟩
        · exact absurd (CStr.ext_bytes hn) hname
        · have hold := h.present _ (hashGen_lt key) r hr hrlive
          have hsame : nameStr r = nameStr p := CStr.ext_bytes hrn
          rwa [hsame] at hold
  · have hcall : (Op.set key value).call s.disk = (s.disk,.fail) := by
      simp [Op.call,mapfileKvSet,kvSet,not_lt.mp hv]
    exact ⟨file,by simpa only [Run.step,hcall,Op.event,Option.toList_none] using h.unchanged⟩

theorem del_step_eq (h : Inv s file) (key : Key) : s.step (.del key) =
    ⟨some (MapfileStore.putRow file (hashGen key) (rmLoop key (rowAt file (hashGen key)))),
      s.history++[.erase key]⟩ := by
  have hcall := call_del key (h.fits (hashGen_lt key)) rfl
  rw [← h.disk] at hcall
  simp only [Run.step,hcall,Op.event,Option.toList_some]

theorem del_inv (h : Inv s file) (key : Key) (hC : DelsTail s (.del key)) :
    ∃ file', Inv (s.step (.del key)) file' := by
  have htail : RmTail key (s.row key) := hC
  rw [h.row_eq] at htail
  have hrow := h.rows _ (hashGen_lt key)
  have hlen := rowAt_length file (hashGen key)
  have hpresent := h.present _ (hashGen_lt key)
  have hk : key.1.strlen ≤ itemMaxKeyLen := Nat.le_of_lt key.2
  rw [del_step_eq h key]
  generalize rowAt file (hashGen key) = row at htail hrow hlen hpresent
  refine ⟨_,h.putRow key (fun k hk => read_erase_of_ne _ _ hk) (by rw [rmLoop_length,hlen])
    (rmLoop_rowOk hk hrow htail) ?_⟩
  intro p hp hlive
  obtain ⟨hold,-,hmiss⟩ := (mem_rmLoop_live hk hrow).mp ⟨hp,hlive⟩
  have hname : nameStr p ≠ key.1 := by
    intro he
    have hbytes : p.name = key.1.bytes := congrArg CStr.bytes he
    exact hmiss (by rw [hbytes])
  rw [read_erase_of_ne _ _ hname]
  exact hpresent p hold hlive

theorem step_inv (h : ∃ file, Inv s file) {op : Op} (hC : DelsTail s op) :
    ∃ file, Inv (s.step op) file := by
  obtain ⟨file,h⟩ := h
  cases op with
  | set key value => exact set_inv h key value
  | get key len =>
    have hevent : ∀ r, (Op.get key len).event r = none := fun r => by cases r <;> rfl
    exact ⟨file,by simpa only [Run.step,Op.call,hevent,Option.toList_none] using h.unchanged⟩
  | del key => exact del_inv h key hC
  | emp =>
    have hcall : Op.emp.call s.disk = (some (List.replicate fileLen 0),.ok) := by
      simp [Op.call,mapfileKvEmp]
    refine ⟨List.replicate fileLen 0,?_⟩
    rw [Run.step,hcall]
    exact zero_inv _

def Sound (s : Run) : Prop := ∀ i < tableColSize,
  Compact (rowAt (s.disk.getD []) i) ∧ Distinct (rowAt (s.disk.getD []) i)

theorem Inv.sound (h : Inv s file) : Sound s := by
  intro i hi
  rw [h.disk,Option.getD_some]
  exact ⟨RowOk.compact (h.rows i hi),RowOk.distinct (h.rows i hi)⟩

/-- A deletion that leaves sound rows has left no hole. -/
theorem delsTail_of_sound (h : Inv s file) {op : Op} (ht : Sound (s.step op)) : DelsTail s op := by
  cases op with
  | set key value => trivial
  | get key len => trivial
  | emp => trivial
  | del key =>
    have hrow := h.rows _ (hashGen_lt key)
    have hlen := rowAt_length file (hashGen key)
    have hk : key.1.strlen ≤ itemMaxKeyLen := Nat.le_of_lt key.2
    have hc := (ht _ (hashGen_lt key)).1
    rw [del_step_eq h key,Option.getD_some,rowAt_putRow_self (h.fits (hashGen_lt key))
      (by rw [rmLoop_length,hlen])] at hc
    show RmTail key (s.row key)
    rw [h.row_eq]
    generalize rowAt file (hashGen key) = row at hrow hc
    exact rmTail_of_compact hk hrow hc

/-- Along a run the rows stay compact and free of duplicates in every state exactly when every
deletion that clears a slot clears the live slots behind it too. -/
theorem rows_compact_iff (ops : List Op) :
    Meets (fun s op => some (Run.step s op)) DelsTail fresh ops ↔
      ∀ pre, pre <+: ops → ∀ i < tableColSize,
        Compact (rowAt ((pre.foldl Run.step fresh).disk.getD []) i) ∧
        Distinct (rowAt ((pre.foldl Run.step fresh).disk.getD []) i) := by
  have hiff : Meets (fun s op => some (Run.step s op)) DelsTail fresh ops ↔
      ∀ pre t, pre <+: ops → exec (fun s op => some (Run.step s op)) fresh pre = some t → Sound t :=
    meets_iff_forall_reached (I:=fun s => ∃ file, Inv s file)
    (fun s op t h hC ht => by
      cases ht
      exact step_inv h hC)
    (fun s h => h.choose_spec.sound)
    (fun s op t h ht hsound => by
      cases ht
      exact delsTail_of_sound h.choose_spec hsound)
    ⟨_,fresh_inv⟩ (exec_total Run.step fresh ops)
  rw [hiff]
  constructor
  · intro h pre hpre
    exact h pre _ hpre (exec_total Run.step fresh pre)
  · intro h pre t hpre ht
    obtain rfl := Option.some.inj ((exec_total Run.step fresh pre).symm.trans ht)
    exact h pre hpre

theorem names_nodup {i : ℕ} {row : List KvItem} (hrow : RowOk i row) (hlive : ∀ p ∈ row, p.Live) :
    (row.map nameStr).Nodup := by
  induction row with
  | nil => exact List.nodup_nil
  | cons p rest ih =>
    rcases hrow with ⟨_,hlater,hrest⟩ | hz
    · refine List.nodup_cons.mpr ⟨fun hmem => ?_,ih hrest fun q hq => hlive q (by simp [hq])⟩
      obtain ⟨q,hq,hname⟩ := List.mem_map.mp hmem
      have hbytes : q.name = p.name := congrArg CStr.bytes hname
      exact hlater q hq (hlive q (by simp [hq])) (by rw [hbytes])
    · exact absurd (hlive p (by simp)) (not_live_of_zero hz p (by simp))

theorem Inv.others (h : Inv s file) (key : Key) (hfull : Full key (rowAt file (hashGen key))) :
    ∃ ks : List CStr, ks.length = tableRowSize ∧ ks.Nodup ∧
      ∀ k ∈ ks, k ≠ key.1 ∧ hashGen k = hashGen key ∧ Present s k := by
  have hrow := h.rows _ (hashGen_lt key)
  have hlen := rowAt_length file (hashGen key)
  have hpresent := h.present _ (hashGen_lt key)
  rw [full_iff_name] at hfull
  generalize rowAt file (hashGen key) = row at hfull hrow hlen hpresent
  refine ⟨row.map nameStr,by rw [List.length_map,hlen],
    names_nodup hrow fun p hp => (hfull p hp).1,fun k hk => ?_⟩
  obtain ⟨p,hp,rfl⟩ := List.mem_map.mp hk
  obtain ⟨hlive,hmiss⟩ := hfull p hp
  refine ⟨fun he => hmiss ?_,(hrow.slotOk hp hlive).hash,hpresent p hp hlive⟩
  have hbytes : p.name = key.1.bytes := congrArg CStr.bytes he
  rw [hbytes]

end Runs

/-- After a run without holes a set of a value fails only where as many other keys as a row has
slots are stored under the same hash. -/
theorem set_fails_only_full (ops : List Op)
    (hops : Meets (fun s op => some (Run.step s op)) DelsTail fresh ops) (key : Key) (value : Value)
    (hv : 0 < value.len)
    (hfail : (mapfileKvSet {} (ops.foldl Run.step fresh).disk (some key) (some value)).2 = .fail) :
    ∃ ks : List CStr, ks.length = tableRowSize ∧ ks.Nodup ∧ ∀ k ∈ ks, k ≠ key.1 ∧
      hashGen k = hashGen key ∧ (read (ops.foldl Run.step fresh).history k).isSome = true := by
  have hrun : ∃ file, Inv (ops.foldl Run.step fresh) file :=
    foldl_invariant (I:=fun s => ∃ file, Inv s file) (fun _ _ h hC => step_inv h hC) ops
      ⟨_,fresh_inv⟩ hops
  obtain ⟨file,h⟩ := hrun
  rw [h.disk] at hfail
  exact h.others key ((set_fail_iff key value (h.fits (hashGen_lt key)) hv).mp hfail)

/-- Deleting "ab" leaves a live slot behind a dead one. -/
theorem hole_not_compact : ∃ i < tableColSize, ¬ Compact (rowAt
    ((List.foldl Run.step fresh [.set keyAB oneByte,.set keyBA oneByte,.del keyAB]).disk.getD []) i) := by
  obtain ⟨file,hrun,-,hrow⟩ := hole_eq
  refine ⟨227,by decide,fun hc => ?_⟩
  rw [hrun,Option.getD_some,hrow] at hc
  exact hc [] zeroItem [insertItem zeroItem keyBA oneByte] rfl zeroItem_not_live
    (insertItem zeroItem keyBA oneByte) (List.mem_singleton_self _) (insertItem_live _ _ (by decide))

/-- "c ", the third key of row 227. -/
def keyC : Key := ⟨⟨[99,32],by decide⟩,by decide⟩

theorem set_both_meets : Meets (fun s op => some (Run.step s op)) DelsTail fresh
    [.set keyAB oneByte,.set keyBA oneByte] := ⟨trivial,fun _ _ => ⟨trivial,fun _ _ => trivial⟩⟩

theorem set_fails_only_full_third : ∃ ks : List CStr, ks.length = tableRowSize ∧ ks.Nodup ∧
    ∀ k ∈ ks, k ≠ keyC.1 ∧ hashGen k = hashGen keyC ∧
      (read (List.foldl Run.step fresh [.set keyAB oneByte,.set keyBA oneByte]).history k).isSome =
        true := by
  refine set_fails_only_full [.set keyAB oneByte,.set keyBA oneByte] set_both_meets keyC oneByte
    (by decide) ?_
  obtain ⟨file,hrun,hlen,hrow⟩ := set_both_eq
  have hC : hashGen keyC = 227 := by decide
  rw [hrun]
  refine (set_fail_iff keyC oneByte (key_fits hlen keyC) (by decide)).mpr (full_iff_name.mpr ?_)
  rw [hC,hrow]
  refine List.forall_mem_cons.mpr ⟨⟨insertItem_live _ _ (by decide),?_⟩,
    List.forall_mem_cons.mpr ⟨⟨insertItem_live _ _ (by decide),?_⟩,fun _ hp => (by cases hp)⟩⟩
  · rw [insertItem_keyAB_name]
    decide
  · rw [insertItem_keyBA_name]
    decide

/-- After the hole has been filled with a second copy of "bA" there is no room for "ab",
though "bA" is the only key present. -/
theorem full_of_one_key : ∃ s : Run, List.foldl Run.step fresh
      [.set keyAB oneByte,.set keyBA oneByte,.del keyAB,.set keyBA oneByte] = s ∧
    (mapfileKvSet {} s.disk (some keyAB) (some oneByte)).2 = .fail ∧
    ¬ ∃ ks : List CStr, ks.length = tableRowSize ∧ ks.Nodup ∧ ∀ k ∈ ks, k ≠ keyAB.1 ∧
      hashGen k = hashGen keyAB ∧ (read s.history k).isSome = true := by
  obtain ⟨file,hrun,hlen,hrow⟩ := hole_eq
  have hrows : hashGen keyBA = hashGen keyAB := by decide
  have hBA : hashGen keyBA = 227 := by decide
  have hfit := key_fits hlen keyBA
  have hput : putLoop keyBA oneByte (rowAt file (hashGen keyBA)) =
      some [insertItem zeroItem keyBA oneByte,insertItem zeroItem keyBA oneByte] := by
    rw [hBA,hrow]
    simp [putLoop]
  have hset := step_set_eq keyBA oneByte hfit [.put keyAB oneByte,.put keyBA oneByte,.erase keyAB]
    (by decide) hput
  have hlast : List.foldl Run.step fresh
      [.set keyAB oneByte,.set keyBA oneByte,.del keyAB,.set keyBA oneByte] = Run.step
        (List.foldl Run.step fresh [.set keyAB oneByte,.set keyBA oneByte,.del keyAB])
        (.set keyBA oneByte) := rfl
  refine ⟨_,rfl,?_,?_⟩
  · rw [hlast,hrun,hset]
    refine (set_fail_iff keyAB oneByte (by rw [putRow_length]; exact key_fits hlen keyAB)
      (by decide)).mpr (full_iff_name.mpr ?_)
    rw [← hrows,rowAt_putRow_self hfit rfl]
    have hmiss : ¬ keyAB.1.bytes <+: (insertItem zeroItem keyBA oneByte).name := by
      rw [insertItem_keyBA_name]
      decide
    have hslot := And.intro (insertItem_live zeroItem keyBA (by decide : 0 < oneByte.len)) hmiss
    exact List.forall_mem_cons.mpr ⟨hslot,List.forall_mem_singleton.mpr hslot⟩
  · rintro ⟨ks,hlen,hnodup,hks⟩
    have hone : ∀ k ∈ ks, k = keyBA.1 := by
      intro k hk
      obtain ⟨hne,-,hread⟩ := hks k hk
      rw [hlast,hrun,hset] at hread
      by_contra hkk
      simp [KeyedHistory.read,Event.apply,hne,hkk] at hread
    have hsub : ks.Subperm [keyBA.1] := hnodup.subperm fun k hk =>
      List.mem_singleton.mpr (hone k hk)
    have hshort := hsub.length_le
    rw [hlen] at hshort
    exact absurd hshort (by decide)

end MapfileCompact
end IotBase
