import IotBase.MapfileTorn
import IotBase.MapfileCreation

/-! The store after any failures. No run, whatever fails in it and however many handles race in it,
leaves a slot with a length that its value field does not have, so that gets stay inside the fields;
and a set that failed is made good by setting again. -/
namespace IotBase
namespace MapfileRepair
open RawBytes CString MapfileItem MapfileStore MapfileFile MapfileRow MapfileAccess MapfileTear MapfileTorn
open MapfileIsolation MapfileThreads MapfileCreation LabelledRun Unwinding
open MapfileRefinement (Key keyAB)
open MapfileFaults (SameReads sameReads_of_row)

def StoreLens (disk : Disk) : Prop := ∀ i < tableColSize, LensOk (rowAt (disk.getD []) i)

variable {disk disk' : Disk} {i r : ℕ}

theorem rowAt_nil (i : ℕ) : rowAt [] i = List.replicate tableRowSize zeroItem := by
  have hzero : slice [] (rowOff i) rowLen = List.replicate rowLen 0 := by
    rw [slice,List.drop_nil,takeD_of_length_le (Nat.zero_le _)]
    rfl
  rw [rowAt,hzero]
  exact decodeRow_replicate tableRowSize

theorem lensOk_zero (n : ℕ) : LensOk (List.replicate n zeroItem) := by
  intro p hp
  rw [List.eq_of_mem_replicate hp]
  exact Nat.zero_le _

theorem storeLens_nil : StoreLens (some []) := by
  intro i _
  rw [Option.getD_some,rowAt_nil]
  exact lensOk_zero _

theorem storeLens_none : StoreLens none := storeLens_nil

theorem storeLens_zero : StoreLens (some (List.replicate fileLen 0)) := by
  intro i hi
  rw [Option.getD_some,rowAt_zero hi]
  exact lensOk_zero _

theorem storeLens_fresh (f : OpenFaults) : StoreLens (mapfileKvOpen f none).1 := by
  rw [mapfileKvOpen_none,createHashFile]
  have hzero : slice [] 0 fileLen = List.replicate fileLen 0 := by
    rw [slice,List.drop_nil,takeD_of_length_le (Nat.zero_le _)]
    rfl
  split
  · exact storeLens_none
  · split
    · exact storeLens_nil
    · rw [Option.getD_none,hzero]
      split
      · exact storeLens_zero
      · exact storeLens_zero

theorem rowAt_of_view (h : rowView r disk = rowView r disk') :
    rowAt (disk.getD []) r = rowAt (disk'.getD []) r := by
  cases disk with
  | none =>
    cases disk' with
    | none => rfl
    | some _ => cases h
  | some file =>
    cases disk' with
    | none => cases h
    | some file' =>
      obtain ⟨-,hrow⟩ := Prod.mk.inj (Option.some.inj h)
      rw [Option.getD_some,Option.getD_some,rowAt,rowAt,hrow]

theorem StoreLens.write (h : StoreLens disk) (f : WriteFaults) {kv : List KvItem}
    (hkv : kv.length = tableRowSize) (hlens : LensOk kv) : StoreLens (writeKvItem f disk kv i).1 := by
  intro r hr
  by_cases hir : i = r
  · subst hir
    rcases writeKvItem_cases f disk kv i with hfail | ⟨file,rfl,hfit,hwrite⟩
    · rw [hfail]
      exact h i hr
    · rw [hwrite,Option.getD_some,rowAt_torn hfit hkv]
      exact tornRow_lensOk (h i hr) hlens _
  · rw [rowAt_of_view (writeKvItem_frame hir f disk kv)]
    exact h r hr

theorem StoreLens.call (h : StoreLens disk) (c : Call) : StoreLens (c.run disk).1 := by
  cases c with
  | set f key value =>
    change StoreLens (mapfileKvSet f disk key value).1
    rcases mapfileKvSet_cases f disk key value with hfail | ⟨k,v,kv,-,-,-,hput,hwrite⟩
    · rw [hfail]
      exact h
    · rw [hwrite]
      exact h.write f.write (by rw [putLoop_length hput,rowAt_length])
        (putLoop_lensOk (h _ (hashGen_lt k)) hput)
  | get malloc f key buf => exact h
  | del f key =>
    change StoreLens (mapfileKvDel f disk key).1
    rcases mapfileKvDel_cases f disk key with hfail | ⟨k,-,hwrite⟩
    · rw [hfail]
      exact h
    · rw [hwrite]
      exact h.write f.write (by rw [rmLoop_length,rowAt_length])
        (forall_rmLoop (Nat.zero_le _) (h _ (hashGen_lt k)))
  | emp f =>
    change StoreLens (mapfileKvEmp f disk).1
    rw [mapfileKvEmp]
    split
    · exact h
    · split
      · exact storeLens_nil
      · split
        · exact storeLens_zero
        · exact storeLens_zero

theorem storeLens_reached (f : OpenFaults) (calls : List Call) :
    StoreLens (finish Call.run (mapfileKvOpen f none).1 calls) := by
  have hrun : ∀ (calls : List Call) (disk : Disk), StoreLens disk →
      StoreLens (finish Call.run disk calls) := by
    intro calls
    induction calls with
    | nil => exact fun _ h => h
    | cons c calls ih => exact fun disk h => ih _ (h.call c)
  exact hrun calls _ (storeLens_fresh f)

theorem hit_inBounds {row : List KvItem} (h : LensOk row) {key : CStr} (hk : key.strlen ≤ itemMaxKeyLen)
    {len : ℤ} {p : KvItem} (hp : searchHit key row = some p) :
    0 < p.valueLen.toInt ∧ min p.valueLen.toInt len ≤ itemMaxValLen := by
  obtain ⟨hmem,hlive,-⟩ := searchHit_spec hk hp
  have hle := h p hmem
  have hpos : p.valueLen.toNat ≠ 0 := fun hz => hlive (BitVec.eq_of_toNat_eq hz)
  rw [valueLen_toInt hle]
  exact ⟨by omega,by omega⟩

theorem kvGetTrace_cases (malloc : Bool) (f : ReadFaults) (disk : Disk) (key : CStr) {len : ℤ}
    (hlen : 0 < len) : kvGetTrace malloc f disk key len = ([],none) ∨
      kvGetTrace malloc f disk key len = getLoopTrace key len 0 (rowAt (disk.getD []) (hashGen key)) := by
  rw [kvGetTrace,if_neg (Int.not_le.mpr hlen)]
  split
  · exact Or.inl rfl
  · cases hread : readKvItem f disk (hashGen key) with
    | none => exact Or.inl rfl
    | some kv =>
      right
      rw [readKvItem_some hread]

theorem getSafe_of_lens (h : StoreLens disk) (malloc : Bool) (f : ReadFaults) (key : Key) {len : ℤ}
    (hlen : 1 ≤ len) : GetSafe malloc f disk key len := by
  have hlens := h (hashGen key) (hashGen_lt key)
  have hlength := rowAt_length (disk.getD []) (hashGen key)
  have hget := kvGetTrace_result malloc f disk key len
  rcases kvGetTrace_cases malloc f disk key (by omega : 0 < len) with htrace | htrace
  · rw [htrace] at hget
    exact ⟨by simp [htrace],by simp [htrace],by simp [← hget]⟩
  · rw [htrace,getLoopTrace_result] at hget
    refine ⟨?_,?_,fun n v hn => ?_⟩
    · rw [htrace]
      exact (getLoopTrace_length 0 _).trans (by rw [hlength])
    · rw [htrace]
      exact getLoopTrace_inside key.2.le (fun p hp => hit_inBounds hlens key.2.le hp) (by omega)
        (by rw [hlength,Nat.zero_add])
    · rw [← hget] at hn
      obtain ⟨p,hp,rfl⟩ := getLoop_len hn
      have hbounds : 0 < p.valueLen.toInt ∧ min p.valueLen.toInt len ≤ itemMaxValLen :=
        hit_inBounds hlens key.2.le hp
      obtain ⟨hpos,hmax⟩ := hbounds
      rw [htrace,getLoopTrace_copied hp,toSizeT_eq (by omega) hmax]
      exact ⟨by omega,by omega,rfl⟩

theorem storeLens_sized (hwhole : Whole disk) (h : StoreLens disk) : StoreLens (sized disk) := by
  rcases hwhole with hnil | hfull
  · rw [sized_empty hnil]
    exact storeLens_zero
  · rw [sized_full hfull]
    exact h

theorem storeLens_of_sized (hwhole : Whole disk) (h : StoreLens (sized disk)) : StoreLens disk := by
  rcases hwhole with hnil | hfull
  · intro i _
    rw [hnil,rowAt_nil]
    exact lensOk_zero _
  · rwa [sized_full hfull] at h

theorem read_lensOk (h : StoreLens disk) {malloc : Bool} {f : ReadFaults} {q : Request}
    {x : ℕ × List KvItem} (hread : q.read malloc f disk = .inl x) :
    x.2.length = tableRowSize ∧ LensOk x.2 := by
  cases q with
  | set key value =>
    simp only [Request.read] at hread
    split at hread
    · cases hread
    · rename_i y hput
      cases hread
      rcases key with _ | key
      · cases hput
      rcases value with _ | value
      · cases hput
      obtain ⟨i,kv⟩ := x
      obtain ⟨-,-,hloop⟩ := hashTablePutRow_some hput
      exact ⟨by rw [putLoop_length hloop,rowAt_length],putLoop_lensOk (h _ (hashGen_lt key)) hloop⟩
  | get key buf => cases hread
  | del key =>
    rcases key with _ | key
    · cases hread
    by_cases hmalloc : malloc
    · simp only [Request.read,if_pos hmalloc] at hread
      cases hread
    cases hkv : readKvItem f disk (hashGen key) with
    | none =>
      simp only [Request.read,if_neg hmalloc,hkv] at hread
      cases hread
    | some kv =>
      simp only [Request.read,if_neg hmalloc,hkv] at hread
      cases hread
      obtain rfl := readKvItem_some hkv
      dsimp only
      exact ⟨by rw [rmLoop_length,rowAt_length],forall_rmLoop (Nat.zero_le _) (h _ (hashGen_lt key))⟩

/-- The row that a handle is about to write has its lengths in bounds. -/
def Holds : Pc → Prop
  | .writing _ _ kv => kv.length = tableRowSize ∧ LensOk kv
  | _ => True

theorem holds_of_shown {pc : Pc} (h : shown pc = .ready) : Holds pc := by
  cases pc with
  | writing r location kv => exact Pc.noConfusion h
  | _ => trivial

theorem open_lens {pc pc' : Pc} {a : Action} {done : Option Done} (hwhole : Whole disk)
    (h : StoreLens disk) (hpc : pc.unopened) (hact : act disk pc a = some (disk',pc',done)) :
    StoreLens disk' ∧ Holds pc' := by
  obtain ⟨hwhole',-,hsized,hshown,-⟩ := open_unseen hwhole hpc hact
  refine ⟨storeLens_of_sized hwhole' ?_,holds_of_shown hshown⟩
  rw [hsized]
  exact storeLens_sized hwhole h

theorem ready_lens {pc' : Pc} {a : Action} {done : Option Done} (h : StoreLens disk)
    (hact : act disk .ready a = some (disk',pc',done)) : StoreLens disk' ∧ Holds pc' := by
  cases a with
  | read malloc f q =>
    cases hread : q.read malloc f disk with
    | inl x =>
      rw [act_read_row hread] at hact
      cases hact
      exact ⟨h,read_lensOk h hread⟩
    | inr reply =>
      rw [act_read_reply hread] at hact
      cases hact
      exact ⟨h,trivial⟩
  | fopen fails =>
    cases fails with
    | true =>
      cases hact
      exact ⟨h,trivial⟩
    | false =>
      cases hact
      exact ⟨storeLens_nil,trivial⟩
  | _ => cases hact

theorem emptied_lens {pc' : Pc} {a : Action} {done : Option Done} (hwhole : Whole disk)
    (h : StoreLens disk) (hact : act disk .emptied a = some (disk',pc',done)) :
    StoreLens disk' ∧ Holds pc' := by
  cases a with
  | truncate fails =>
    cases fails with
    | true =>
      cases hact
      exact ⟨h,trivial⟩
    | false =>
      cases hact
      rw [truncateFull_whole hwhole]
      exact ⟨storeLens_sized hwhole h,trivial⟩
  | _ => cases hact

theorem act_lens {pc pc' : Pc} {a : Action} {done : Option Done} (hwhole : Whole disk)
    (h : StoreLens disk) (hpc : Holds pc) (hact : act disk pc a = some (disk',pc',done)) :
    StoreLens disk' ∧ Holds pc' := by
  cases pc with
  | ready => exact ready_lens h hact
  | writing q location kv =>
    cases a with
    | write f =>
      cases hact
      exact ⟨h.write f hpc.1 hpc.2,trivial⟩
    | _ => cases hact
  | emptied => exact emptied_lens hwhole h hact
  | flushing =>
    cases a with
    | fsync fails =>
      cases hact
      exact ⟨h,trivial⟩
    | _ => cases hact
  | _ =>
    refine open_lens hwhole h ?_ hact
    trivial

/-- All lengths are in bounds, in the file and in what is about to be written. -/
structure WorldLens {H : Type*} (w : World H) : Prop where
  whole : Whole w.disk
  disk : StoreLens w.disk
  pc : ∀ h, Holds (w.pc h)

section Handles
variable {H : Type*} [DecidableEq H]

theorem WorldLens.step {w u : World H} {l : H × Action} (hw : WorldLens w) (hstep : w.step l = some u) :
    WorldLens u := by
  obtain ⟨⟨disk',pc',done⟩,hact,rfl⟩ := Option.map_eq_some_iff.mp hstep
  obtain ⟨hlens,hholds⟩ := act_lens hw.whole hw.disk (hw.pc l.1) hact
  exact ⟨(act_shadow hw.whole hact).1,hlens,forall_pc hw.pc hholds⟩

/-- However many handles have been opened, have called and have stopped anywhere, and whatever has
failed so far and fails now: a get ends, compares and copies inside the fields, and copies as many
bytes as it says. -/
theorem gets_safe {ls : List (H × Action)} {w : World H}
    (hrun : exec World.step (unopened none) ls = some w) (malloc : Bool) (f : ReadFaults) (key : Key)
    {len : ℤ} (hlen : 1 ≤ len) : GetSafe malloc f w.disk key len := by
  have hstart : WorldLens (unopened none : World H) := ⟨Or.inl rfl,storeLens_none,fun _ => trivial⟩
  have hw : WorldLens w := exec_invariant_of_step (fun _ _ _ => WorldLens.step) ls hstart hrun
  exact getSafe_of_lens hw.disk malloc f key hlen

theorem gets_safe_racing : ∃ w, exec World.step (unopened none) racing = some w ∧
    GetSafe false {} w.disk keyAB 16 := by
  obtain ⟨w,hrun,-⟩ := racing_run
  exact ⟨w,hrun,gets_safe hrun false {} keyAB (by decide)⟩

end Handles

section Rows
variable {key k : CStr} {value : Value} {row row' : List KvItem}

theorem searchHit_cons_congr {p q : KvItem} {rest rest' : List KvItem} (hks : k.strlen ≤ itemMaxKeyLen)
    (hp : p.Live) (hq : q.Live) (hname : p.name = q.name) (hstored : stored p = stored q)
    (hrest : (searchHit k rest).map stored = (searchHit k rest').map stored) :
    (searchHit k (p::rest)).map stored = (searchHit k (q::rest')).map stored := by
  by_cases hm : k.bytes <+: p.name
  · rw [searchHit_hit hks _ hp hm,searchHit_hit hks _ hq (hname ▸ hm)]
    exact congrArg some hstored
  · rw [searchHit_skip hks _ hp hm,searchHit_skip hks _ hq (hname ▸ hm)]
    exact hrest

/-- Filling a slot again gives it the name that filling it once does, wherever that stopped. -/
theorem insert_again_name (p : KvItem) (key : CStr) (value : Value) (n : ℕ) :
    (insertItem (tornItem n p (insertItem p key value)) key value).name = (insertItem p key value).name := by
  have hkey : (key.bytes.takeD (itemMaxKeyLen-1) 0).length ≤ p.key.length := by
    rw [List.takeD_length,p.key_length]
    exact Nat.sub_le _ _
  exact congrArg fieldStr (splice_again hkey n)

/-- A set that is made again finds the slot that it was writing, and leaves the searches what it would
have left them at once. -/
theorem putLoop_again (hk : key.strlen < itemMaxKeyLen) (hv : 0 < value.len) (hlens : LensOk row)
    (hput : putLoop key value row = some row') (n : ℕ) :
    ∃ row'', putLoop key value (tornRow n row row') = some row'' ∧
      ∀ k : CStr, k.strlen ≤ itemMaxKeyLen →
        (searchHit k row'').map stored = (searchHit k row').map stored := by
  induction row generalizing row' n with
  | nil => cases hput
  | cons p rest ih =>
    obtain ⟨hp,hrest⟩ := List.forall_mem_cons.mp hlens
    by_cases hlive : p.Live
    · by_cases hm : key.bytes <+: p.name
      · simp only [putLoop,if_pos hlive,if_pos ((keyMatches_iff rest hk.le).mpr hm),Option.some.injEq] at hput
        subst hput
        have hkeep := tornItem_update_name p value n
        have hlive' := tornItem_update_live hlive hp hv n
        have hname : key.bytes <+: (tornItem n p (updateItem p value)).name := by rwa [hkeep]
        have hmatch := (keyMatches_iff rest hk.le).mpr hname
        refine ⟨_,by rw [tornRow,tornRow_self,putLoop,if_pos hlive',if_pos hmatch],fun k hks => ?_⟩
        refine searchHit_cons_congr hks (updateItem_live _ hv) (updateItem_live _ hv) hkeep ?_ rfl
        rw [updateItem_stored,updateItem_stored]
      · have hmatch := keyMatches_eq_false rest hk.le hm
        simp only [putLoop,if_pos hlive,hmatch,Bool.false_eq_true,if_false] at hput
        obtain ⟨tail,htail,rfl⟩ := Option.map_eq_some_iff.mp hput
        obtain ⟨tail',htail',hhits⟩ := ih hrest htail (n-itemMaxLen)
        refine ⟨p::tail',?_,fun k hks => ?_⟩
        · have hmatch' := keyMatches_eq_false (tornRow (n-itemMaxLen) rest tail) hk.le hm
          rw [tornRow,tornItem_self,putLoop,if_pos hlive,hmatch',if_neg Bool.false_ne_true,htail']
          rfl
        · exact searchHit_cons_congr hks hlive hlive rfl rfl (hhits k hks)
    · simp only [putLoop,if_neg hlive,Option.some.injEq] at hput
      subst hput
      rw [tornRow,tornRow_self]
      have hinsert := insertItem_live p key hv
      by_cases hn : n ≤ itemMaxKeyLen+itemMaxValLen
      · have hfree : ¬ (tornItem n p (insertItem p key value)).Live := by
          rw [KvItem.Live,tornItem_valueLen hp (insertItem_len_le p key value),if_pos hn]
          exact hlive
        refine ⟨_,by rw [putLoop,if_neg hfree],fun k hks => ?_⟩
        refine searchHit_cons_congr hks (insertItem_live _ key hv) hinsert
          (insert_again_name p key value n) ?_ rfl
        rw [insertItem_stored,insertItem_stored]
      · have hmatch := (keyMatches_iff rest hk.le).mpr (insertItem_starts p value hk)
        rw [tornItem_whole hp (insertItem_len_le p key value) (by omega)]
        refine ⟨_,by rw [putLoop,if_pos hinsert,if_pos hmatch],fun k hks => ?_⟩
        refine searchHit_cons_congr hks (updateItem_live _ hv) hinsert rfl ?_ rfl
        rw [updateItem_stored,insertItem_stored]

end Rows

theorem set_again_of_lens (h : StoreLens disk) (key : Key) (value : Value) (sf : Faults) :
    (mapfileKvSet {} (mapfileKvSet sf disk (some key) (some value)).1 (some key) (some value)).2 =
        (mapfileKvSet {} disk (some key) (some value)).2 ∧
      ∀ k : Key, SameReads (mapfileKvSet {} disk (some key) (some value)).1
        (mapfileKvSet {} (mapfileKvSet sf disk (some key) (some value)).1 (some key) (some value)).1
        (some k) := by
  rcases mapfileKvSet_cases sf disk (some key) (some value) with
    hfail | ⟨k,v,row,hk,hv,hpos,hput,hset⟩
  · rw [hfail]
    exact ⟨rfl,fun _ _ => rfl⟩
  cases hk
  cases hv
  rw [hset]
  rcases writeKvItem_cases sf.write disk row (hashGen key) with hfail | ⟨file,rfl,hfit,hwrite⟩
  · rw [hfail]
    exact ⟨rfl,fun _ _ => rfl⟩
  rw [hwrite]
  dsimp only
  generalize (sf.write.write.count rowLen).getD 0 = n
  have hlens : LensOk (rowAt file (hashGen key)) := h (hashGen key) (hashGen_lt key)
  have hput : putLoop key value (rowAt file (hashGen key)) = some row := hput
  have hlen : row.length = tableRowSize := by rw [putLoop_length hput,rowAt_length]
  have hdata : ((encodeRow row).take n).length ≤ rowLen :=
    (List.length_take_le' _ _).trans (row_le_rowLen row hlen).le
  obtain ⟨row',hput',hhits⟩ := putLoop_again key.2 hpos hlens hput n
  have hlens' : LensOk row' := putLoop_lensOk (tornRow_lensOk hlens (putLoop_lensOk hlens hput) n) hput'
  rw [← rowAt_torn hfit hlen] at hput'
  generalize htorn : splice file (rowOff (hashGen key)) ((encodeRow row).take n) = torn at hput'
  have hlength : torn.length = file.length := by rw [← htorn,splice_length]
  have hfit' : rowOff (hashGen key)+rowLen ≤ torn.length := by rwa [hlength]
  have hlen' : row'.length = tableRowSize := by rw [putLoop_length hput',rowAt_length]
  rw [kvSet_some hfit hpos hput,kvSet_some hfit' hpos hput']
  refine ⟨rfl,fun k => ?_⟩
  by_cases hi : hashGen k = hashGen key
  · have hself : rowAt (putRow file (hashGen key) row) (hashGen k) = row := by
      rw [hi,rowAt_putRow_self hfit hlen]
    have hself' : rowAt (putRow torn (hashGen key) row') (hashGen k) = row' := by
      rw [hi,rowAt_putRow_self hfit' hlen']
    refine sameReads_of_hits ?_ ?_ ?_ ?_ k.2 ?_
    · rw [putRow_length,putRow_length,hlength]
    · rwa [putRow_length,hi]
    · rw [hself]
      exact putLoop_lensOk hlens hput
    · rwa [hself']
    · rw [hself,hself']
      exact hhits k k.2.le
  · refine sameReads_of_row (by rw [putRow_length,putRow_length,hlength]) fun hkfit => ?_
    rw [putRow_length] at hkfit
    rw [rowAt_putRow_other (Ne.symm hi) hfit hkfit hlen,
      rowAt_putRow_other (Ne.symm hi) hfit' (by rwa [hlength]) hlen',← htorn,
      rowAt_splice_other (Ne.symm hi) hfit hkfit hdata]

/-- Whatever has failed so far, and however a set of a key fails now: the set made again, undisturbed,
answers as it would have at once, and leaves every key reading what it would then have read. -/
theorem set_again (f : OpenFaults) (calls : List Call) (key : Key) (value : Value) (sf : Faults) :
    let disk := finish Call.run (mapfileKvOpen f none).1 calls
    let disk' := (mapfileKvSet sf disk (some key) (some value)).1
    (mapfileKvSet {} disk' (some key) (some value)).2 = (mapfileKvSet {} disk (some key) (some value)).2 ∧
      ∀ k : Key, SameReads (mapfileKvSet {} disk (some key) (some value)).1
        (mapfileKvSet {} disk' (some key) (some value)).1 (some k) :=
  set_again_of_lens (storeLens_reached f calls) key value sf

end MapfileRepair
end IotBase
