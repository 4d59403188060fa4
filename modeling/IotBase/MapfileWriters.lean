import IotBase.MapfileCreation
import IotBase.MapfileSpread

/-! Handles that share no mutex: what processes do to each other's calls. Where each row is written
through one handle only, the calls are as good as calls made one after the other, and keys of which no
two share a row are the map that the store is for. -/
namespace IotBase
namespace MapfileWriters
open RawBytes CString MapfileItem MapfileStore MapfileFile MapfileIsolation MapfileThreads LabelledRun
open MapfileCreation MapfileSpread
open MapfileRefinement (oneByte keyAB hashTablePutRow_zero)
open MapfileFaults (get_zero)

def row : Request → Option ℕ
  | .set (some key) _ => some (hashGen key)
  | .del (some key) => some (hashGen key)
  | _ => none

def callOf (f : Faults) : Request → Call
  | .set key value => .set f key value
  | .get key buf => .get f.malloc f.read key buf
  | .del key => .del f key

/-- The call that has had this answer; `quiet` says that nothing may fail. -/
inductive Answers (quiet : Prop) : Done → Call × Reply → Prop
  | row (f : Faults) (hf : quiet → f = {}) (r : Request) (reply : Reply) :
      Answers quiet (.row r reply) (callOf f r,reply)
  | emp (f : EmpFaults) (hf : quiet → f = {}) (ret : Ret) : Answers quiet (.emp ret) (.emp f,.code ret)

variable {malloc : Bool} {f : ReadFaults} {r : Request} {disk disk' : Disk}

theorem read_reply {reply : Reply} (h : r.read malloc f disk = .inr reply) :
    (callOf ⟨malloc,f,{}⟩ r).run disk = (disk,reply) := by
  cases r with
  | set key value =>
    simp only [Request.read] at h
    split at h
    · rename_i hput
      cases h
      simp only [callOf,Call.run,set_eq_put,hashTablePut,hput]
    · cases h
  | get key buf =>
    cases h
    rfl
  | del key =>
    rcases key with _ | key
    · cases h
      rfl
    by_cases hmalloc : malloc
    · simp only [Request.read,if_pos hmalloc] at h
      cases h
      simp only [callOf,Call.run,mapfileKvDel,kvDel,hashTableRm,if_pos hmalloc]
    cases hkv : readKvItem f disk (hashGen key) with
    | none =>
      simp only [Request.read,if_neg hmalloc,hkv] at h
      cases h
      simp only [callOf,Call.run,mapfileKvDel,kvDel,hashTableRm,if_neg hmalloc,hkv]
    | some kv =>
      simp only [Request.read,if_neg hmalloc,hkv] at h
      cases h

theorem read_row {location : ℕ} {kv : List KvItem} (h : r.read malloc f disk = .inl (location,kv))
    (wf : WriteFaults) : row r = some location ∧ (callOf ⟨malloc,f,wf⟩ r).run disk =
      ((writeKvItem wf disk kv location).1,.code (writeKvItem wf disk kv location).2) := by
  cases r with
  | set key value =>
    simp only [Request.read] at h
    split at h
    · cases h
    · rename_i x hput
      cases h
      refine ⟨?_,by simp only [callOf,Call.run,set_eq_put,hashTablePut,hput]⟩
      rcases key with _ | key
      · cases hput
      rcases value with _ | value
      · cases hput
      · exact congrArg some (hashTablePutRow_some hput).1.symm
  | get key buf => cases h
  | del key =>
    rcases key with _ | key
    · cases h
    by_cases hmalloc : malloc
    · simp only [Request.read,if_pos hmalloc] at h
      cases h
    cases hkv : readKvItem f disk (hashGen key) with
    | none =>
      simp only [Request.read,if_neg hmalloc,hkv] at h
      cases h
    | some kv' =>
      simp only [Request.read,if_neg hmalloc,hkv] at h
      cases h
      exact ⟨rfl,by simp only [callOf,Call.run,mapfileKvDel,kvDel,hashTableRm,if_neg hmalloc,hkv]⟩

/-- A call that writes a row reads nothing else. -/
theorem read_of_view {i : ℕ} (hrow : row r = some i) (h : rowView i disk = rowView i disk') :
    r.read malloc f disk = r.read malloc f disk' := by
  cases r with
  | set key value =>
    rcases key with _ | key
    · cases hrow
    obtain rfl := Option.some.inj hrow
    rcases value with _ | value
    · rfl
    · simp only [Request.read,hashTablePutRow,readKvItem_of_view h]
  | get key buf => cases hrow
  | del key =>
    rcases key with _ | key
    · cases hrow
    obtain rfl := Option.some.inj hrow
    simp only [Request.read,readKvItem_of_view h]

variable {H : Type*}

/-- A row is written through one handle only, the file is not emptied, and where all is quiet nothing
fails. -/
def OneWriter (quiet : Prop) (owner : ℕ → H) (l : H × Action) : Prop :=
  match l.2 with
  | .fopen fails => fails = true ∧ ¬ quiet
  | .read malloc f r => (∀ i ∈ row r, owner i = l.1) ∧ (quiet → malloc = false ∧ f = {})
  | .write f => quiet → f = {}
  | _ => True

/-- A handle that is about to write would read its row again as it has read it. Where all is quiet the
file has its size from the start. -/
structure Inv (quiet : Prop) (owner : ℕ → H) (w : World H) : Prop where
  whole : Whole w.disk
  full : quiet → (w.disk.getD []).length = fileLen
  calm : ∀ h, w.pc h ≠ .emptied ∧ w.pc h ≠ .flushing
  pending : ∀ h r location kv, w.pc h = .writing r location kv → owner location = h ∧
    ∃ malloc f, (quiet → malloc = false ∧ f = {}) ∧ r.read malloc f (sized w.disk) = .inl (location,kv)
  explained : ∃ es, List.Forall₂ (fun e x => Answers quiet e.2 x) w.history es ∧
    Replays Call.run (some (List.replicate fileLen 0)) es (sized w.disk)

theorem unopened_inv (owner : ℕ → H) : Inv False owner (unopened none) where
  whole := Or.inl rfl
  full := False.elim
  calm _ := ⟨Pc.noConfusion,Pc.noConfusion⟩
  pending _ _ _ _ h := Pc.noConfusion h
  explained := ⟨[],.nil,rfl⟩

theorem created_inv (quiet : Prop) (owner : ℕ → H) : Inv quiet owner created where
  whole := Or.inr List.length_replicate
  full _ := List.length_replicate
  calm _ := ⟨Pc.noConfusion,Pc.noConfusion⟩
  pending _ _ _ _ h := Pc.noConfusion h
  explained := by
    have hfull : ((some (List.replicate fileLen 0) : Disk).getD []).length = fileLen := List.length_replicate
    exact ⟨[],.nil,(sized_full hfull).symm⟩

/-- What a step says in the history: nothing where it changes nothing that is seen, or a call made at
once. -/
def Explains (quiet : Prop) (disk disk' : Disk) : Option Done → Prop
  | none => sized disk' = sized disk
  | some d => ∃ c reply, Answers quiet d (c,reply) ∧ c.run (sized disk) = (sized disk',reply)

variable [DecidableEq H] {quiet : Prop} {owner : ℕ → H} {w : World H} {h : H} {pc : Pc}
  {done : Option Done}

theorem Inv.moved (hw : Inv quiet owner w) (hwhole : Whole disk')
    (hfull : quiet → (disk'.getD []).length = fileLen) (hcalm : pc ≠ .emptied ∧ pc ≠ .flushing)
    (hown : ∀ r location kv, pc = .writing r location kv → owner location = h ∧
      ∃ malloc f, (quiet → malloc = false ∧ f = {}) ∧ r.read malloc f (sized disk') = .inl (location,kv))
    (hothers : ∀ i, owner i ≠ h → rowView i (sized w.disk) = rowView i (sized disk'))
    (hdone : Explains quiet w.disk disk' done) :
    Inv quiet owner ⟨disk',Function.update w.pc h pc,w.history++done.toList.map (Prod.mk h)⟩ where
  whole := hwhole
  full := hfull
  calm := forall_pc (P:=fun pc => pc ≠ .emptied ∧ pc ≠ .flushing) hw.calm hcalm
  pending h' r location kv hpc := by
    by_cases heq : h' = h
    · subst heq
      dsimp only at hpc
      rw [Function.update_self] at hpc
      exact hown r location kv hpc
    · dsimp only at hpc
      rw [Function.update_of_ne heq] at hpc
      obtain ⟨howner,malloc,f,hquiet,hread⟩ := hw.pending h' r location kv hpc
      refine ⟨howner,malloc,f,hquiet,?_⟩
      have hview := hothers location (by rw [howner]; exact heq)
      rwa [← read_of_view (read_row hread {}).1 hview]
  explained := by
    obtain ⟨es,hes,hreplays⟩ := hw.explained
    cases done with
    | none =>
      refine ⟨es,?_,?_⟩
      · simpa only [Option.toList_none,List.map_nil,List.append_nil] using hes
      · rw [hdone]
        exact hreplays
    | some d =>
      obtain ⟨c,reply,hanswers,hrun⟩ := hdone
      refine ⟨es++[(c,reply)],List.rel_append hes (.cons hanswers .nil),?_⟩
      exact hreplays.concat hrun

theorem step_inv {u : World H} {l : H × Action} (hw : Inv quiet owner w) (hl : OneWriter quiet owner l)
    (hstep : w.step l = some u) : Inv quiet owner u := by
  obtain ⟨⟨disk',pc',done⟩,hact,rfl⟩ := Option.map_eq_some_iff.mp hstep
  obtain ⟨h,a⟩ := l
  dsimp only at hact ⊢
  by_cases hopen : (w.pc h).unopened
  · obtain ⟨hwhole,hkept,hsized,hshown,rfl⟩ := open_unseen hw.whole hopen hact
    refine hw.moved hwhole (fun hq => ?_) ⟨?_,?_⟩ (fun r location kv hpc => ?_) (fun i _ => ?_) hsized
    · rw [hkept (hw.full hq)]
      exact hw.full hq
    · rintro rfl
      cases hshown
    · rintro rfl
      cases hshown
    · subst hpc
      cases hshown
    · rw [hsized]
  cases hpc : w.pc h with
  | ready =>
    rw [hpc] at hact
    cases a with
    | read malloc f r =>
      obtain ⟨howner,hquiet⟩ := hl
      obtain ⟨f',hsame,hread⟩ := read_shadow hw.whole malloc f r
      have hquiet' : quiet → malloc = false ∧ f' = {} := fun hq =>
        ⟨(hquiet hq).1,(hsame (hw.full hq)).trans (hquiet hq).2⟩
      cases hr : r.read malloc f w.disk with
      | inl x =>
        rw [act_read_row hr] at hact
        cases hact
        refine hw.moved hw.whole hw.full ⟨Pc.noConfusion,Pc.noConfusion⟩ (fun r' location kv heq => ?_)
          (fun _ _ => rfl) rfl
        cases heq
        exact ⟨howner _ (read_row hr {}).1,malloc,f',hquiet',hread.trans hr⟩
      | inr reply =>
        rw [act_read_reply hr] at hact
        cases hact
        have hanswers : Answers quiet (.row r reply) (callOf ⟨malloc,f',{}⟩ r,reply) := by
          refine .row _ (fun hq => ?_) r reply
          obtain ⟨rfl,rfl⟩ := hquiet' hq
          rfl
        exact hw.moved hw.whole hw.full ⟨Pc.noConfusion,Pc.noConfusion⟩
          (fun _ _ _ heq => Pc.noConfusion heq) (fun _ _ => rfl)
          ⟨_,reply,hanswers,read_reply (hread.trans hr)⟩
    | fopen fails =>
      obtain ⟨rfl,hquiet⟩ := hl
      cases hact
      exact hw.moved hw.whole hw.full ⟨Pc.noConfusion,Pc.noConfusion⟩
        (fun _ _ _ heq => Pc.noConfusion heq) (fun _ _ => rfl)
        ⟨.emp { fopenFails := true },.code .fail,.emp _ (fun hq => absurd hq hquiet) _,rfl⟩
    | _ => cases hact
  | writing r location kv =>
    rw [hpc] at hact
    cases a with
    | write f =>
      cases hact
      obtain ⟨howner,malloc,rf,hquiet,hread⟩ := hw.pending h r location kv hpc
      obtain ⟨hwhole,f',hsame,hwrite⟩ := write_shadow hw.whole f kv location
      have hrun := (read_row hread f').2
      rw [hwrite] at hrun
      have hanswers : Answers quiet (.row r (.code (writeKvItem f w.disk kv location).2))
          (callOf ⟨malloc,rf,f'⟩ r,.code (writeKvItem f w.disk kv location).2) := by
        refine .row _ (fun hq => ?_) r _
        obtain ⟨rfl,rfl⟩ := hquiet hq
        rw [hsame (hw.full hq),hl hq]
      refine hw.moved hwhole (fun hq => writeKvItem_whole (hw.full hq) f kv location)
        ⟨Pc.noConfusion,Pc.noConfusion⟩ (fun _ _ _ heq => Pc.noConfusion heq) (fun i hi => ?_)
        ⟨_,_,hanswers,hrun⟩
      have hframe := writeKvItem_frame (i:=location) (r:=i) (fun heq => hi (heq ▸ howner)) f'
        (sized w.disk) kv
      rw [hwrite] at hframe
      exact hframe.symm
    | _ => cases hact
  | emptied => exact absurd hpc (hw.calm h).1
  | flushing => exact absurd hpc (hw.calm h).2
  | _ =>
    rw [hpc] at hopen
    exact absurd trivial hopen

theorem exec_inv {ls : List (H × Action)} {u : World H} (hw : Inv quiet owner w)
    (hls : ∀ l ∈ ls, OneWriter quiet owner l) (hrun : exec World.step w ls = some u) : Inv quiet owner u :=
  exec_invariant (fun _ _ _ => step_inv) ls hw (meets_of_labels hls w) hrun

theorem read_fresh (key : CStr) {value : Value} (h : 0 < value.len) :
    (Request.set (some key) (some value)).read false {} (some (List.replicate fileLen 0)) =
      .inl (hashGen key,[insertItem zeroItem key value,zeroItem]) := by
  simp only [Request.read,hashTablePutRow_zero key h]

/-- `true` sets again when the file has its size, and `false` gets before and after the row is written. -/
def lateSet : List (Bool × Action) :=
  [(true,.read false {} (.set (some keyAB) (some oneByte))),
    (false,.read false {} (.get (some keyAB) (some 4))),(true,.write {}),
    (false,.read false {} (.get (some keyAB) (some 4)))]

theorem lateSet_oneWriter : ∀ l ∈ racing++lateSet, OneWriter False (fun _ => true) l := by
  have hset : OneWriter False (fun _ => true)
      (true,Action.read false {} (.set (some keyAB) (some oneByte))) := ⟨fun _ _ => rfl,False.elim⟩
  have hget : OneWriter False (fun _ => true)
      (false,Action.read false {} (.get (some keyAB) (some 4))) := ⟨fun _ hi => (by cases hi),False.elim⟩
  simp only [racing,lateSet,List.cons_append,List.nil_append,List.forall_mem_cons]
  exact ⟨trivial,trivial,trivial,hset,trivial,trivial,hset,hget,False.elim,hget,by simp⟩

theorem lateSet_run {disk : Disk} (history : List (Bool × Done)) {kv : List KvItem} {location : ℕ}
    (hread : (Request.set (some keyAB) (some oneByte)).read false {} disk = .inl (location,kv)) :
    ∃ w, exec World.step ⟨disk,fun _ => .ready,history⟩ lateSet = some w ∧ w.history = history++
      [(false,.row (.get (some keyAB) (some 4)) (.value (mapfileKvGet false {} disk (some keyAB) (some 4))))]++
      [(true,.row (.set (some keyAB) (some oneByte)) (.code (writeKvItem {} disk kv location).2))]++
      [(false,.row (.get (some keyAB) (some 4))
        (.value (mapfileKvGet false {} (writeKvItem {} disk kv location).1 (some keyAB) (some 4))))] :=
  ⟨_,exec_cons.mpr ⟨_,congrArg (Option.map _) (act_read_row hread),rfl⟩,by simp⟩

theorem get_stored : mapfileKvGet false {} (some (putRow (List.replicate fileLen 0) (hashGen keyAB)
    [insertItem zeroItem keyAB oneByte,zeroItem])) (some keyAB) (some 4) = some (1,[1]) := by
  have hfit := key_fits_zero keyAB
  rw [MapfileRefinement.kvGet_ok keyAB (by rwa [putRow_length]) (by decide),rowAt_putRow_self hfit rfl]
  decide +kernel

def Asks (K : Set CStr) : Request → Prop
  | .set (some key) (some _) => key ∈ K
  | .get (some key) (some _) => key ∈ K
  | .del (some key) => key ∈ K
  | _ => False

/-- The handle is open, and what it is about to write is asked of one of the keys. -/
def Pc.On (K : Set CStr) : Pc → Prop
  | .ready => True
  | .writing r _ _ => Asks K r
  | _ => False

def Action.On (K : Set CStr) : Action → Prop
  | .read _ _ r => Asks K r
  | .write _ => True
  | _ => False

def Done.On (K : Set CStr) : Done → Prop
  | .row r _ => Asks K r
  | .emp _ => False

structure Asked (K : Set CStr) (w : World H) : Prop where
  pc : ∀ h, Pc.On K (w.pc h)
  history : ∀ e ∈ w.history, Done.On K e.2

omit [DecidableEq H] in
theorem created_asked (K : Set CStr) : Asked K (created : World H) :=
  ⟨fun _ => trivial,fun _ he => nomatch he⟩

theorem act_asked {K : Set CStr} {pc' : Pc} {a : Action} (hpc : Pc.On K pc) (ha : Action.On K a)
    (hact : act disk pc a = some (disk',pc',done)) : Pc.On K pc' ∧ ∀ d ∈ done, Done.On K d := by
  cases pc with
  | ready =>
    cases a with
    | read malloc f r =>
      cases hr : r.read malloc f disk with
      | inl x =>
        rw [act_read_row hr] at hact
        cases hact
        exact ⟨ha,fun _ hd => nomatch hd⟩
      | inr reply =>
        rw [act_read_reply hr] at hact
        cases hact
        refine ⟨trivial,fun d hd => ?_⟩
        cases hd
        exact ha
    | write f => cases hact
    | _ => exact ha.elim
  | writing r location kv =>
    cases a with
    | write f =>
      cases hact
      refine ⟨trivial,fun d hd => ?_⟩
      cases hd
      exact hpc
    | read malloc f r => cases hact
    | _ => exact ha.elim
  | _ => exact hpc.elim

theorem Asked.step {K : Set CStr} {u : World H} {l : H × Action} (hw : Asked K w) (hl : Action.On K l.2)
    (hstep : w.step l = some u) : Asked K u := by
  obtain ⟨⟨disk',pc',done⟩,hact,rfl⟩ := Option.map_eq_some_iff.mp hstep
  obtain ⟨hpc,hdone⟩ := act_asked (hw.pc l.1) hl hact
  exact ⟨forall_pc hw.pc hpc,forall_history hw.history hdone⟩

def asked : Done → Call × Reply
  | .row r reply => (callOf {} r,reply)
  | .emp ret => (.emp {},.code ret)

theorem eq_asked {d : Done} {x : Call × Reply} (h : Answers True d x) : asked d = x := by
  cases h with
  | row f hf r reply =>
    rw [hf trivial]
    rfl
  | emp f hf ret =>
    rw [hf trivial]
    rfl

theorem plain_asked {K : Set CStr} {d : Done} (h : Done.On K d) : Plain K (asked d).1 := by
  cases d with
  | row r reply =>
    cases r with
    | set key value =>
      rcases key with _ | key
      · exact h.elim
      rcases value with _ | value
      · exact h.elim
      · exact .set h value
    | get key buf =>
      rcases key with _ | key
      · exact h.elim
      rcases buf with _ | n
      · exact h.elim
      · exact .get h n
    | del key =>
      rcases key with _ | key
      · exact h.elim
      · exact .del h
  | emp ret => exact h.elim

/-- Processes whose keys lie in different rows, each key set and deleted by one process only, share
the map itself, with no lock: whatever the interleaving of their reads and writes, the calls answer as
those of the map do, made at once in the order in which they return. -/
theorem processes_share_map {K : Set CStr} (hK : Spread K) {ls : List (H × Action)}
    (hls : ∀ l ∈ ls, OneWriter True owner l ∧ Action.On K l.2)
    (hrun : exec World.step created ls = some w) :
    ∃ m, Replays mapCall (fun _ => none) (w.history.map fun e => asked e.2) m := by
  have hinv := exec_inv (created_inv True owner) (fun l hl => (hls l hl).1) hrun
  have hasked : Asked K w := exec_invariant (fun _ _ _ hs hl hstep => hs.step hl hstep) ls
    (created_asked K) (meets_of_labels (fun l hl => (hls l hl).2) _) hrun
  obtain ⟨es,hes,hreplays⟩ := hinv.explained
  have heq : w.history.map (fun e => asked e.2) = es := by
    rw [← List.forall₂_eq_eq_eq,List.forall₂_map_left_iff]
    exact hes.imp fun _ _ => eq_asked
  have hplain : ∀ x ∈ w.history.map fun e => asked e.2, Plain K x.1 := by
    intro x hx
    obtain ⟨e,he,rfl⟩ := List.mem_map.mp hx
    exact plain_asked (hasked.history e he)
  have hfresh : Stores K (some (List.replicate fileLen 0)) fun _ => none := by
    rw [← truncateFull_nil]
    exact fresh_stores K
  rw [← heq] at hreplays
  obtain ⟨m,hm,-⟩ := Replays.simulate (call_stores hK) hreplays hfresh hplain
  exact ⟨m,hm⟩

def twoSets : List (Bool × Action) :=
  [(true,.read false {} (.set (some keyX) (some oneByte))),
    (false,.read false {} (.set (some keyY) (some oneByte))),(true,.write {}),(false,.write {})]

theorem twoSets_owned : ∀ l ∈ twoSets, OneWriter True (fun i => decide (i = hashGen keyX)) l ∧
    Action.On {k : CStr | k = keyX ∨ k = keyY} l.2 := by
  intro l hl
  simp only [twoSets,List.mem_cons,List.not_mem_nil,or_false] at hl
  rcases hl with rfl | rfl | rfl | rfl
  · refine ⟨⟨fun i hi => ?_,fun _ => ⟨rfl,rfl⟩⟩,Or.inl rfl⟩
    cases hi
    exact decide_eq_true rfl
  · refine ⟨⟨fun i hi => ?_,fun _ => ⟨rfl,rfl⟩⟩,Or.inr rfl⟩
    cases hi
    decide
  · exact ⟨fun _ => rfl,trivial⟩
  · exact ⟨fun _ => rfl,trivial⟩

theorem twoSets_run {disk : Disk} {kvX kvY : List KvItem} {rowX rowY : ℕ}
    (hX : (Request.set (some keyX) (some oneByte)).read false {} disk = .inl (rowX,kvX))
    (hY : (Request.set (some keyY) (some oneByte)).read false {} disk = .inl (rowY,kvY)) :
    ∃ w, exec World.step ⟨disk,fun _ => .ready,[]⟩ twoSets = some w ∧ w.history =
      [(true,.row (.set (some keyX) (some oneByte)) (.code (writeKvItem {} disk kvX rowX).2)),
        (false,.row (.set (some keyY) (some oneByte))
          (.code (writeKvItem {} (writeKvItem {} disk kvX rowX).1 kvY rowY).2))] :=
  ⟨_,exec_cons.mpr ⟨_,congrArg (Option.map _) (act_read_row hX),
    exec_cons.mpr ⟨_,congrArg (Option.map _) (act_read_row hY),rfl⟩⟩,rfl⟩

theorem processes_share_map_twoKeys : ∃ w, exec World.step created twoSets = some w ∧
    w.history = [(true,.row (.set (some keyX) (some oneByte)) (.code .ok)),
      (false,.row (.set (some keyY) (some oneByte)) (.code .ok))] ∧
    ∃ m, Replays mapCall (fun _ => none) (w.history.map fun e => asked e.2) m := by
  have hpos : 0 < oneByte.len := by decide
  have hfit : rowOff (hashGen keyY)+rowLen ≤ (putRow (List.replicate fileLen 0) (hashGen keyX)
      [insertItem zeroItem keyX oneByte,zeroItem]).length := by
    rw [putRow_length]
    exact key_fits_zero keyY
  obtain ⟨w,hrun,hhistory⟩ := twoSets_run (read_fresh keyX hpos) (read_fresh keyY hpos)
  refine ⟨w,hrun,?_,processes_share_map spread_twoKeys twoSets_owned hrun⟩
  rw [hhistory,writeKvItem_ok (key_fits_zero keyX) rfl,writeKvItem_ok hfit rfl]

end MapfileWriters
end IotBase
