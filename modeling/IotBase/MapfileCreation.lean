import IotBase.MapfileThreads
import IotBase.MapfileFaults
import IotBase.MapfileRefinement

/-! Handles that are opened while the file is being created. `mapfile_kv_open` asks whether the file
exists, creates it empty and gives it its size, and nothing keeps another open, or a call through a
handle that is open already, from coming in between. -/
namespace IotBase
namespace MapfileCreation
open RawBytes CString MapfileItem MapfileStore MapfileFile MapfileIsolation MapfileThreads LabelledRun
open MapfileFaults (SameReads get_zero)
open MapfileRefinement (keyAB oneByte)

inductive Request
  | set (key : Option CStr) (value : Option Value)
  | get (key : Option CStr) (buf : Option ℤ)
  | del (key : Option CStr)

inductive Done
  | row (r : Request) (reply : Reply)
  | emp (ret : Ret)

/-- What comes next on a handle: a system call of `mapfile_kv_open`, a call, the writing of a row, a
system call of `mapfile_kv_emp`. -/
inductive Pc
  | out | opening | sizing | syncing | failed
  | ready
  | writing (r : Request) (location : ℕ) (kv : List KvItem)
  | emptied | flushing

/-- A step of a handle, with what fails in it; `access` comes with the `malloc` before it. -/
inductive Action
  | access (malloc fails : Bool)
  | openFile (fails : Bool)
  | truncate (fails : Bool)
  | fsync (fails : Bool)
  | read (malloc : Bool) (f : ReadFaults) (r : Request)
  | write (f : WriteFaults)
  | fopen (fails : Bool)

/-- A call on a row as far as its only reading: the row to write, or the answer. -/
def Request.read (malloc : Bool) (f : ReadFaults) (disk : Disk) : Request → (ℕ × List KvItem) ⊕ Reply
  | .set key value =>
    match hashTablePutRow malloc f disk key value with
    | none => .inr (.code .fail)
    | some row => .inl row
  | .get key buf => .inr (.value (mapfileKvGet malloc f disk key buf))
  | .del none => .inr (.code .fail)
  | .del (some key) =>
    if malloc then .inr (.code .fail)
    else
      match readKvItem f disk (hashGen key) with
      | none => .inr (.code .fail)
      | some kv => .inl (hashGen key,rmLoop key kv)

def act (disk : Disk) : Pc → Action → Option (Disk × Pc × Option Done)
  | .out, .access malloc fails =>
    some (disk,if malloc then .failed else if disk.isSome ∧ ¬ fails then .ready else .opening,none)
  | .opening, .openFile fails =>
    some (if fails then (disk,.failed,none) else (some (disk.getD []),.sizing,none))
  | .sizing, .truncate fails =>
    some (if fails then (disk,.failed,none) else (truncateFull disk,.syncing,none))
  | .syncing, .fsync fails => some (disk,if fails then .failed else .ready,none)
  | .ready, .read malloc f r =>
    match r.read malloc f disk with
    | .inl (location,kv) => some (disk,.writing r location kv,none)
    | .inr reply => some (disk,.ready,some (.row r reply))
  | .writing r location kv, .write f =>
    some ((writeKvItem f disk kv location).1,.ready,
      some (.row r (.code (writeKvItem f disk kv location).2)))
  | .ready, .fopen fails =>
    some (if fails then (disk,.ready,some (.emp .fail)) else (some [],.emptied,none))
  | .emptied, .truncate fails =>
    some (if fails then (disk,.ready,some (.emp .fail)) else (truncateFull disk,.flushing,none))
  | .flushing, .fsync fails => some (disk,.ready,some (.emp (if fails then .fail else .ok)))
  | _, _ => none

/-- Any number of handles on one file, of any threads and processes. -/
structure World (H : Type*) where
  disk : Disk
  pc : H → Pc
  history : List (H × Done)

variable {H : Type*} [DecidableEq H]

def World.step (w : World H) (l : H × Action) : Option (World H) :=
  (act w.disk (w.pc l.1) l.2).map fun r =>
    ⟨r.1,Function.update w.pc l.1 r.2.1,w.history++r.2.2.toList.map (Prod.mk l.1)⟩

def unopened (disk : Disk) : World H := ⟨disk,fun _ => .out,[]⟩

def created : World H := ⟨some (List.replicate fileLen 0),fun _ => .ready,[]⟩

theorem forall_pc {P : Pc → Prop} {pcs : H → Pc} {h : H} {pc : Pc} (hpcs : ∀ h, P (pcs h)) (hpc : P pc)
    (h' : H) : P (Function.update pcs h pc h') := by
  by_cases heq : h' = h
  · subst heq
    rwa [Function.update_self]
  · rw [Function.update_of_ne heq]
    exact hpcs h'

omit [DecidableEq H] in
theorem forall_history {Q : Done → Prop} {history : List (H × Done)} {h : H} {done : Option Done}
    (hold : ∀ e ∈ history, Q e.2) (hdone : ∀ d ∈ done, Q d) :
    ∀ e ∈ history++done.toList.map (Prod.mk h), Q e.2 := by
  intro e he
  rcases List.mem_append.mp he with hearlier | hnew
  · exact hold e hearlier
  · obtain ⟨d,hd,rfl⟩ := List.mem_map.mp hnew
    exact hdone d (Option.mem_toList.mp hd)

theorem act_read_row {disk : Disk} {malloc : Bool} {f : ReadFaults} {r : Request}
    {row : ℕ × List KvItem} (h : r.read malloc f disk = .inl row) :
    act disk .ready (.read malloc f r) = some (disk,.writing r row.1 row.2,none) := by
  simp only [act,h]

theorem act_read_reply {disk : Disk} {malloc : Bool} {f : ReadFaults} {r : Request} {reply : Reply}
    (h : r.read malloc f disk = .inr reply) :
    act disk .ready (.read malloc f r) = some (disk,.ready,some (.row r reply)) := by
  simp only [act,h]

theorem act_access_create {disk : Disk} {fails : Bool} (h : disk.isNone ∨ fails) :
    act disk .out (.access false fails) = some (disk,.opening,none) := by
  cases disk with
  | none => rfl
  | some file =>
    cases fails with
    | true => rfl
    | false => simp at h

theorem act_access_there {disk : Disk} {fails : Bool} (h : ¬ (disk.isNone ∨ fails)) :
    act disk .out (.access false fails) = some (disk,.ready,none) := by
  cases disk with
  | none => exact absurd (Or.inl rfl) h
  | some file =>
    cases fails with
    | true => exact absurd (Or.inr rfl) h
    | false => rfl

def acts (disk : Disk) (pc : Pc) : List Action → Option (Disk × Pc × List Done)
  | [] => some (disk,pc,[])
  | a::as => (act disk pc a).bind fun r =>
    (acts r.1 r.2.1 as).map fun s => (s.1,s.2.1,r.2.2.toList++s.2.2)

theorem acts_cons {disk disk' disk'' : Disk} {pc pc' pc'' : Pc} {a : Action} {as : List Action}
    {done : Option Done} {dones : List Done} (hact : act disk pc a = some (disk',pc',done))
    (hacts : acts disk' pc' as = some (disk'',pc'',dones)) :
    acts disk pc (a::as) = some (disk'',pc'',done.toList++dones) := by
  rw [acts,hact,Option.bind_some,hacts]
  rfl

theorem exec_acts {h : H} {as : List Action} : ∀ {w : World H} {disk : Disk} {pc : Pc} {done : List Done},
    acts w.disk (w.pc h) as = some (disk,pc,done) →
    exec World.step w (as.map (Prod.mk h)) =
      some ⟨disk,Function.update w.pc h pc,w.history++done.map (Prod.mk h)⟩ := by
  induction as with
  | nil =>
    intro w disk pc done hacts
    cases hacts
    rw [Function.update_eq_self]
    simp only [List.map_nil,List.append_nil,exec_nil]
  | cons a as ih =>
    intro w disk pc done hacts
    obtain ⟨⟨disk',pc',done'⟩,hact,hrest⟩ := Option.bind_eq_some_iff.mp hacts
    obtain ⟨⟨disk'',pc'',dones⟩,htail,heq⟩ := Option.map_eq_some_iff.mp hrest
    cases heq
    have hstep : w.step (h,a) =
        some ⟨disk',Function.update w.pc h pc',w.history++done'.toList.map (Prod.mk h)⟩ :=
      congrArg (Option.map _) hact
    have hpc : Function.update w.pc h pc' h = pc' := Function.update_self ..
    have hexec := ih (w:=⟨disk',Function.update w.pc h pc',w.history++done'.toList.map (Prod.mk h)⟩)
      ((congrArg (acts disk' · as) hpc).trans htail)
    rw [Function.update_idem,List.append_assoc,← List.map_append] at hexec
    exact exec_cons.mpr ⟨_,hstep,hexec⟩

theorem open_alone (f : OpenFaults) (disk : Disk) : ∃ as, acts disk .out as =
    some ((mapfileKvOpen f disk).1,if (mapfileKvOpen f disk).2 = .ok then .ready else .failed,[]) := by
  rw [mapfileKvOpen]
  by_cases haccess : disk.isNone ∨ f.accessFails
  · rw [if_pos haccess,createHashFile]
    have hout : act disk .out (.access false f.accessFails) = some (disk,.opening,none) :=
      act_access_create haccess
    by_cases hopen : f.openFails
    · rw [if_pos hopen]
      exact ⟨[_,.openFile true],acts_cons hout rfl⟩
    rw [if_neg hopen]
    by_cases htruncate : f.ftruncateFails
    · rw [if_pos htruncate]
      exact ⟨[_,.openFile false,.truncate true],acts_cons hout rfl⟩
    rw [if_neg htruncate]
    by_cases hfsync : f.fsyncFails
    · rw [if_pos hfsync]
      exact ⟨[_,.openFile false,.truncate false,.fsync true],acts_cons hout rfl⟩
    · rw [if_neg hfsync]
      exact ⟨[_,.openFile false,.truncate false,.fsync false],acts_cons hout rfl⟩
  · rw [if_neg haccess]
    exact ⟨[_],acts_cons (act_access_there haccess) rfl⟩

def doneOf (disk : Disk) : Call → Done
  | .set f key value => .row (.set key value) (.code (mapfileKvSet f disk key value).2)
  | .get malloc f key buf => .row (.get key buf) (.value (mapfileKvGet malloc f disk key buf))
  | .del f key => .row (.del key) (.code (mapfileKvDel f disk key).2)
  | .emp f => .emp (mapfileKvEmp f disk).2

theorem set_eq_put (f : Faults) (disk : Disk) (key : Option CStr) (value : Option Value) :
    mapfileKvSet f disk key value = hashTablePut f disk key value := by
  rcases key with _ | key
  · rfl
  rcases value with _ | value
  · rfl
  by_cases hlen : value.len ≤ 0
  · simp only [mapfileKvSet,kvSet,hashTablePut,hashTablePutRow,if_pos hlen]
  · simp only [mapfileKvSet,kvSet,if_neg hlen]

/-- A call with no other step in between. -/
theorem call_alone (disk : Disk) (c : Call) :
    ∃ as, acts disk .ready as = some ((c.run disk).1,.ready,[doneOf disk c]) := by
  cases c with
  | set f key value =>
    simp only [doneOf,Call.run,set_eq_put,hashTablePut]
    cases hput : hashTablePutRow f.malloc f.read disk key value with
    | none =>
      have hread : (Request.set key value).read f.malloc f.read disk = .inr (.code .fail) := by
        simp only [Request.read,hput]
      exact ⟨[_],acts_cons (act_read_reply hread) rfl⟩
    | some row =>
      have hread : (Request.set key value).read f.malloc f.read disk = .inl row := by
        simp only [Request.read,hput]
      exact ⟨[_,.write f.write],acts_cons (act_read_row hread) rfl⟩
  | get malloc f key buf => exact ⟨[.read malloc f (.get key buf)],rfl⟩
  | del f key =>
    rcases key with _ | key
    · exact ⟨[.read f.malloc f.read (.del none)],rfl⟩
    simp only [doneOf,Call.run,mapfileKvDel,kvDel,hashTableRm]
    by_cases hmalloc : f.malloc
    · have hread : (Request.del (some key)).read f.malloc f.read disk = .inr (.code .fail) := by
        simp only [Request.read,if_pos hmalloc]
      rw [if_pos hmalloc]
      exact ⟨[_],acts_cons (act_read_reply hread) rfl⟩
    rw [if_neg hmalloc]
    cases hkv : readKvItem f.read disk (hashGen key) with
    | none =>
      have hread : (Request.del (some key)).read f.malloc f.read disk = .inr (.code .fail) := by
        simp only [Request.read,if_neg hmalloc,hkv]
      exact ⟨[_],acts_cons (act_read_reply hread) rfl⟩
    | some kv =>
      have hread : (Request.del (some key)).read f.malloc f.read disk =
          .inl (hashGen key,rmLoop key kv) := by
        simp only [Request.read,if_neg hmalloc,hkv]
      exact ⟨[_,.write f.write],acts_cons (act_read_row hread) rfl⟩
  | emp f =>
    rw [doneOf,Call.run,mapfileKvEmp]
    by_cases hfopen : f.fopenFails
    · rw [if_pos hfopen]
      exact ⟨[.fopen true],rfl⟩
    rw [if_neg hfopen]
    by_cases htruncate : f.truncateFails
    · rw [if_pos htruncate]
      exact ⟨[.fopen false,.truncate true],rfl⟩
    rw [if_neg htruncate]
    have hzero : truncateFull (some []) = some (List.replicate fileLen 0) := truncateFull_nil
    by_cases hfsync : f.fsyncFails
    · rw [if_pos hfsync,← hzero]
      exact ⟨[.fopen false,.truncate false,.fsync true],rfl⟩
    · rw [if_neg hfsync,← hzero]
      exact ⟨[.fopen false,.truncate false,.fsync false],rfl⟩

/-- The file is absent or empty, or it has its size. -/
def Whole (disk : Disk) : Prop := disk.getD [] = [] ∨ (disk.getD []).length = fileLen

/-- The file, created in advance where it has no byte yet. -/
def sized (disk : Disk) : Disk := if disk.getD [] = [] then some (List.replicate fileLen 0) else disk

/-- Where a handle stands that was open in advance; a file that is emptied gets its size back at once. -/
def shown : Pc → Pc
  | .out | .opening | .sizing | .syncing | .failed | .ready => .ready
  | .writing r location kv => .writing r location kv
  | .emptied | .flushing => .flushing

theorem sized_empty {disk : Disk} (h : disk.getD [] = []) : sized disk = some (List.replicate fileLen 0) :=
  if_pos h

theorem sized_full {disk : Disk} (h : (disk.getD []).length = fileLen) : sized disk = disk :=
  if_neg fun hnil => absurd h (by rw [hnil]; decide)

theorem truncateFull_whole {disk : Disk} (h : Whole disk) : truncateFull disk = sized disk := by
  rcases h with hnil | hfull
  · rw [sized_empty hnil,truncateFull,hnil]
    exact truncateFull_nil
  · rw [sized_full hfull,truncateFull,← hfull,slice_self]
    cases disk with
    | none => exact absurd hfull (by decide)
    | some file => rfl

theorem whole_sized {disk : Disk} (h : Whole disk) : Whole (sized disk) := by
  rcases h with hnil | hfull
  · rw [sized_empty hnil]
    exact Or.inr List.length_replicate
  · rw [sized_full hfull]
    exact Or.inr hfull

theorem sized_sized {disk : Disk} (h : Whole disk) : sized (sized disk) = sized disk := by
  rcases h with hnil | hfull
  · rw [sized_empty hnil]
    exact sized_full List.length_replicate
  · rw [sized_full hfull,sized_full hfull]

def Request.unread : Request → Reply
  | .get _ _ => .value none
  | _ => .code .fail

theorem read_unread {disk : Disk} {f : ReadFaults} (h : ∀ location, readKvItem f disk location = none)
    (malloc : Bool) (r : Request) : r.read malloc f disk = .inr r.unread := by
  cases r with
  | set key value =>
    have hput : hashTablePutRow malloc f disk key value = none := by
      rcases key with _ | key
      · rfl
      rcases value with _ | value
      · rfl
      · simp only [hashTablePutRow,h,ite_self]
    simp only [Request.read,hput]
    rfl
  | get key buf =>
    rcases key with _ | key
    · rfl
    rcases buf with _ | len
    · rfl
    · simp only [Request.read,mapfileKvGet,kvGet,hashTableGet,h,ite_self]
      rfl
  | del key =>
    rcases key with _ | key
    · rfl
    · simp only [Request.read,h,ite_self]
      rfl

theorem size_pos (location : ℕ) : 0 < (location+1)*itemMaxLen*tableRowSize :=
  Nat.mul_pos (Nat.mul_pos (Nat.succ_pos _) (by decide)) (by decide)

theorem readKvItem_empty {disk : Disk} (h : disk.getD [] = []) (f : ReadFaults) (location : ℕ) :
    readKvItem f disk location = none := by
  cases disk with
  | none => rfl
  | some file =>
    obtain rfl : file = [] := h
    simp only [readKvItem,List.length_nil,if_pos (size_pos location),ite_self]

theorem readKvItem_fails (f : ReadFaults) (disk : Disk) (location : ℕ) :
    readKvItem {f with readFails := true} disk location = none := by
  cases disk with
  | none => rfl
  | some file => simp only [readKvItem,if_true,ite_self]

theorem writeKvItem_empty {disk : Disk} (h : disk.getD [] = []) (f : WriteFaults) (kv : List KvItem)
    (location : ℕ) : writeKvItem f disk kv location = (disk,.fail) := by
  cases disk with
  | none => rfl
  | some file =>
    obtain rfl : file = [] := h
    simp only [writeKvItem,List.length_nil,if_pos (size_pos location),ite_self]

theorem writeKvItem_fails (f : WriteFaults) (disk : Disk) (kv : List KvItem) (location : ℕ) :
    writeKvItem {f with openFails := true} disk kv location = (disk,.fail) := by
  cases disk with
  | none => rfl
  | some file => rfl

theorem writeKvItem_whole {disk : Disk} (h : (disk.getD []).length = fileLen) (f : WriteFaults)
    (kv : List KvItem) (location : ℕ) :
    ((writeKvItem f disk kv location).1.getD []).length = fileLen := by
  rcases writeKvItem_cases f disk kv location with hfail | ⟨file,rfl,-,hwrite⟩
  · rwa [hfail]
  · rw [hwrite]
    exact (splice_length ..).trans h

/-- The same handles on the file as it is and on the one created in advance. -/
structure Shadow (w v : World H) : Prop where
  whole : Whole w.disk
  disk : v.disk = sized w.disk
  pc : ∀ h, v.pc h = shown (w.pc h)
  history : v.history = w.history

theorem Shadow.acts {w v : World H} (hw : Shadow w v) {h : H} {disk : Disk} {pc : Pc} {done : Option Done}
    {as : List Action} (hdisk : Whole disk)
    (hacts : acts (sized w.disk) (shown (w.pc h)) as = some (sized disk,shown pc,done.toList)) :
    ∃ ls u, exec World.step v ls = some u ∧
      Shadow ⟨disk,Function.update w.pc h pc,w.history++done.toList.map (Prod.mk h)⟩ u := by
  rw [← hw.disk,← hw.pc h] at hacts
  refine ⟨_,_,exec_acts hacts,hdisk,rfl,fun h' => ?_,by rw [hw.history]⟩
  by_cases heq : h' = h
  · subst heq
    simp only [Function.update_self]
  · simp only [Function.update_of_ne heq,hw.pc]

def Pc.unopened : Pc → Prop
  | .out | .opening | .sizing | .syncing | .failed => True
  | _ => False

/-- A step of `mapfile_kv_open` creates the file or gives it its size; where there are bytes it
changes nothing. -/
theorem open_unseen {disk disk' : Disk} {pc pc' : Pc} {a : Action} {done : Option Done}
    (hdisk : Whole disk) (hpc : pc.unopened) (hact : act disk pc a = some (disk',pc',done)) :
    Whole disk' ∧ ((disk.getD []).length = fileLen → disk' = disk) ∧ sized disk' = sized disk ∧
      shown pc' = .ready ∧ done = none := by
  cases pc with
  | out =>
    cases a with
    | access malloc fails =>
      cases hact
      refine ⟨hdisk,fun _ => rfl,rfl,?_,rfl⟩
      split
      · rfl
      · split
        · rfl
        · rfl
    | _ => cases hact
  | opening =>
    cases a with
    | openFile fails =>
      cases fails with
      | true =>
        cases hact
        exact ⟨hdisk,fun _ => rfl,rfl,rfl,rfl⟩
      | false =>
        cases hact
        cases disk with
        | none => exact ⟨hdisk,fun hfull => absurd hfull (by decide),rfl,rfl,rfl⟩
        | some file => exact ⟨hdisk,fun _ => rfl,rfl,rfl,rfl⟩
    | _ => cases hact
  | sizing =>
    cases a with
    | truncate fails =>
      cases fails with
      | true =>
        cases hact
        exact ⟨hdisk,fun _ => rfl,rfl,rfl,rfl⟩
      | false =>
        cases hact
        rw [truncateFull_whole hdisk]
        exact ⟨whole_sized hdisk,sized_full,sized_sized hdisk,rfl,rfl⟩
    | _ => cases hact
  | syncing =>
    cases a with
    | fsync fails =>
      cases hact
      refine ⟨hdisk,fun _ => rfl,rfl,?_,rfl⟩
      split
      · rfl
      · rfl
    | _ => cases hact
  | failed => cases hact
  | _ => exact hpc.elim

theorem read_shadow {disk : Disk} (hdisk : Whole disk) (malloc : Bool) (f : ReadFaults) (r : Request) :
    ∃ f', ((disk.getD []).length = fileLen → f' = f) ∧
      r.read malloc f' (sized disk) = r.read malloc f disk := by
  rcases hdisk with hnil | hfull
  · refine ⟨{f with readFails := true},fun hfull => absurd hfull (by rw [hnil]; decide),?_⟩
    rw [read_unread (readKvItem_fails f _),read_unread (readKvItem_empty hnil f)]
  · exact ⟨f,fun _ => rfl,by rw [sized_full hfull]⟩

theorem write_shadow {disk : Disk} (hdisk : Whole disk) (f : WriteFaults) (kv : List KvItem)
    (location : ℕ) : Whole (writeKvItem f disk kv location).1 ∧
      ∃ f', ((disk.getD []).length = fileLen → f' = f) ∧ writeKvItem f' (sized disk) kv location =
        (sized (writeKvItem f disk kv location).1,(writeKvItem f disk kv location).2) := by
  rcases hdisk with hnil | hfull
  · rw [writeKvItem_empty hnil]
    exact ⟨Or.inl hnil,{f with openFails := true},fun hfull => absurd hfull (by rw [hnil]; decide),
      writeKvItem_fails f _ kv location⟩
  · have hwritten := writeKvItem_whole hfull f kv location
    refine ⟨Or.inr hwritten,f,fun _ => rfl,?_⟩
    rw [sized_full hwritten,sized_full hfull]

/-- Each step of a handle is one, two or no steps on the file created in advance. -/
theorem act_shadow {disk disk' : Disk} {pc pc' : Pc} {a : Action} {done : Option Done}
    (hdisk : Whole disk) (hact : act disk pc a = some (disk',pc',done)) : Whole disk' ∧
      ∃ as, acts (sized disk) (shown pc) as = some (sized disk',shown pc',done.toList) := by
  by_cases hpc : pc.unopened
  · obtain ⟨hwhole,-,hsized,hshown,rfl⟩ := open_unseen hdisk hpc hact
    have hready : shown pc = .ready := by
      cases pc with
      | ready => rfl
      | writing => exact hpc.elim
      | emptied => exact hpc.elim
      | flushing => exact hpc.elim
      | _ => rfl
    refine ⟨hwhole,[],?_⟩
    rw [acts,hsized,hshown,hready]
    rfl
  cases pc with
  | ready =>
    cases a with
    | read malloc f r =>
      obtain ⟨f',-,hread⟩ := read_shadow hdisk malloc f r
      cases hr : r.read malloc f disk with
      | inl row =>
        rw [act_read_row hr] at hact
        cases hact
        exact ⟨hdisk,[.read malloc f' r],acts_cons (act_read_row (hread.trans hr)) rfl⟩
      | inr reply =>
        rw [act_read_reply hr] at hact
        cases hact
        exact ⟨hdisk,[.read malloc f' r],acts_cons (act_read_reply (hread.trans hr)) rfl⟩
    | fopen fails =>
      cases fails with
      | true =>
        cases hact
        exact ⟨hdisk,[.fopen true],rfl⟩
      | false =>
        cases hact
        refine ⟨Or.inl rfl,[.fopen false,.truncate false],?_⟩
        have hzero : sized (some []) = truncateFull (some []) := (truncateFull_whole (Or.inl rfl)).symm
        rw [hzero]
        rfl
    | _ => cases hact
  | writing r location kv =>
    cases a with
    | write f =>
      obtain ⟨hwhole,f',-,hwrite⟩ := write_shadow hdisk f kv location
      cases hact
      have hact' : act (sized disk) (.writing r location kv) (.write f') =
          some (sized (writeKvItem f disk kv location).1,.ready,
            some (.row r (.code (writeKvItem f disk kv location).2))) := by
        simp only [act,hwrite]
      exact ⟨hwhole,[.write f'],acts_cons hact' rfl⟩
    | _ => cases hact
  | emptied =>
    cases a with
    | truncate fails =>
      cases fails with
      | true =>
        cases hact
        exact ⟨hdisk,[.fsync true],rfl⟩
      | false =>
        cases hact
        rw [truncateFull_whole hdisk,sized_sized hdisk]
        exact ⟨whole_sized hdisk,[],rfl⟩
    | _ => cases hact
  | flushing =>
    cases a with
    | fsync fails =>
      cases hact
      exact ⟨hdisk,[.fsync fails],rfl⟩
    | _ => cases hact
  | _ => exact absurd trivial hpc

theorem Shadow.step {w v u : World H} {l : H × Action} (hw : Shadow w v) (hstep : w.step l = some u) :
    ∃ ls v', exec World.step v ls = some v' ∧ Shadow u v' := by
  obtain ⟨⟨disk,pc,done⟩,hact,rfl⟩ := Option.map_eq_some_iff.mp hstep
  obtain ⟨hwhole,as,hacts⟩ := act_shadow hw.whole hact
  exact hw.acts hwhole hacts

omit [DecidableEq H] in
theorem start_shadow : Shadow (unopened none) (created : World H) where
  whole := Or.inl rfl
  disk := rfl
  pc _ := rfl
  history := rfl

theorem get_unread {disk : Disk} (h : disk.getD [] = []) (key : Option CStr) (buf : Option ℤ) :
    mapfileKvGet false {} disk key buf = none := by
  have hread := read_unread (readKvItem_empty h {}) false (.get key buf)
  exact Reply.value.inj (Sum.inr.inj hread)

theorem sameReads_sized {disk : Disk} (hdisk : Whole disk) (key : Option CStr) :
    SameReads (sized disk) disk key := by
  intro buf
  rcases hdisk with hnil | hfull
  · rw [sized_empty hnil,get_zero,get_unread hnil]
  · rw [sized_full hfull]

/-- However many handles are opened while the file is being created, and whatever fails or stops in
the opens and in the calls: the calls that return answer as on a file created before, where some
more reads and writes have failed; the two files are the same as soon as there is a byte, and read
the same before that. -/
theorem opens_invisible {ls : List (H × Action)} {w : World H}
    (hrun : exec World.step (unopened none) ls = some w) :
    ∃ ls' v, exec World.step created ls' = some v ∧ v.history = w.history ∧ v.disk = sized w.disk ∧
      ∀ key, SameReads v.disk w.disk key := by
  obtain ⟨ls',v,hexec,hshadow⟩ := exec_simulate (fun _ _ _ _ => Shadow.step) ls start_shadow hrun
  refine ⟨ls',v,hexec,hshadow.history,hshadow.disk,fun key => ?_⟩
  rw [hshadow.disk]
  exact sameReads_sized hshadow.whole key

/-- `true` opens the file while `false` is about to give it its size, and sets. -/
def racing : List (Bool × Action) :=
  [(false,.access false false),(false,.openFile false),(true,.access false false),
    (true,.read false {} (.set (some keyAB) (some oneByte))),(false,.truncate false),(false,.fsync false)]

theorem racing_run : ∃ w, exec World.step (unopened none) racing = some w ∧
    w.history = [(true,.row (.set (some keyAB) (some oneByte)) (.code .fail))] :=
  ⟨_,rfl,rfl⟩

theorem opens_invisible_racing : ∃ ls v, exec World.step created ls = some v ∧
    v.history = [(true,.row (.set (some keyAB) (some oneByte)) (.code .fail))] := by
  obtain ⟨w,hrun,hhistory⟩ := racing_run
  obtain ⟨ls,v,hexec,hsame,-⟩ := opens_invisible hrun
  exact ⟨ls,v,hexec,hsame.trans hhistory⟩

def Done.Failed : Done → Prop
  | .row r reply => reply = r.unread
  | .emp ret => ret = .fail

structure Stuck (w : World H) : Prop where
  disk : w.disk = some []
  pc : ∀ h, w.pc h = .out ∨ w.pc h = .failed ∨ w.pc h = .ready
  failed : ∀ e ∈ w.history, e.2.Failed

theorem act_stuck {disk : Disk} {pc pc' : Pc} {a : Action} {done : Option Done} (hemp : a ≠ .fopen false)
    (haccess : a ≠ .access false true) (hpc : pc = .out ∨ pc = .failed ∨ pc = .ready)
    (hact : act (some []) pc a = some (disk,pc',done)) :
    disk = some [] ∧ (pc' = .ready ∨ pc' = .failed ∧ ∃ fails, a = .access true fails) ∧
      ∀ d ∈ done, d.Failed := by
  rcases hpc with rfl | rfl | rfl
  · cases a with
    | access malloc fails =>
      cases malloc with
      | true =>
        cases hact
        exact ⟨rfl,Or.inr ⟨rfl,fails,rfl⟩,fun d hd => nomatch hd⟩
      | false =>
        cases fails with
        | true => exact absurd rfl haccess
        | false =>
          cases hact
          exact ⟨rfl,Or.inl rfl,fun d hd => nomatch hd⟩
    | _ => cases hact
  · cases hact
  · cases a with
    | read malloc f r =>
      rw [act_read_reply (read_unread (readKvItem_empty rfl f) malloc r)] at hact
      cases hact
      refine ⟨rfl,Or.inl rfl,fun d hd => ?_⟩
      cases hd
      rfl
    | fopen fails =>
      cases fails with
      | true =>
        cases hact
        refine ⟨rfl,Or.inl rfl,fun d hd => ?_⟩
        cases hd
        rfl
      | false => exact absurd rfl hemp
    | _ => cases hact

def Pc.idle : Pc → Prop
  | .out | .ready => True
  | _ => False

theorem Stuck.step {w u : World H} {l : H × Action} (hw : Stuck w) (hemp : l.2 ≠ .fopen false)
    (haccess : l.2 ≠ .access false true) (hstep : w.step l = some u) :
    Stuck u ∧ ∀ h, (w.pc h).idle → (u.pc h).idle ∨ ∃ fails, l = (h,.access true fails) := by
  obtain ⟨⟨disk,pc,done⟩,hact,rfl⟩ := Option.map_eq_some_iff.mp hstep
  rw [hw.disk] at hact
  obtain ⟨rfl,hpc,hdone⟩ := act_stuck hemp haccess (hw.pc l.1) hact
  refine ⟨⟨rfl,forall_pc (P:=fun pc => pc = .out ∨ pc = .failed ∨ pc = .ready) hw.pc ?_,
    forall_history hw.failed hdone⟩,fun h hidle => ?_⟩
  · rcases hpc with rfl | ⟨rfl,-⟩
    · exact Or.inr (Or.inr rfl)
    · exact Or.inr (Or.inl rfl)
  · dsimp only
    by_cases hh : h = l.1
    · subst hh
      rw [Function.update_self]
      rcases hpc with rfl | ⟨-,fails,ha⟩
      · exact Or.inl trivial
      · exact Or.inr ⟨fails,Prod.ext rfl ha⟩
    · rw [Function.update_of_ne hh]
      exact Or.inl hidle

/-- Where a creation was interrupted before the file had its size, no open repairs it while `access`
answers that the file is there: however many handles are opened, the open of a handle fails only where
its `malloc` does, and every call fails, until one of them is `mapfile_kv_emp`. -/
theorem empty_file_stays {ls : List (H × Action)} {w : World H}
    (hrun : exec World.step (unopened (some [])) ls = some w) (hemp : ∀ l ∈ ls, l.2 ≠ .fopen false)
    (haccess : ∀ l ∈ ls, l.2 ≠ .access false true) :
    w.disk = some [] ∧ (∀ h, (∀ fails, (h,.access true fails) ∉ ls) → w.pc h = .out ∨ w.pc h = .ready) ∧
      ∀ e ∈ w.history, e.2.Failed := by
  have hstart : Stuck (unopened (some []) : World H) :=
    ⟨rfl,fun _ => Or.inl rfl,fun e he => nomatch he⟩
  have hlabels : ∀ l ∈ ls, l.2 ≠ .fopen false ∧ l.2 ≠ .access false true :=
    fun l hl => ⟨hemp l hl,haccess l hl⟩
  have hw : Stuck w := exec_invariant (fun _ _ _ hs hl hstep => (hs.step hl.1 hl.2 hstep).1) ls hstart
    (meets_of_labels hlabels _) hrun
  refine ⟨hw.disk,fun h hmalloc => ?_,hw.failed⟩
  have hothers : ∀ l ∈ ls, (l.2 ≠ .fopen false ∧ l.2 ≠ .access false true) ∧
      ∀ fails, l ≠ (h,.access true fails) :=
    fun l hl => ⟨hlabels l hl,fun fails hfails => hmalloc fails (hfails ▸ hl)⟩
  have hidle : Stuck w ∧ (w.pc h).idle := by
    refine exec_invariant (I:=fun w => Stuck w ∧ (w.pc h).idle) (fun s l t hs hl hstep => ?_) ls
      ⟨hstart,trivial⟩ (meets_of_labels hothers _) hrun
    obtain ⟨ht,hpc⟩ := hs.1.step hl.1.1 hl.1.2 hstep
    rcases hpc h hs.2 with hidle | ⟨fails,hfails⟩
    · exact ⟨ht,hidle⟩
    · exact absurd hfails (hl.2 fails)
  rcases hw.pc h with hout | hfailed | hready
  · exact Or.inl hout
  · exact absurd hidle.2 (by rw [hfailed]; exact id)
  · exact Or.inr hready

/-- Both handles are opened on the empty file; one of them has no memory, the other sets. -/
def reopened : List (Bool × Action) :=
  [(true,.access true false),(false,.access false false),
    (false,.read false {} (.set (some keyAB) (some oneByte)))]

theorem empty_file_stays_reopened : ∃ w, exec World.step (unopened (some [])) reopened = some w ∧
    w.disk = some [] ∧ (w.pc false = .out ∨ w.pc false = .ready) ∧ w.pc true = .failed ∧
    w.history = [(false,.row (.set (some keyAB) (some oneByte)) (.code .fail))] := by
  have hrun : exec World.step (unopened (some [])) reopened = some _ := rfl
  obtain ⟨hdisk,hpc,-⟩ := empty_file_stays hrun (by simp [reopened]) (by simp [reopened])
  exact ⟨_,hrun,hdisk,hpc false (by simp [reopened]),rfl,rfl⟩

end MapfileCreation
end IotBase
