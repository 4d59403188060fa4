import IotBase.MapfileIsolation
import IotBase.ResourceProgram

/-! The descriptors, streams and buffers of the store, and its mutex. The functions as programs that
take and give back resources, exit by exit; they answer and change the file as the functions of the
store do, and hold nothing afterwards. -/
namespace IotBase
namespace MapfileResources
open RawBytes CString MapfileItem MapfileStore MapfileFile MapfileIsolation LabelledRun ResourceProgram

def readKvItemProg (f : ReadFaults) (buf location : ℕ) : Prog Disk (Option (List KvItem)) := do
  let disk ← load
  let fd ← tryAcquire (f.openFails || disk.isNone)
  match fd with
  | none => pure none
  | some fd => do
    use fd
    if f.fstatFails then do
      release fd
      pure none
    else if (disk.getD []).length < (location+1)*itemMaxLen*tableRowSize then do
      release fd
      pure none
    else do
      use fd
      if f.lseekFails then do
        release fd
        pure none
      else do
        use fd
        use buf
        if f.readFails then do
          release fd
          pure none
        else do
          release fd
          pure (some (rowAt (disk.getD []) location))

def writeKvItemProg (f : WriteFaults) (data : ℕ) (kv : List KvItem) (location : ℕ) : Prog Disk Ret := do
  let disk ← load
  let fd ← tryAcquire (f.openFails || disk.isNone)
  match fd with
  | none => pure .fail
  | some fd => do
    use fd
    if f.fstatFails then do
      release fd
      pure .fail
    else if (disk.getD []).length < (location+1)*itemMaxLen*tableRowSize then do
      release fd
      pure .fail
    else do
      use fd
      if f.lseekFails then do
        release fd
        pure .fail
      else do
        use fd
        use data
        let written := f.write.count rowLen
        save (some (splice (disk.getD []) (rowOff location) ((encodeRow kv).take (written.getD 0))))
        if written ≠ some rowLen then do
          release fd
          pure .fail
        else do
          use fd
          release fd
          pure .ok

/-- `free_kv` writes to the buffer before it frees it. -/
def freeKvProg (kv : ℕ) : Prog Disk Unit := do
  use kv
  release kv

/-- `hash_table_put`; the buffer of the row is freed on every way out. -/
def hashTablePutProg (f : Faults) (key : Option CStr) (value : Option Value) : Prog Disk Ret :=
  match key,value with
  | some key,some value =>
    if value.len ≤ 0 then pure .fail
    else do
      let kv ← tryAcquire f.malloc
      match kv with
      | none => pure .fail
      | some kv => do
        use kv
        let row ← readKvItemProg f.read kv (hashGen key)
        match row with
        | none => do
          freeKvProg kv
          pure .fail
        | some row => do
          use kv
          match putLoop key value row with
          | none => do
            release kv
            pure .fail
          | some row => do
            let ret ← writeKvItemProg f.write kv row (hashGen key)
            release kv
            pure ret
  | _,_ => pure .fail

def hashTableGetProg (malloc : Bool) (f : ReadFaults) (key : Option CStr) (buf : Option ℤ) :
    Prog Disk (Option (ℤ × Bytes)) :=
  match key,buf with
  | some key,some len =>
    if len ≤ 0 then pure none
    else do
      let kv ← tryAcquire malloc
      match kv with
      | none => pure none
      | some kv => do
        use kv
        let row ← readKvItemProg f kv (hashGen key)
        match row with
        | none => do
          freeKvProg kv
          pure none
        | some row => do
          use kv
          freeKvProg kv
          pure (getLoop key len row)
  | _,_ => pure none

def hashTableRmProg (f : Faults) (key : Option CStr) : Prog Disk Ret :=
  match key with
  | none => pure .fail
  | some key => do
    let kv ← tryAcquire f.malloc
    match kv with
    | none => pure .fail
    | some kv => do
      use kv
      let row ← readKvItemProg f.read kv (hashGen key)
      match row with
      | none => do
        freeKvProg kv
        pure .fail
      | some row => do
        use kv
        let ret ← writeKvItemProg f.write kv (rmLoop key row) (hashGen key)
        freeKvProg kv
        pure ret

/-- `__kv_set`, `__kv_get` and `__kv_del` past their checks: the call under the mutex, which is part of
the handle. -/
def underLock {R : Type} (file : ℕ) (p : Prog Disk R) : Prog Disk R := do
  use file
  lock
  let ret ← p
  use file
  unlock
  pure ret

def mapfileKvSetProg (file : ℕ) (f : Faults) (key : Option CStr) (value : Option Value) : Prog Disk Ret :=
  match key,value with
  | some key,some value =>
    if value.len ≤ 0 then pure .fail else underLock file (hashTablePutProg f (some key) (some value))
  | _,_ => pure .fail

def mapfileKvGetProg (file : ℕ) (malloc : Bool) (f : ReadFaults) (key : Option CStr) (buf : Option ℤ) :
    Prog Disk (Option (ℤ × Bytes)) :=
  match key,buf with
  | some key,some len =>
    if len ≤ 0 then pure none else underLock file (hashTableGetProg malloc f (some key) (some len))
  | _,_ => pure none

def mapfileKvDelProg (file : ℕ) (f : Faults) (key : Option CStr) : Prog Disk Ret :=
  match key with
  | none => pure .fail
  | some key => underLock file (hashTableRmProg f (some key))

/-- `mapfile_kv_emp` under the mutex: the stream is closed behind `EXIT`. -/
def emptyProg (f : EmpFaults) : Prog Disk Ret := do
  let fp ← tryAcquire f.fopenFails
  match fp with
  | none => pure .fail
  | some fp => do
    save (some [])
    if f.truncateFails then do
      release fp
      pure .fail
    else do
      save (some (List.replicate fileLen 0))
      use fp
      let ret := if f.fsyncFails then Ret.fail else Ret.ok
      release fp
      pure ret

def mapfileKvEmpProg (file : ℕ) (f : EmpFaults) : Prog Disk Ret := underLock file (emptyProg f)

def createHashFileProg (f : OpenFaults) : Prog Disk Ret := do
  let disk ← load
  let fd ← tryAcquire f.openFails
  match fd with
  | none => pure .fail
  | some fd => do
    save (some (disk.getD []))
    use fd
    if f.ftruncateFails then do
      release fd
      pure .fail
    else do
      save (some (slice (disk.getD []) 0 fileLen))
      use fd
      if f.fsyncFails then do
        release fd
        pure .fail
      else do
        release fd
        pure .ok

def mapfileKvOpenProg (malloc : Bool) (f : OpenFaults) : Prog Disk (Option ℕ) := do
  let file ← tryAcquire malloc
  match file with
  | none => pure none
  | some file => do
    use file
    lock
    let disk ← load
    if disk.isNone ∨ f.accessFails then do
      let ret ← createHashFileProg f
      match ret with
      | .fail => do
        use file
        unlock
        release file
        pure none
      | .ok => do
        use file
        unlock
        pure (some file)
    else do
      use file
      unlock
      pure (some file)

def callProg (file : ℕ) : Call → Prog Disk Reply
  | .set f key value => do
    let ret ← mapfileKvSetProg file f key value
    pure (.code ret)
  | .get malloc f key buf => do
    let found ← mapfileKvGetProg file malloc f key buf
    pure (.value found)
  | .del f key => do
    let ret ← mapfileKvDelProg file f key
    pure (.code ret)
  | .emp f => do
    let ret ← mapfileKvEmpProg file f
    pure (.code ret)

section Calls

variable {b : Bool} {disk : Disk}

theorem readKvItem_ends (f : ReadFaults) (buf location : ℕ) :
    Ends b [buf] disk (readKvItemProg f buf location) (readKvItem f disk location) b [buf] disk := by
  refine .load ?_
  cases disk with
  | none => exact .refused (by simp) (.pure _)
  | some file =>
    by_cases hopen : f.openFails
    · refine .refused (by simp [hopen]) ?_
      simp only [readKvItem,if_pos hopen]
      exact .pure _
    refine .granted (by simp [hopen]) fun fd => .useLast ?_
    simp only [readKvItem,if_neg hopen,Option.getD_some]
    by_cases hfstat : f.fstatFails
    · simp only [if_pos hfstat]
      exact .releaseLast (.pure _)
    by_cases hshort : file.length < (location+1)*itemMaxLen*tableRowSize
    · simp only [if_neg hfstat,if_pos hshort]
      exact .releaseLast (.pure _)
    simp only [if_neg hfstat,if_neg hshort]
    refine .useLast ?_
    by_cases hlseek : f.lseekFails
    · simp only [if_pos hlseek]
      exact .releaseLast (.pure _)
    simp only [if_neg hlseek]
    refine .useLast (.use (by simp) ?_)
    by_cases hread : f.readFails
    · simp only [if_pos hread]
      exact .releaseLast (.pure _)
    · simp only [if_neg hread]
      exact .releaseLast (.pure _)

theorem writeKvItem_ends (f : WriteFaults) (data : ℕ) (kv : List KvItem) (location : ℕ) :
    Ends b [data] disk (writeKvItemProg f data kv location) (writeKvItem f disk kv location).2 b [data]
      (writeKvItem f disk kv location).1 := by
  refine .load ?_
  cases disk with
  | none => exact .refused (by simp) (.pure _)
  | some file =>
    by_cases hopen : f.openFails
    · refine .refused (by simp [hopen]) ?_
      simp only [writeKvItem,if_pos hopen]
      exact .pure _
    refine .granted (by simp [hopen]) fun fd => .useLast ?_
    simp only [writeKvItem,if_neg hopen,Option.getD_some]
    by_cases hfstat : f.fstatFails
    · simp only [if_pos hfstat]
      exact .releaseLast (.pure _)
    by_cases hshort : file.length < (location+1)*itemMaxLen*tableRowSize
    · simp only [if_neg hfstat,if_pos hshort]
      exact .releaseLast (.pure _)
    simp only [if_neg hfstat,if_neg hshort]
    refine .useLast ?_
    by_cases hlseek : f.lseekFails
    · simp only [if_pos hlseek]
      exact .releaseLast (.pure _)
    simp only [if_neg hlseek]
    refine .useLast (.use (by simp) (.save ?_))
    by_cases hwritten : f.write.count rowLen = some rowLen
    · simp only [hwritten,not_true_eq_false,ne_eq,if_false,if_true]
      exact .useLast (.releaseLast (.pure _))
    · simp only [hwritten,not_false_eq_true,ne_eq,if_false,if_true]
      exact .releaseLast (.pure _)

theorem freeKv_ends (kv : ℕ) : Ends b [kv] disk (freeKvProg kv) () b [] disk :=
  .useLast (.released kv)

theorem hashTablePut_ends (f : Faults) (key : Option CStr) (value : Option Value) :
    Ends b [] disk (hashTablePutProg f key value) (hashTablePut f disk key value).2 b []
      (hashTablePut f disk key value).1 := by
  cases key with
  | none => exact .pure _
  | some key =>
    cases value with
    | none => exact .pure _
    | some value =>
      simp only [hashTablePutProg,hashTablePut,hashTablePutRow]
      by_cases hlen : value.len ≤ 0
      · simp only [if_pos hlen]
        exact .pure _
      simp only [if_neg hlen]
      by_cases hmalloc : f.malloc
      · simp only [if_pos hmalloc]
        exact .refused hmalloc (.pure _)
      simp only [if_neg hmalloc]
      refine .granted hmalloc fun kv => .useLast ((readKvItem_ends f.read kv (hashGen key)).seq ?_)
      cases readKvItem f.read disk (hashGen key) with
      | none => exact (freeKv_ends kv).seq (.pure _)
      | some row =>
        refine .useLast ?_
        simp only
        cases putLoop key value row with
        | none => exact .releaseLast (.pure _)
        | some row =>
          exact (writeKvItem_ends f.write kv row (hashGen key)).seq (.releaseLast (.pure _))

theorem hashTableGet_ends (malloc : Bool) (f : ReadFaults) (key : Option CStr) (buf : Option ℤ) :
    Ends b [] disk (hashTableGetProg malloc f key buf) (hashTableGet malloc f disk key buf) b [] disk := by
  cases key with
  | none => exact .pure _
  | some key =>
    cases buf with
    | none => exact .pure _
    | some len =>
      simp only [hashTableGetProg,hashTableGet]
      by_cases hlen : len ≤ 0
      · simp only [if_pos hlen]
        exact .pure _
      simp only [if_neg hlen]
      by_cases hmalloc : malloc
      · simp only [if_pos hmalloc]
        exact .refused hmalloc (.pure _)
      simp only [if_neg hmalloc]
      refine .granted hmalloc fun kv => .useLast ((readKvItem_ends f kv (hashGen key)).seq ?_)
      cases readKvItem f disk (hashGen key) with
      | none => exact (freeKv_ends kv).seq (.pure _)
      | some row => exact .useLast ((freeKv_ends kv).seq (.pure _))

theorem hashTableRm_ends (f : Faults) (key : Option CStr) :
    Ends b [] disk (hashTableRmProg f key) (hashTableRm f disk key).2 b []
      (hashTableRm f disk key).1 := by
  cases key with
  | none => exact .pure _
  | some key =>
    simp only [hashTableRmProg,hashTableRm]
    by_cases hmalloc : f.malloc
    · simp only [if_pos hmalloc]
      exact .refused hmalloc (.pure _)
    simp only [if_neg hmalloc]
    refine .granted hmalloc fun kv => .useLast ((readKvItem_ends f.read kv (hashGen key)).seq ?_)
    cases readKvItem f.read disk (hashGen key) with
    | none => exact (freeKv_ends kv).seq (.pure _)
    | some row =>
      refine .useLast ((writeKvItem_ends f.write kv (rmLoop key row) (hashGen key)).seq ?_)
      exact (freeKv_ends kv).seq (.pure _)

variable {file : ℕ}

theorem underLock_ends {R : Type} {p : Prog Disk R} {r : R} {disk' : Disk}
    (h : Ends true [] disk p r true [] disk') :
    Ends false [file] disk (underLock file p) r false [file] disk' :=
  .useLast (.lock (h.bind (.useLast (.unlock (.pure _)))))

theorem mapfileKvSet_ends (f : Faults) (key : Option CStr) (value : Option Value) :
    Ends false [file] disk (mapfileKvSetProg file f key value) (mapfileKvSet f disk key value).2 false
      [file] (mapfileKvSet f disk key value).1 := by
  cases key with
  | none => exact .pure _
  | some key =>
    cases value with
    | none => exact .pure _
    | some value =>
      simp only [mapfileKvSetProg,mapfileKvSet,kvSet]
      by_cases hlen : value.len ≤ 0
      · simp only [if_pos hlen]
        exact .pure _
      · simp only [if_neg hlen]
        exact underLock_ends (hashTablePut_ends f _ _)

theorem mapfileKvGet_ends (malloc : Bool) (f : ReadFaults) (key : Option CStr) (buf : Option ℤ) :
    Ends false [file] disk (mapfileKvGetProg file malloc f key buf) (mapfileKvGet malloc f disk key buf)
      false [file] disk := by
  cases key with
  | none => exact .pure _
  | some key =>
    cases buf with
    | none => exact .pure _
    | some len =>
      simp only [mapfileKvGetProg,mapfileKvGet,kvGet]
      by_cases hlen : len ≤ 0
      · simp only [if_pos hlen]
        exact .pure _
      · simp only [if_neg hlen]
        exact underLock_ends (hashTableGet_ends malloc f _ _)

theorem mapfileKvDel_ends (f : Faults) (key : Option CStr) :
    Ends false [file] disk (mapfileKvDelProg file f key) (mapfileKvDel f disk key).2 false [file]
      (mapfileKvDel f disk key).1 := by
  cases key with
  | none => exact .pure _
  | some key => exact underLock_ends (hashTableRm_ends f _)

theorem empty_ends (f : EmpFaults) :
    Ends b [] disk (emptyProg f) (mapfileKvEmp f disk).2 b [] (mapfileKvEmp f disk).1 := by
  rw [emptyProg,mapfileKvEmp]
  by_cases hopen : f.fopenFails
  · simp only [if_pos hopen]
    exact .refused hopen (.pure _)
  simp only [if_neg hopen]
  refine .granted hopen fun fp => .save ?_
  by_cases htruncate : f.truncateFails
  · simp only [if_pos htruncate]
    exact .releaseLast (.pure _)
  simp only [if_neg htruncate]
  refine .save (.useLast (.releaseLast ?_))
  by_cases hfsync : f.fsyncFails
  · simp only [if_pos hfsync]
    exact .pure _
  · simp only [if_neg hfsync]
    exact .pure _

/-- A call gives back all that it takes, whatever fails. -/
theorem callProg_ends (file : ℕ) (c : Call) (disk : Disk) :
    Ends false [file] disk (callProg file c) (c.run disk).2 false [file] (c.run disk).1 := by
  cases c with
  | set f key value => exact (mapfileKvSet_ends f key value).seq (.pure _)
  | get malloc f key buf => exact (mapfileKvGet_ends malloc f key buf).seq (.pure _)
  | del f key => exact (mapfileKvDel_ends f key).seq (.pure _)
  | emp f => exact (underLock_ends (empty_ends f)).seq (.pure _)

theorem createHashFile_ends (b : Bool) (f : OpenFaults) (disk : Disk) :
    Ends b [] disk (createHashFileProg f) (createHashFile f disk).2 b [] (createHashFile f disk).1 := by
  refine .load ?_
  simp only [createHashFile]
  by_cases hopen : f.openFails
  · simp only [if_pos hopen]
    exact .refused hopen (.pure _)
  simp only [if_neg hopen]
  refine .granted hopen fun fd => .save (.useLast ?_)
  by_cases hftruncate : f.ftruncateFails
  · simp only [if_pos hftruncate]
    exact .releaseLast (.pure _)
  simp only [if_neg hftruncate]
  refine .save (.useLast ?_)
  by_cases hfsync : f.fsyncFails
  · simp only [if_pos hfsync]
    exact .releaseLast (.pure _)
  · simp only [if_neg hfsync]
    exact .releaseLast (.pure _)

end Calls

section Sessions

/-- `mapfile_kv_open` and calls through the handle, if there is one. -/
def session (malloc : Bool) (f : OpenFaults) (calls : List Call) : Prog Disk (Option (List Reply)) := do
  let file ← mapfileKvOpenProg malloc f
  match file with
  | none => pure none
  | some file => do
    let replies ← runAll (callProg file) calls
    pure (some replies)

/-- The handle is there when its memory is and the file can be made. -/
def opened (malloc : Bool) (f : OpenFaults) (disk : Disk) : Prop :=
  malloc = false ∧ (mapfileKvOpen f disk).2 = .ok

def openedDisk (malloc : Bool) (f : OpenFaults) (disk : Disk) : Disk :=
  if malloc then disk else (mapfileKvOpen f disk).1

theorem mapfileKvOpen_fails {malloc : Bool} {f : OpenFaults} {disk : Disk} (h : ¬ opened malloc f disk) :
    Ends false [] disk (mapfileKvOpenProg malloc f) none false [] (openedDisk malloc f disk) := by
  by_cases hmalloc : malloc
  · simp only [openedDisk,if_pos hmalloc]
    exact .refused hmalloc (.pure _)
  simp only [openedDisk,if_neg hmalloc]
  refine .granted hmalloc fun file => .useLast (.lock (.load ?_))
  have hret : (mapfileKvOpen f disk).2 = .fail := by
    cases hret : (mapfileKvOpen f disk).2 with
    | ok => exact absurd ⟨Bool.eq_false_iff.mpr hmalloc,hret⟩ h
    | fail => rfl
  rw [mapfileKvOpen] at hret ⊢
  by_cases haccess : disk.isNone ∨ f.accessFails
  · rw [if_pos haccess] at hret ⊢
    rw [if_pos haccess]
    have hcreate := createHashFile_ends true f disk
    rw [hret] at hcreate
    exact hcreate.bind (.useLast (.unlock (.releaseLast (.pure _))))
  · rw [if_neg haccess] at hret
    cases hret

theorem mapfileKvOpen_holds {malloc : Bool} {f : OpenFaults} {disk : Disk} (h : opened malloc f disk)
    (rest : List ℕ) (next : ℕ) : ∃ next', mapfileKvOpenProg malloc f ⟨disk,false,rest,next⟩ =
      some (some next,⟨openedDisk malloc f disk,false,next::rest,next'⟩) := by
  obtain ⟨hmalloc,hret⟩ := h
  have hgranted : ¬ malloc = true := Bool.eq_false_iff.mp hmalloc
  simp only [openedDisk,if_neg hgranted]
  refine Ends.kept hgranted (c:=some) (fun file => ?_) rest next
  refine .useLast (.lock (.load ?_))
  rw [mapfileKvOpen] at hret ⊢
  by_cases haccess : disk.isNone ∨ f.accessFails
  · rw [if_pos haccess] at hret ⊢
    rw [if_pos haccess]
    have hcreate := createHashFile_ends true f disk
    rw [hret] at hcreate
    exact hcreate.bind (.useLast (.unlock (.pure _)))
  · rw [if_neg haccess,if_neg haccess]
    exact .useLast (.unlock (.pure _))

/-- Whatever fails in opening the store and in any sequence of calls, the programs never use, close or
free what they do not hold and never wait for the mutex that they have: they return, with the answers and the
file of the store's functions, the mutex is free, and of all descriptors, streams and buffers only the
handle is still held, where there is one. -/
theorem session_releases (malloc : Bool) (f : OpenFaults) (disk : Disk) (calls : List Call)
    (rest : List ℕ) (next : ℕ) :
    (opened malloc f disk → ∃ replies disk' next', session malloc f calls ⟨disk,false,rest,next⟩ =
        some (some replies,⟨disk',false,next::rest,next'⟩) ∧ replies.length = calls.length ∧
        Replays (fun disk c => c.run disk) (mapfileKvOpen f disk).1 (calls.zip replies) disk') ∧
      (¬ opened malloc f disk → ∃ next', session malloc f calls ⟨disk,false,rest,next⟩ =
        some (none,⟨openedDisk malloc f disk,false,rest,next'⟩)) := by
  constructor
  · intro hopened
    obtain ⟨n,hopen⟩ := mapfileKvOpen_holds hopened rest next
    have hdisk : openedDisk malloc f disk = (mapfileKvOpen f disk).1 :=
      if_neg (Bool.eq_false_iff.mp hopened.1)
    rw [hdisk] at hopen
    obtain ⟨replies,disk',hends,hlength,hreplays⟩ :=
      ends_runAll (callProg_ends next) calls (mapfileKvOpen f disk).1
    have hcalls : Ends false [next] (mapfileKvOpen f disk).1 (runAll (callProg next) calls >>=
        fun replies => pure (some replies)) (some replies) false [next] disk' := hends.seq (.pure _)
    obtain ⟨next',hrun⟩ := hcalls rest n
    refine ⟨replies,disk',next',?_,hlength,hreplays⟩
    change (mapfileKvOpenProg malloc f ⟨disk,false,rest,next⟩).bind _ = _
    rw [hopen]
    exact hrun
  · intro hfails
    have hsession : Ends false [] disk (session malloc f calls) none false []
        (openedDisk malloc f disk) := (mapfileKvOpen_fails hfails).bind (.pure none)
    exact hsession rest next

end Sessions

end MapfileResources
end IotBase
