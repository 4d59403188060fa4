import IotBase.LogSetting
import IotBase.JsonFile
import IotBase.ResourceProgram

/-! The streams and buffers of the two functions that open a file outside the store. Reading a
configuration gives back all it takes; setting the log gives back nothing of what the setting before
has taken. -/
namespace IotBase
namespace FileResources
open RawBytes CString LabelledRun ResourceProgram

section Json
open JsonApi JsonFile

/-- `json_read_file`; the state is `*json_conf_root`, whose document is the caller's. -/
def jsonReadFileProg (cJSONParse : CStr → Option CJson) (env : FileEnv) (filepath : Option CStr) :
    Prog (Option CJson) Ret :=
  match filepath with
  | none => pure .fail
  | some filepath =>
    let size := jsonGetFileSize env (some filepath)
    if size = 0 then pure .fail
    else if size > jsonConfFileMaxSize then pure .fail
    else do
      let buf ← tryAcquire env.mallocFails
      match buf with
      | none => pure .fail
      | some buf => do
        use buf
        let fp ← tryAcquire env.fopenFails
        match fp with
        | none => do
          release buf
          pure .fail
        | some fp => do
          use buf
          use fp
          let read := env.content.take size
          if read.length ≠ size then do
            release buf
            release fp
            pure .fail
          else do
            release fp
            use buf
            save (cJSONParse (bufStr (memcpy (List.replicate (size+1) 0) read read.length)))
            release buf
            pure .ok

structure ReadCall where
  env : FileEnv
  filepath : Option CStr

def ReadCall.run (cJSONParse : CStr → Option CJson) (root : Option CJson) (c : ReadCall) :
    Option CJson × Ret :=
  let r := jsonReadFile cJSONParse c.env c.filepath root
  (r.2,r.1)

/-- The buffer is freed before the stream is closed where the file is shorter than it was. -/
theorem Ends.releaseSecond {S β : Type} {b b' : Bool} {s s' : S} {a : β} {k' : List ℕ} {id id' : ℕ}
    {k : List ℕ} {q : Unit → Prog S β} (h : Ends b (id::k) s (q ()) a b' k' s') :
    Ends b (id::id'::k) s (release id' >>= q) a b' k' s' := by
  refine .release (by simp) ?_
  by_cases heq : id = id'
  · rwa [← heq,List.erase_cons_head]
  · rwa [List.erase_cons_tail (by simpa using heq),List.erase_cons_head]

theorem jsonReadFile_ends (cJSONParse : CStr → Option CJson) (c : ReadCall) (root : Option CJson) :
    Ends false [] root (jsonReadFileProg cJSONParse c.env c.filepath) (c.run cJSONParse root).2 false []
      (c.run cJSONParse root).1 := by
  rw [ReadCall.run]
  cases hpath : c.filepath with
  | none => exact .pure _
  | some filepath =>
    simp only [jsonReadFileProg,jsonReadFile]
    generalize jsonGetFileSize c.env (some filepath) = size
    by_cases hzero : size = 0
    · simp only [if_pos hzero]
      exact .pure _
    by_cases hmax : size > jsonConfFileMaxSize
    · simp only [if_neg hzero,if_pos hmax]
      exact .pure _
    simp only [if_neg hzero,if_neg hmax]
    by_cases hmalloc : c.env.mallocFails
    · simp only [if_pos hmalloc]
      exact .refused hmalloc (.pure _)
    simp only [if_neg hmalloc]
    refine .granted hmalloc fun buf => .useLast ?_
    by_cases hfopen : c.env.fopenFails
    · simp only [if_pos hfopen]
      exact .refused hfopen (.releaseLast (.pure _))
    simp only [if_neg hfopen]
    refine .granted hfopen fun fp => .use (by simp) (.useLast ?_)
    by_cases hread : (c.env.content.take size).length ≠ size
    · simp only [if_pos hread]
      exact Ends.releaseSecond (.releaseLast (.pure _))
    · simp only [if_neg hread]
      exact .releaseLast (.useLast (.save (.releaseLast (.pure _))))

/-- Whatever the files and whatever fails, any number of readings closes and frees all that it opens
and allocates, nothing twice and nothing that it still uses, and answers as the calls do. -/
theorem readings_release (cJSONParse : CStr → Option CJson) (calls : List ReadCall)
    (root : Option CJson) (rest : List ℕ) (next : ℕ) : ∃ rs root' next',
      runAll (fun c => jsonReadFileProg cJSONParse c.env c.filepath) calls ⟨root,false,rest,next⟩ =
        some (rs,⟨root',false,rest,next'⟩) ∧
      rs.length = calls.length ∧ Replays (ReadCall.run cJSONParse) root (calls.zip rs) root' := by
  obtain ⟨rs,root',hends,hlength,hreplays⟩ := ends_runAll (jsonReadFile_ends cJSONParse) calls root
  obtain ⟨next',hrun⟩ := hends rest next
  exact ⟨rs,root',next',hrun,hlength,hreplays⟩

end Json

section Log
open LogRecord LogSetting

/-- The part of `gw_log_setting` that creates the file; the stream is closed again. -/
def createLogFileProg (f : SettingFaults) (filename : CStr) : Prog LogState Bool := do
  let st ← load
  if (st.disk filename).isNone then do
    let fp ← tryAcquire f.createFails
    match fp with
    | none => pure false
    | some fp => do
      save {st with disk := Function.update st.disk filename (some [])}
      release fp
      pure true
  else pure true

/-- `gw_log_setting`: neither the stream nor the buffer that `log_setting` has is closed or freed. -/
def gwLogSettingProg (int : ℤ → ℤ) (f : SettingFaults) (level : ℤ) (filename : Option CStr)
    (maxLogSize : ℤ) : Prog LogState Ret :=
  match filename with
  | none => pure .fail
  | some filename =>
    if gwLogMaxFileName-1 < filename.strlen then pure .fail
    else do
      let st ← load
      save {st with setting := {st.setting with logLevel := level}}
      let created ← createLogFileProg f filename
      if created = false then pure .fail
      else do
        let fp ← tryAcquire f.openFails
        let st ← load
        match fp with
        | none => do
          save {st with setting := {st.setting with fp := none}}
          pure .fail
        | some _ => do
          let size := stSize st.disk filename
          save {st with setting := {st.setting with
            fp := some filename
            fileSize := int (if size > 0 then size else 0)
            maxSize := maxLogSize}}
          let buffer ← tryAcquire f.mallocFails
          let st ← load
          match buffer with
          | none => do
            save {st with setting := {st.setting with buffer := false}}
            pure .fail
          | some _ => do
            save {st with setting := {st.setting with buffer := true}}
            pure .ok

structure SettingCall where
  faults : SettingFaults
  level : ℤ
  filename : Option CStr
  maxLogSize : ℤ

variable {int : ℤ → ℤ}

def SettingCall.run (int : ℤ → ℤ) (st : LogState) (c : SettingCall) : LogState × Ret :=
  gwLogSetting int c.faults st c.level c.filename c.maxLogSize

/-- The stream, where it is opened, and the buffer, where that is allocated then. -/
def SettingCall.keeps (st : LogState) (c : SettingCall) : ℕ :=
  match c.filename with
  | none => 0
  | some filename =>
    if gwLogMaxFileName-1 < filename.strlen then 0
    else if (createLogFile c.faults st.disk filename).isNone then 0
    else if c.faults.openFails then 0
    else if c.faults.mallocFails then 1
    else 2

theorem createLogFile_ends (f : SettingFaults) (filename : CStr) (st : LogState) :
    (createLogFile f st.disk filename = none ∧
        Ends false [] st (createLogFileProg f filename) false false [] st) ∨
      ∃ disk, createLogFile f st.disk filename = some disk ∧
        Ends false [] st (createLogFileProg f filename) true false [] {st with disk := disk} := by
  cases hfile : st.disk filename with
  | some file =>
    refine Or.inr ⟨st.disk,by rw [createLogFile,hfile],.load ?_⟩
    simp only [hfile,Option.isNone_some,Bool.false_eq_true,if_false]
    exact .pure _
  | none =>
    by_cases hcreate : f.createFails
    · refine Or.inl ⟨by simp only [createLogFile,hfile,if_pos hcreate],.load ?_⟩
      simp only [hfile,Option.isNone_none,if_true]
      exact .refused hcreate (.pure _)
    · refine Or.inr ⟨Function.update st.disk filename (some []),
        by simp only [createLogFile,hfile,if_neg hcreate],.load ?_⟩
      simp only [hfile,Option.isNone_none,if_true]
      exact .granted hcreate fun fp => .save (.releaseLast (.pure _))

theorem gwLogSetting_leaves (c : SettingCall) (st : LogState) :
    Leaves false st (gwLogSettingProg int c.faults c.level c.filename c.maxLogSize) (c.run int st).2
      (c.keeps st) false (c.run int st).1 := by
  have hpure : ∀ (r : Ret) (u : LogState), Leaves false u (pure r) r 0 false u := fun r u =>
    (Ends.pure (k:=[]) r).leaves
  rw [SettingCall.run,SettingCall.keeps]
  cases hname : c.filename with
  | none => exact hpure _ _
  | some filename =>
    simp only [gwLogSettingProg,gwLogSetting]
    by_cases hlong : gwLogMaxFileName-1 < filename.strlen
    · simp only [if_pos hlong]
      exact hpure _ _
    simp only [if_neg hlong]
    refine .load (.save ?_)
    have hcreate := createLogFile_ends c.faults filename
      {st with setting := {st.setting with logLevel := c.level}}
    rcases hcreate with ⟨hnone,hends⟩ | ⟨disk,hsome,hends⟩
    · simp only [hnone,Option.isNone_none,if_true]
      refine .after hends ?_
      exact hpure _ _
    · simp only [hsome,Option.isNone_some,Bool.false_eq_true,if_false]
      by_cases hopen : c.faults.openFails
      · simp only [if_pos hopen]
        refine .after hends (.refused hopen (.load (.save ?_)))
        exact hpure _ _
      simp only [if_neg hopen]
      by_cases hmalloc : c.faults.mallocFails
      · simp only [if_pos hmalloc]
        refine .after hends (.granted hopen fun fp => .load (.save ?_))
        exact .refused hmalloc (.load (.save (hpure _ _)))
      · simp only [if_neg hmalloc]
        refine .after hends (.granted hopen fun fp => .load (.save ?_))
        exact .granted hmalloc fun buffer => .load (.save (hpure _ _))

/-- Whatever fails in them, calls of `gw_log_setting` give back nothing that earlier calls have taken:
one stream stays open for each call that opens the file, also for one that then fails, and one buffer
allocated for each that gets it. -/
theorem settings_leak (calls : List SettingCall) (st : LogState) (rest : List ℕ) (next : ℕ) :
    ∃ rs st' kept next',
      runAll (fun c : SettingCall => gwLogSettingProg int c.faults c.level c.filename c.maxLogSize) calls
          ⟨st,false,rest,next⟩ = some (rs,⟨st',false,kept++rest,next'⟩) ∧
      kept.length = total (SettingCall.run int) (fun st c => c.keeps st) st calls ∧
      rs.length = calls.length ∧ Replays (SettingCall.run int) st (calls.zip rs) st' := by
  obtain ⟨rs,st',hleaves,hlength,hreplays⟩ := leaves_runAll gwLogSetting_leaves calls st
  obtain ⟨kept,next',hrun,hkept⟩ := hleaves rest next
  exact ⟨rs,st',kept,next',hrun,hkept,hlength,hreplays⟩

end Log

end FileResources
end IotBase
