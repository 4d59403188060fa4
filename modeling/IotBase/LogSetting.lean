import IotBase.LogWrite

/-! `gw_log_setting`: the file, its size and the buffer of the log. The write position is split
between `file_size`, which it sets, and `log_offset`, which it does not touch. -/
namespace IotBase
namespace LogSetting
open RawBytes CString LogRecord LogWrite

inductive Ret
  | ok | fail

def gwLogMaxFileName : ℕ := 128

/-- Which calls of `gw_log_setting` fail: the `fopen` that creates the file, the one that
opens it, and `malloc`. -/
structure SettingFaults where
  createFails : Bool := false
  openFails : Bool := false
  mallocFails : Bool := false

/-- `log_setting` and `log_offset` when a process starts. -/
def processStart (disk : CStr → Option Bytes) : LogState := ⟨⟨0,none,false,0,0⟩,0,disk⟩

def stSize (disk : CStr → Option Bytes) (filename : CStr) : ℤ := ((disk filename).getD []).length

/-- The file after `fopen(filename, "w")`, which is called when it does not exist. -/
def createLogFile (f : SettingFaults) (disk : CStr → Option Bytes) (filename : CStr) :
    Option (CStr → Option Bytes) :=
  match disk filename with
  | some _ => some disk
  | none => if f.createFails then none else some (Function.update disk filename (some []))

/-- `stat` of the file that has just been opened is taken to succeed: its result is not looked
at. An error in it would leave `st` unset. -/
def gwLogSetting (int : ℤ → ℤ) (f : SettingFaults) (st : LogState) (level : ℤ)
    (filename : Option CStr) (maxLogSize : ℤ) : LogState × Ret :=
  match filename with
  | none => (st,.fail)
  | some filename =>
    if gwLogMaxFileName-1 < filename.strlen then (st,.fail)
    else
      let st := {st with setting := {st.setting with logLevel := level}}
      match createLogFile f st.disk filename with
      | none => (st,.fail)
      | some disk =>
        let st := {st with disk := disk}
        if f.openFails then ({st with setting := {st.setting with fp := none}},.fail)
        else
          let size := stSize st.disk filename
          let st := {st with setting := {st.setting with
            fp := some filename
            fileSize := int (if size > 0 then size else 0)
            maxSize := maxLogSize}}
          if f.mallocFails then ({st with setting := {st.setting with buffer := false}},.fail)
          else ({st with setting := {st.setting with buffer := true}},.ok)

theorem createLogFile_some {f : SettingFaults} {disk disk' : CStr → Option Bytes} {filename : CStr}
    (h : createLogFile f disk filename = some disk') (name : CStr) :
    (disk' name).getD [] = (disk name).getD [] := by
  rw [createLogFile] at h
  split at h
  · cases h
    rfl
  · rename_i hnone
    split at h
    · cases h
    · cases h
      by_cases hname : name = filename
      · rw [hname,Function.update_self,hnone]
        rfl
      · rw [Function.update_of_ne hname]

theorem stSize_created {f : SettingFaults} {disk disk' : CStr → Option Bytes} {filename : CStr}
    (h : createLogFile f disk filename = some disk') :
    (if stSize disk' filename > 0 then stSize disk' filename else 0) = stSize disk filename := by
  rw [stSize,stSize,createLogFile_some h]
  split <;> omega

/-- What a setting that succeeds leaves: the contents of the files and `log_offset` are as
before, and the size is the file's length. -/
theorem gwLogSetting_ok {int : ℤ → ℤ} {f : SettingFaults} {st st' : LogState} {level maxLogSize : ℤ}
    {filename : Option CStr} (h : gwLogSetting int f st level filename maxLogSize = (st',.ok)) :
    ∃ file, filename = some file ∧ (∀ name, (st'.disk name).getD [] = (st.disk name).getD []) ∧
      st'.logOffset = st.logOffset ∧
      st'.setting = ⟨level,some file,true,maxLogSize,int (stSize st.disk file)⟩ := by
  cases filename with
  | none => simp [gwLogSetting] at h
  | some file =>
    simp only [gwLogSetting] at h
    split at h
    · cases h
    cases hcreate : createLogFile f st.disk file with
    | none => simp [hcreate] at h
    | some disk =>
      have hdisk := createLogFile_some hcreate
      simp only [hcreate] at h
      split at h
      · cases h
      split at h
      · cases h
      · cases h
        refine ⟨file,rfl,hdisk,rfl,?_⟩
        simp only [stSize_created hcreate]

end LogSetting
end IotBase
