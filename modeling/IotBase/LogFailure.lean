import IotBase.LogSetting
import Mathlib.Data.Option.Basic

/-! What a `gw_log_setting` that fails leaves of the log: its exits lie before, between and
behind the assignments to `log_setting`. -/
namespace IotBase
namespace LogFailure
open RawBytes CString VaFormat LogRecord LogWrite LogSetting

/-- The same settings and write position, and files that read the same. -/
structure SameLog (st st' : LogState) : Prop where
  setting : st'.setting = st.setting
  logOffset : st'.logOffset = st.logOffset
  disk : ∀ name, (st'.disk name).getD [] = (st.disk name).getD []

section Calls

variable {A : Type*} (printf : Printf A) (int : ℤ → ℤ)

/-- Calls one after the other: what each puts out, and the log after the last one unless one
crashes or does not return. -/
def printAll : LogState → List (PrintCall A) → List Output × Option LogState
  | st, [] => ([],some st)
  | st, c::cs =>
    match c.run printf int st with
    | (out,none) => ([out],none)
    | (out,some st) =>
      let r := printAll st cs
      (out::r.1,r.2)

/-- Level, file, buffer, size limit and write position are the old ones and every sequence of
calls behaves as before. -/
structure Kept (st st' : LogState) : Prop where
  setting : st'.setting = st.setting
  logOffset : st'.logOffset = st.logOffset
  prints : ∀ cs, (printAll printf int st' cs).1 = (printAll printf int st cs).1 ∧
    Option.Rel SameLog (printAll printf int st cs).2 (printAll printf int st' cs).2

variable {st st' : LogState}

theorem SameLog.refl (st : LogState) : SameLog st st := ⟨rfl,rfl,fun _ => rfl⟩

theorem SameLog.rotate (h : SameLog st st') (n : ℤ) :
    SameLog (LogRecord.rotate int st n) (LogRecord.rotate int st' n) := by
  simp only [LogRecord.rotate,h.setting,h.logOffset]
  split
  · exact ⟨rfl,rfl,h.disk⟩
  · exact h

theorem SameLog.writeRecord (h : SameLog st st') (rs : List PwriteResult) (file : CStr)
    (record : Bytes) :
    (LogRecord.writeRecord int rs st' file record).1 = (LogRecord.writeRecord int rs st file record).1 ∧
    Option.Rel (fun r r' => SameLog r.1 r'.1 ∧ r'.2 = r.2)
      (LogRecord.writeRecord int rs st file record).2 (LogRecord.writeRecord int rs st' file record).2 := by
  obtain ⟨hsetting,hoff,hdisk⟩ := h.rotate int record.length
  simp only [LogRecord.writeRecord,hsetting,hoff,hdisk]
  generalize fullPwrite rs (((LogRecord.rotate int st record.length).disk file).getD []) record
    (int ((LogRecord.rotate int st record.length).setting.fileSize +
      (LogRecord.rotate int st record.length).logOffset)) = written
  have hupdate : ∀ (content : Bytes) name,
      (Function.update (LogRecord.rotate int st' record.length).disk file (some content) name).getD [] =
        (Function.update (LogRecord.rotate int st record.length).disk file (some content) name).getD [] := by
    intro content name
    by_cases hname : name = file
    · rw [hname,Function.update_self,Function.update_self]
    · rw [Function.update_of_ne hname,Function.update_of_ne hname,hdisk]
  cases written with
  | none => exact ⟨rfl,.none⟩
  | some w =>
    obtain ⟨content,byteNumber⟩ := w
    simp only
    split
    · exact ⟨rfl,.some ⟨⟨rfl,rfl,hupdate content⟩,rfl⟩⟩
    · exact ⟨rfl,.some ⟨⟨rfl,rfl,hupdate content⟩,rfl⟩⟩

/-- A call cannot tell the two logs apart. -/
theorem SameLog.run (h : SameLog st st') (c : PrintCall A) :
    (c.run printf int st').1 = (c.run printf int st).1 ∧
    Option.Rel SameLog (c.run printf int st).2 (c.run printf int st').2 := by
  obtain ⟨clock,rs,level,func,line,fmt,args⟩ := c
  simp only [PrintCall.run,logPrintf,h.setting]
  cases fmt with
  | none => exact ⟨rfl,.some h⟩
  | some fmt =>
    simp only
    split
    · exact ⟨rfl,.some h⟩
    split
    · exact ⟨rfl,.some h⟩
    split
    · exact ⟨rfl,.some h⟩
    cases levelName level with
    | none => exact ⟨rfl,.some h⟩
    | some name =>
      simp only
      cases st.setting.fp with
      | none => exact ⟨rfl,.some h⟩
      | some file =>
        simp only
        split
        · split
          · generalize List.take _ _ = record
            obtain ⟨hplace,hafter⟩ := h.writeRecord int rs file record
            generalize LogRecord.writeRecord int rs st file record = w at hplace hafter ⊢
            generalize LogRecord.writeRecord int rs st' file record = w' at hplace hafter ⊢
            obtain ⟨offset,after⟩ := w
            obtain ⟨offset',after'⟩ := w'
            obtain rfl : offset' = offset := hplace
            cases hafter with
            | none => exact ⟨rfl,.none⟩
            | some hrel =>
              obtain ⟨hlog,hfailed⟩ := hrel
              simp only [hfailed]
              exact ⟨trivial,.some hlog⟩
          · exact ⟨rfl,.some h⟩
        · exact ⟨rfl,.none⟩

theorem SameLog.kept (h : SameLog st st') : Kept printf int st st' := by
  refine ⟨h.setting,h.logOffset,fun cs => ?_⟩
  induction cs generalizing st st' with
  | nil => exact ⟨rfl,.some h⟩
  | cons c cs ih =>
    obtain ⟨hout,hnext⟩ := h.run printf int c
    rw [printAll,printAll]
    generalize c.run printf int st = r at hout hnext ⊢
    generalize c.run printf int st' = r' at hout hnext ⊢
    obtain ⟨out,after⟩ := r
    obtain ⟨out',after'⟩ := r'
    obtain rfl : out' = out := hout
    cases hnext with
    | none => exact ⟨rfl,.none⟩
    | some hlog =>
      obtain ⟨houts,hend⟩ := ih hlog
      exact ⟨congrArg (out'::·) houts,hend⟩

/-- Only the first exits, before any assignment, are without effect whatever the log was. Behind
the assignment of the level the old one has to be the new one; where opening fails there must
have been no file; where the allocation fails, the same file, size and limit without a buffer. -/
def Harmless (f : SettingFaults) (st : LogState) (level : ℤ) (filename : Option CStr)
    (maxLogSize : ℤ) : Prop :=
  match filename with
  | none => True
  | some file =>
    gwLogMaxFileName-1 < file.strlen ∨
    if st.disk file = none ∧ f.createFails then level = st.setting.logLevel
    else if f.openFails then level = st.setting.logLevel ∧ st.setting.fp = none
    else if f.mallocFails then
      st.setting = ⟨level,some file,false,maxLogSize,int (stSize st.disk file)⟩
    else True

theorem createLogFile_none {f : SettingFaults} {disk : CStr → Option Bytes} {file : CStr} :
    createLogFile f disk file = none ↔ disk file = none ∧ f.createFails = true := by
  rw [createLogFile]
  cases disk file with
  | some content => simp
  | none => simp

/-- Where the files read the same, the settings decide. -/
theorem kept_iff (hoff : st'.logOffset = st.logOffset)
    (hdisk : ∀ name, (st'.disk name).getD [] = (st.disk name).getD []) :
    Kept printf int st st' ↔ st'.setting = st.setting :=
  ⟨fun h => h.setting,fun h => SameLog.kept printf int ⟨h,hoff,hdisk⟩⟩

/-- A `gw_log_setting` that fails leaves logging as it was exactly in those cases. -/
theorem failed_setting_kept_iff (f : SettingFaults) (st : LogState) (level : ℤ)
    (filename : Option CStr) (maxLogSize : ℤ) :
    ((gwLogSetting int f st level filename maxLogSize).2 = .fail →
      Kept printf int st (gwLogSetting int f st level filename maxLogSize).1) ↔
    Harmless int f st level filename maxLogSize := by
  obtain ⟨⟨oldLevel,oldFp,oldBuffer,oldMax,oldSize⟩,oldOffset,oldDisk⟩ := st
  cases filename with
  | none => exact ⟨fun _ => trivial,fun _ _ => (SameLog.refl _).kept printf int⟩
  | some file =>
    simp only [gwLogSetting,Harmless]
    by_cases hlong : gwLogMaxFileName-1 < file.strlen
    · rw [if_pos hlong]
      exact ⟨fun _ => Or.inl hlong,fun _ _ => (SameLog.refl _).kept printf int⟩
    simp only [hlong,if_false,false_or]
    cases hcreate : createLogFile f oldDisk file with
    | none =>
      rw [if_pos (createLogFile_none.mp hcreate)]
      simp only [forall_const]
      refine (kept_iff printf int ?_ ?_).trans ?_
      · rfl
      · exact fun _ => rfl
      · simp
    | some disk =>
      have hdisk := createLogFile_some hcreate
      have hexists : ¬ (oldDisk file = none ∧ f.createFails = true) := by
        rw [← createLogFile_none,hcreate]
        simp
      rw [if_neg hexists]
      simp only
      split
      · simp only [forall_const]
        refine (kept_iff printf int ?_ ?_).trans ?_
        · rfl
        · exact hdisk
        · simp [eq_comm]
      · split
        · simp only [forall_const]
          refine (kept_iff printf int ?_ ?_).trans ?_
          · rfl
          · exact hdisk
          · rw [stSize_created hcreate]
            exact eq_comm
        · simp

end Calls

/-- Reconfiguring a log that works fails for want of memory; the next call formats into a NULL
buffer, which it would not have done. -/
theorem setting_malloc_fails_breaks :
    ¬ ((gwLogSetting id {mallocFails := true} freshLog 1 (some logFile) 4096).2 = .fail →
      Kept printInts id freshLog
        (gwLogSetting id {mallocFails := true} freshLog 1 (some logFile) 4096).1) ∧
    ((PrintCall.run printInts id freshLog
      ⟨noon,[.wrote 100],1,funcName,7,some plainFmt,fun _ => 0⟩).2).isSome = true ∧
    ((PrintCall.run printInts id (gwLogSetting id {mallocFails := true} freshLog 1 (some logFile) 4096).1
      ⟨noon,[.wrote 100],1,funcName,7,some plainFmt,fun _ => 0⟩).2).isSome = false := by
  refine ⟨fun h => ?_,by decide +kernel,by decide +kernel⟩
  have hbuffer := congrArg LogSetting.buffer (h rfl).setting
  exact absurd hbuffer (by decide)

end LogFailure
end IotBase
