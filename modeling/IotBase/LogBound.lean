import IotBase.LogSetting
import IotBase.LabelledRun

/-! The size of the log file, in exact arithmetic. The rotation test bounds the end of every
record before it is written, so the outcome of the writes does not matter. -/
namespace IotBase
namespace LogBound
open RawBytes CString VaFormat LogRecord LogWrite LogSetting LabelledRun

variable {A : Type*} (printf : Printf A) (file : CStr) (maxLogSize : ℤ)

inductive Op (A : Type*)
  | setting (f : SettingFaults) (level : ℤ)
  | print (c : PrintCall A)

/-- A `gw_log_setting` for the file that succeeds, or a `log_printf` that returns. -/
def step (st : LogState) : Op A → Option LogState
  | .setting f level =>
    match gwLogSetting id f st level (some file) maxLogSize with
    | (_,.fail) => none
    | (st,.ok) => some st
  | .print c => (c.run printf id st).2

def content (st : LogState) : Bytes := (st.disk file).getD []

/-- What a call writes while `pwrite` gives the answers, to the end of the call or not. -/
def callStores (st : LogState) (c : PrintCall A) : List (ℕ × Bytes) :=
  match (c.run printf id st).1.record with
  | none => []
  | some (data,offset) => stores data offset c.answers 0

def writeBound : ℤ := max (maxLogSize-1) (writeBufSize-1)

/-- Between two calls; `size` is the length of the file at the beginning. -/
structure Inv (size : ℕ) (st : LogState) : Prop where
  file_eq : ∀ name, st.setting.fp = some name → name = file ∧ st.setting.maxSize = maxLogSize
  fileSize : 0 ≤ st.setting.fileSize
  logOffset : 0 ≤ st.logOffset
  length : (content file st).length ≤ max (size : ℤ) (writeBound maxLogSize)

section Steps

variable {printf file maxLogSize} {size : ℕ} {st st' : LogState} {c : PrintCall A}

theorem Inv.place (h : Inv file maxLogSize size st) {name : CStr} {data : Bytes} {offset : ℤ}
    {rs : List PwriteResult} {after : Option (LogState × Bool)} (hfp : st.setting.fp = some name)
    (hfits : FitsRecord data) (hw : writeRecord id rs st name data = (offset,after)) :
    0 ≤ offset ∧ offset+data.length ≤ writeBound maxLogSize := by
  have hoff := writeRecord_offset hw
  have hsize : data.length < writeBufSize := hfits.2
  have hzero := h.fileSize
  have hzero' := h.logOffset
  rw [writeBound,le_max_iff]
  by_cases hrot : Rotates id st data.length
  · rw [rotate_pos hrot] at hoff
    have hfront : offset = 0 := hoff
    exact ⟨by omega,Or.inr (by omega)⟩
  · rw [rotate_neg hrot] at hoff
    have hpos : offset = st.setting.fileSize+st.logOffset := hoff
    have htest : ¬ st.setting.maxSize ≤ st.setting.fileSize+st.logOffset+data.length := hrot
    rw [(h.file_eq name hfp).2] at htest
    exact ⟨by omega,Or.inl (by omega)⟩

theorem Inv.stores_le (h : Inv file maxLogSize size st) (c : PrintCall A) :
    ∀ w ∈ callStores printf st c, (w.1+w.2.length : ℤ) ≤ writeBound maxLogSize := by
  intro w hw
  rw [callStores] at hw
  rcases c.run_cases printf id st with ⟨hnone,-,-⟩ | ⟨name,data,offset,after,hfp,hfits,hwrite,hrecord,-,-⟩
  · simp [hnone] at hw
  · rw [hrecord] at hw
    obtain ⟨-,hend⟩ := h.place hfp hfits hwrite
    exact (stores_within (Nat.zero_le _) w hw).2.trans hend

theorem Inv.during (h : Inv file maxLogSize size st) (c : PrintCall A) :
    (applyStores (content file st) (callStores printf st c)).length ≤
      max (size : ℤ) (writeBound maxLogSize) :=
  applyStores_length_le h.length fun w hw => (h.stores_le c w hw).trans (le_max_right _ _)

theorem inv_start (disk : CStr → Option Bytes) :
    Inv file maxLogSize ((disk file).getD []).length (processStart disk) where
  file_eq name h := by simp [processStart] at h
  fileSize := le_refl 0
  logOffset := le_refl 0
  length := le_max_left _ _

theorem Inv.setting (h : Inv file maxLogSize size st) {f : SettingFaults} {level : ℤ}
    (hst : gwLogSetting id f st level (some file) maxLogSize = (st',.ok)) : Inv file maxLogSize size st' := by
  obtain ⟨_,hfile,hdisk,hoff,hsetting⟩ := gwLogSetting_ok hst
  cases hfile
  constructor
  · intro name hname
    rw [hsetting] at hname ⊢
    cases hname
    exact ⟨rfl,rfl⟩
  · rw [hsetting]
    exact Int.natCast_nonneg _
  · rw [hoff]
    exact h.logOffset
  · rw [content,hdisk]
    exact h.length

theorem Inv.print (h : Inv file maxLogSize size st) (hst : (c.run printf id st).2 = some st') :
    Inv file maxLogSize size st' := by
  have hduring : (applyStores (content file st) (callStores printf st c)).length ≤
      max (size : ℤ) (writeBound maxLogSize) := h.during c
  rcases PrintCall.run_some printf id hst with
    ⟨-,-,-,rfl⟩ | ⟨name,data,offset,hfp,hfits,hrecord,-,hwrite⟩
  · exact h
  obtain ⟨-,hsetting,hoff,hdisk⟩ := writeRecord_some hwrite
  obtain ⟨rfl,hmax⟩ := h.file_eq name hfp
  have hzero := h.fileSize
  have hzero' := h.logOffset
  constructor
  · intro name' hname'
    rw [hsetting,rotate_fp,hfp] at hname'
    rw [hsetting,rotate_maxSize]
    exact ⟨(Option.some.inj hname').symm,hmax⟩
  · rw [hsetting,rotate]
    split
    · exact le_refl 0
    · exact hzero
  · have hrot : 0 ≤ (rotate id st data.length).logOffset := by
      rw [rotate]
      split
      · exact le_refl 0
      · exact hzero'
    rw [hoff]
    split
    · exact hrot
    · rw [id]
      omega
  · rw [content,hdisk,Function.update_self,Option.getD_some]
    rw [callStores,hrecord] at hduring
    exact hduring

theorem Inv.step (h : Inv file maxLogSize size st) {op : Op A}
    (hst : step printf file maxLogSize st op = some st') : Inv file maxLogSize size st' := by
  cases op with
  | setting f level =>
    simp only [LogBound.step] at hst
    split at hst
    · cases hst
    · rename_i hset
      cases hst
      exact h.setting hset
  | print c => exact h.print hst

end Steps

/-- Between calls and inside every further call, whatever `pwrite` answers: the file stays within
its first length and the bound, and every byte is written below the bound. -/
theorem log_file_bounded (disk : CStr → Option Bytes) (ops : List (Op A)) {st : LogState}
    (hst : exec (step printf file maxLogSize) (processStart disk) ops = some st) :
    (content file st).length ≤ max (((disk file).getD []).length : ℤ) (max (maxLogSize-1) (writeBufSize-1)) ∧
    ∀ c : PrintCall A,
      (∀ w ∈ callStores printf st c, (w.1+w.2.length : ℤ) ≤ max (maxLogSize-1) (writeBufSize-1)) ∧
      (applyStores (content file st) (callStores printf st c)).length ≤
        max (((disk file).getD []).length : ℤ) (max (maxLogSize-1) (writeBufSize-1)) := by
  have hinv : Inv file maxLogSize ((disk file).getD []).length st :=
    exec_invariant_of_step (fun _ _ _ h hst => h.step hst) ops (inv_start disk) hst
  exact ⟨hinv.length,fun c => ⟨hinv.stores_le c,hinv.during c⟩⟩

theorem log_file_bounded_torn : ∃ st,
    exec (step printInts logFile 64) (processStart fun _ => some [0])
      [.setting {} 1,.print ⟨noon,[.wrote 3,.error],1,funcName,7,some plainFmt,fun _ => 0⟩] = some st ∧
    (content logFile st).length = 4 ∧
    (content logFile st).length ≤ max (([0] : Bytes).length : ℤ) (max (64-1) (writeBufSize-1)) := by
  obtain ⟨st,hst,hlength⟩ : ∃ st, exec (step printInts logFile 64) (processStart fun _ => some [0])
      [.setting {} 1,.print ⟨noon,[.wrote 3,.error],1,funcName,7,some plainFmt,fun _ => 0⟩] = some st ∧
      (content logFile st).length = 4 := ⟨_,rfl,by decide⟩
  exact ⟨st,hst,hlength,(log_file_bounded printInts logFile 64 _ _ hst).1⟩

end LogBound
end IotBase
