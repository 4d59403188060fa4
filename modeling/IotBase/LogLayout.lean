import IotBase.LogSetting
import IotBase.LabelledRun

/-! Where the records of one process go. `gw_log_setting` sets `file_size` to the length of
the file but leaves `log_offset` as the records before it have left it, so what they took up
is counted twice. -/
namespace IotBase
namespace LogLayout
open RawBytes CString VaFormat LogRecord LogWrite LogSetting LabelledRun
open MapfileStore (toInt32 toInt32_range toInt32_toInt32 toInt32_add_left eq_zero_of_toInt32_add)

/-- A record as it was written: its place, the place where it belongs, whether the rotation
test fired and the length of the file before it. -/
structure Placed where
  start : ℤ
  data : Bytes
  next : ℕ
  rotated : Bool
  length : ℕ

/-- A record belongs at `next`, or at the front after a rotation, and leaves no gap. -/
def Placed.Laid (p : Placed) : Prop :=
  p.start = (if p.rotated then 0 else (p.next : ℤ)) ∧ p.start ≤ p.length

def logLength (st : LogState) : ℕ :=
  match st.setting.fp with
  | none => 0
  | some file => ((st.disk file).getD []).length

/-- The log, whether no record has been written since the last `gw_log_setting`, where the next
record belongs and the records, newest first. -/
structure Run where
  log : LogState
  first : Bool
  next : ℕ
  placed : List Placed

variable {A : Type*} (printf : Printf A)

inductive Op (A : Type*)
  | setting (f : SettingFaults) (level : ℤ) (filename : Option CStr) (maxLogSize : ℤ)
  | print (c : PrintCall A)

def Run.setting (s : Run) (f : SettingFaults) (level : ℤ) (filename : Option CStr) (maxLogSize : ℤ) :
    Option Run :=
  match gwLogSetting toInt32 f s.log level filename maxLogSize with
  | (_,.fail) => none
  | (st,.ok) => some ⟨st,true,logLength st,s.placed⟩

def Run.print (s : Run) (c : PrintCall A) : Option Run :=
  if failed (c.run printf toInt32 s.log).1 then none
  else
    match c.run printf toInt32 s.log with
    | (_,none) => none
    | (out,some st) =>
      match out.record with
      | none => some {s with log := st}
      | some (data,offset) => some ⟨st,false,(offset+data.length).toNat,
          ⟨offset,data,s.next,decide (Rotates toInt32 s.log data.length),logLength s.log⟩::s.placed⟩

def Run.step (s : Run) : Op A → Option Run
  | .setting f level filename maxLogSize => s.setting f level filename maxLogSize
  | .print c => s.print printf c

def Run.start (disk : CStr → Option Bytes) : Run := ⟨processStart disk,false,0,[]⟩

/-- The first record after a `gw_log_setting` finds `log_offset` at zero, that is no record
before it, and a file whose length is an `int`, unless it rotates. -/
def Counted (s : Run) : Op A → Prop
  | .setting _ _ _ _ => True
  | .print c => s.first = true → ∀ data, c.record printf toInt32 s.log = some data →
      Rotates toInt32 s.log data.length ∨ s.log.logOffset = 0 ∧ s.next < 2^31

instance (s : Run) : ∀ op, Decidable (Counted printf s op)
  | .setting _ _ _ _ => .isTrue trivial
  | .print c =>
    match h : c.record printf toInt32 s.log with
    | none => .isTrue fun _ _ hdata => by cases h.symm.trans hdata
    | some data => decidable_of_iff (s.first = true → Rotates toInt32 s.log data.length ∨
        s.log.logOffset = 0 ∧ s.next < 2^31)
      ⟨fun hC hfirst _ hdata => Option.some.inj (h.symm.trans hdata) ▸ hC hfirst,
        fun hC hfirst => hC hfirst data h⟩

structure Inv (s : Run) : Prop where
  offset : -2^31 ≤ s.log.logOffset ∧ s.log.logOffset < 2^31
  unwritten : s.first = true → s.log.setting.fileSize = toInt32 s.next ∧ s.next = logLength s.log
  written : ∀ file, s.log.setting.fp = some file → s.first = false →
    Tracks s.log s.next ∧ s.next < 2^32 ∧ s.next ≤ logLength s.log
  placed : ∀ p ∈ s.placed, p.Laid

section Steps

variable {s t : Run} {c : PrintCall A} {f : SettingFaults} {level maxLogSize : ℤ}
  {filename : Option CStr}

theorem Run.setting_some (h : s.setting f level filename maxLogSize = some t) : ∃ file,
    filename = some file ∧ t.log.setting =
      ⟨level,some file,true,maxLogSize,toInt32 (logLength t.log)⟩ ∧
    (∀ name, (t.log.disk name).getD [] = (s.log.disk name).getD []) ∧
    t.log.logOffset = s.log.logOffset ∧ t.first = true ∧ t.next = logLength t.log ∧
    t.placed = s.placed := by
  rw [Run.setting] at h
  split at h
  · cases h
  · rename_i st hset
    cases h
    obtain ⟨file,hfile,hdisk,hoff,hsetting⟩ := gwLogSetting_ok hset
    refine ⟨file,hfile,?_,hdisk,hoff,rfl,rfl,rfl⟩
    have hsize : (logLength st : ℤ) = stSize s.log.disk file := by
      rw [logLength,hsetting,stSize]
      simp only [hdisk]
    rw [hsetting,hsize]

theorem Run.print_cases (h : s.print printf c = some t) :
    c.record printf toInt32 s.log = none ∧ t = s ∨
    ∃ file data offset, s.log.setting.fp = some file ∧ FitsRecord data ∧
      c.record printf toInt32 s.log = some data ∧
      writeRecord toInt32 c.answers s.log file data = (offset,some (t.log,false)) ∧
      t.first = false ∧ t.next = (offset+data.length).toNat ∧ t.placed =
        ⟨offset,data,s.next,decide (Rotates toInt32 s.log data.length),logLength s.log⟩::s.placed := by
  rw [Run.print] at h
  split at h
  · cases h
  rename_i hok
  split at h
  · cases h
  · rename_i out st hrun
    have hst : (c.run printf toInt32 s.log).2 = some st := by rw [hrun]
    have hout : (c.run printf toInt32 s.log).1 = out := by rw [hrun]
    have hwritten : failed (c.run printf toInt32 s.log).1 = false := Bool.eq_false_iff.mpr hok
    have hsome := PrintCall.run_some printf toInt32 hst
    rw [hwritten,hout] at hsome
    rcases hsome with ⟨hnone,hdata,-,rfl⟩ | ⟨file,data,offset,hfp,hfits,hrecord,hdata,hw⟩
    · simp only [hnone,Option.some.injEq] at h
      exact Or.inl ⟨hdata,h.symm⟩
    · right
      simp only [hrecord,Option.some.injEq] at h
      subst h
      exact ⟨file,data,offset,hfp,hfits,hdata,hw,rfl,rfl,rfl⟩

theorem logLength_eq {st : LogState} {file : CStr} (h : st.setting.fp = some file) :
    logLength st = ((st.disk file).getD []).length := by rw [logLength,h]

theorem le_logLength {rs : List PwriteResult} {st st' : LogState} {file : CStr} {data : Bytes}
    {offset : ℤ} (h : writeRecord toInt32 rs st file data = (offset,some (st',false)))
    (hfp : st.setting.fp = some file) (hfits : FitsRecord data) :
    (offset+data.length).toNat ≤ logLength st' := by
  obtain ⟨-,hsetting,-,-⟩ := writeRecord_some h
  obtain ⟨hnonneg,hdisk⟩ := writeRecord_ok h hfits
  have hfp' : st'.setting.fp = some file := by rw [hsetting,rotate_fp,hfp]
  have hne : data ≠ [] := List.ne_nil_of_length_pos hfits.1
  rw [logLength_eq hfp',hdisk,Function.update_self,Option.getD_some,pwriteAt_length hne]
  omega

theorem inv_start (disk : CStr → Option Bytes) : Inv (Run.start disk) where
  offset := by simp [Run.start,processStart]
  unwritten h := by simp [Run.start] at h
  written file h := by simp [Run.start,processStart] at h
  placed p hp := by simp [Run.start] at hp

theorem Inv.setting (hs : Inv s) (h : s.setting f level filename maxLogSize = some t) : Inv t := by
  obtain ⟨file,-,hsetting,-,hoff,hfirst,hnext,hplaced⟩ := Run.setting_some h
  constructor
  · rw [hoff]
    exact hs.offset
  · intro _
    refine ⟨?_,hnext⟩
    rw [hsetting,hnext]
  · intro _ _ hfalse
    rw [hfirst] at hfalse
    cases hfalse
  · rw [hplaced]
    exact hs.placed

theorem Inv.place (hs : Inv s) (hC : Counted printf s (.print c)) {file : CStr} {data : Bytes}
    {offset : ℤ} {st : LogState} (hfp : s.log.setting.fp = some file) (hfits : FitsRecord data)
    (hrecord : c.record printf toInt32 s.log = some data)
    (hw : writeRecord toInt32 c.answers s.log file data = (offset,some (st,false))) :
    Tracks st (offset+data.length) ∧ offset < 2^31 ∧
    (Rotates toInt32 s.log data.length ∧ offset = 0 ∨
      ¬ Rotates toInt32 s.log data.length ∧ offset = s.next ∧ s.next ≤ logLength s.log) := by
  by_cases hrot : Rotates toInt32 s.log data.length
  · obtain ⟨rfl,htracks⟩ := write_rotated hw hrot
    rw [zero_add]
    exact ⟨htracks,by omega,Or.inl ⟨hrot,rfl⟩⟩
  · have hpos : Tracks s.log s.next ∧ s.next < 2^32 ∧ s.next ≤ logLength s.log := by
      by_cases hfirst : s.first = true
      · obtain ⟨hzero,hlt⟩ := (hC hfirst data hrecord).resolve_left hrot
        obtain ⟨hsize,hlen⟩ := hs.unwritten hfirst
        refine ⟨?_,by omega,le_of_eq hlen⟩
        rw [Tracks,hsize,hzero,add_zero,toInt32_toInt32]
      · exact hs.written file hfp (Bool.eq_false_iff.mpr hfirst)
    obtain ⟨htracks,hlt,hle⟩ := hpos
    obtain ⟨rfl,hafter,hlt'⟩ := htracks.write (by omega) (by omega) hw hfits hrot
    exact ⟨hafter,hlt',Or.inr ⟨hrot,rfl,hle⟩⟩

theorem Inv.print (hs : Inv s) (hC : Counted printf s (.print c)) (h : s.print printf c = some t) :
    Inv t := by
  rcases Run.print_cases printf h with
    ⟨-,rfl⟩ | ⟨file,data,offset,hfp,hfits,hrecord,hw,hfirst,hnext,hplaced⟩
  · exact hs
  obtain ⟨htracks,hlt,hplace⟩ := hs.place printf hC hfp hfits hrecord hw
  obtain ⟨hnonneg,-⟩ := writeRecord_ok hw hfits
  obtain ⟨-,-,hoff,-⟩ := writeRecord_some hw
  have hsize : data.length < 1024 := hfits.2
  constructor
  · rw [hoff]
    exact toInt32_range _
  · intro hfirst'
    rw [hfirst] at hfirst'
    cases hfirst'
  · intro file' _ _
    rw [hnext]
    refine ⟨?_,by omega,le_logLength hw hfp hfits⟩
    rw [Int.toNat_of_nonneg (by omega)]
    exact htracks
  · rw [hplaced]
    refine List.forall_mem_cons.mpr ⟨?_,hs.placed⟩
    rcases hplace with ⟨hrot,rfl⟩ | ⟨hrot,rfl,hle⟩
    · simp [Placed.Laid,hrot]
    · simpa [Placed.Laid,hrot] using hle

theorem Inv.step (hs : Inv s) {op : Op A} (hC : Counted printf s op) (h : s.step printf op = some t) :
    Inv t := by
  cases op with
  | setting f level filename maxLogSize => exact hs.setting h
  | print c => exact hs.print printf hC h

theorem counted_of_laid (hs : Inv s) {op : Op A} (h : s.step printf op = some t)
    (ht : ∀ p ∈ t.placed, p.Laid) : Counted printf s op := by
  cases op with
  | setting f level filename maxLogSize => trivial
  | print c =>
    intro hfirst data hrecord
    by_contra hnot
    obtain ⟨hrot,hpos⟩ := not_or.mp hnot
    rcases Run.print_cases printf h with
      ⟨hnone,-⟩ | ⟨file,data',offset,hfp,hfits,hrecord',hw,-,-,hplaced⟩
    · rw [hnone] at hrecord
      cases hrecord
    · obtain rfl : data = data' := Option.some.inj (hrecord.symm.trans hrecord')
      obtain ⟨hlaid,-⟩ := ht _ (by rw [hplaced]; exact List.mem_cons_self)
      obtain ⟨hoff,-,-,-⟩ := writeRecord_some hw
      obtain ⟨hsize,-⟩ := hs.unwritten hfirst
      simp only [hrot,decide_false,Bool.false_eq_true,if_false] at hlaid
      rw [rotate_neg hrot,hlaid,hsize,toInt32_add_left] at hoff
      have hrange := toInt32_range (s.next+s.log.logOffset)
      rw [← hoff] at hrange
      have hzero := eq_zero_of_toInt32_add hoff.symm hs.offset.1 hs.offset.2
      exact hpos ⟨hzero,by omega⟩

end Steps

/-- The records of a run all go where they belong, without a gap, exactly when no record is the
first after a `gw_log_setting` while records before it are still counted in `log_offset`. -/
theorem records_laid_iff (disk : CStr → Option Bytes) (ops : List (Op A)) {u : Run}
    (hu : exec (Run.step printf) (Run.start disk) ops = some u) :
    Meets (Run.step printf) (Counted printf) (Run.start disk) ops ↔
      ∀ pre t, pre <+: ops → exec (Run.step printf) (Run.start disk) pre = some t →
        ∀ p ∈ t.placed, p.Laid :=
  meets_iff_forall_reached (fun _ _ _ hs hC h => hs.step printf hC h) (fun _ hs => hs.placed)
    (fun _ _ _ hs h ht => counted_of_laid printf hs h ht) (inv_start disk) hu

/-- `gw_log(GW_INFO, "hi")`. -/
def sayHi : PrintCall ℤ := ⟨noon,[.wrote 1024],1,funcName,7,some plainFmt,fun _ => 0⟩

def setLog : Op ℤ := .setting {} 1 (some logFile) 4096

def twoRecords : List (Op ℤ) := [setLog,setLog,.print sayHi,.print sayHi]

theorem records_laid_two : ∃ u, exec (Run.step printInts) (Run.start fun _ => none) twoRecords = some u ∧
    (u.placed.map fun p => (p.start,p.length)) = [(38,38),(0,0)] ∧
    ∀ pre t, pre <+: twoRecords → exec (Run.step printInts) (Run.start fun _ => none) pre = some t →
      ∀ p ∈ t.placed, p.Laid := by
  have hrun : (exec (Run.step printInts) (Run.start fun _ => none) twoRecords).map
      (fun u => u.placed.map fun p => (p.start,p.length)) = some [(38,38),(0,0)] := by decide +kernel
  obtain ⟨u,hu,hplaced⟩ := Option.map_eq_some_iff.mp hrun
  have hC : Meets (Run.step printInts) (Counted printInts) (Run.start fun _ => none) twoRecords := by
    decide +kernel
  exact ⟨u,hu,hplaced,(records_laid_iff printInts _ _ hu).mp hC⟩

/-- A second `gw_log_setting` for the same file: the next record leaves a hole as long as the
record before it. -/
theorem set_again_leaves_hole : ∃ u,
    exec (Run.step printInts) (Run.start fun _ => none) [setLog,.print sayHi,setLog,.print sayHi] = some u ∧
    ∃ p ∈ u.placed, ¬ p.Laid := by
  have h : ((exec (Run.step printInts) (Run.start fun _ => none)
      [setLog,.print sayHi,setLog,.print sayHi]).any fun u =>
        u.placed.any fun p => decide (p.length < p.start)) = true := by decide
  cases hu : exec (Run.step printInts) (Run.start fun _ => none)
      [setLog,.print sayHi,setLog,.print sayHi] with
  | none => simp [hu] at h
  | some u =>
    rw [hu,Option.any_some,List.any_eq_true] at h
    obtain ⟨p,hp,hgap⟩ := h
    exact ⟨u,rfl,p,hp,fun hlaid => absurd hlaid.2 (not_le.mpr (of_decide_eq_true hgap))⟩

end LogLayout
end IotBase
