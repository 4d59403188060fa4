import IotBase.LogLayout

/-! The `int` arithmetic of the log position. `gw_log_setting` narrows the 64-bit length of the
file; every record then adds the position and its own length before they are compared with the
limit. -/
namespace IotBase
namespace LogOverflow
open RawBytes CString VaFormat LogRecord LogWrite LogSetting LabelledRun
open MapfileStore (toInt32 toInt32_range toInt32_eq)

/-- The offsets that `full_pwrite` gives to `pwrite` while it gets the answers. -/
def pwriteOffsets (data : Bytes) (offset : ℤ) : List PwriteResult → ℕ → List ℤ
  | [], _ => []
  | r::rs, total =>
    if data.length ≤ total then []
    else
      (offset+total)::match r with
        | .eintr => pwriteOffsets data offset rs total
        | .error => []
        | .wrote k =>
          if offset+total < 0 then []
          else pwriteOffsets data offset rs (total+((data.drop total).take k).length)

/-- The log after a `gw_log_setting`: the length that the file had, where the next record belongs
in exact arithmetic, whether a record has rotated since, the sums of the rotation tests and the
offsets given to `pwrite`, newest first. -/
structure Watch where
  log : LogState
  length : ℕ
  place : ℕ
  rotated : Bool
  sums : List ℤ
  offsets : List ℤ

def watch (st st' : LogState) (file : CStr) : Watch where
  log := st'
  length := ((st.disk file).getD []).length
  place := ((st.disk file).getD []).length+st.logOffset.toNat
  rotated := false
  sums := []
  offsets := []

/-- The stored size is the length until the first rotation, no sum of `file_size`, `log_offset`
and `written_bytes` leaves the range of `int`, and no offset is negative. -/
structure NoOverflow (s : Watch) : Prop where
  stored : s.rotated = false → s.log.setting.fileSize = s.length
  sums : ∀ z ∈ s.sums, toInt32 z = z
  offsets : ∀ z ∈ s.offsets, 0 ≤ z

variable {A : Type*} (printf : Printf A)

/-- A `log_printf` that returns, with the sums it forms: of size and offset, and of both and the
length of the record. -/
def step (s : Watch) (c : PrintCall A) : Option Watch :=
  match c.run printf toInt32 s.log with
  | (_,none) => none
  | (out,some st) =>
    match out.record with
    | none => some {s with log := st}
    | some (data,offset) =>
      let start := s.log.setting.fileSize+s.log.logOffset
      let rotates := decide (Rotates toInt32 s.log data.length)
      let place := if rotates then 0 else s.place
      some ⟨st,s.length,if failed out then place else place+data.length,s.rotated || rotates,
        start::(start+data.length)::s.sums,pwriteOffsets data offset c.answers 0++s.offsets⟩

/-- A record would end within the range of `int` behind the place where it belongs. -/
def EndsBelow (s : Watch) (c : PrintCall A) : Prop :=
  ∀ data, c.record printf toInt32 s.log = some data → s.place+data.length < 2^31

structure Inv (s : Watch) : Prop where
  fileSize : 0 ≤ s.log.setting.fileSize
  logOffset : 0 ≤ s.log.logOffset
  place : s.log.setting.fileSize+s.log.logOffset = s.place
  exact : NoOverflow s

theorem pwriteOffsets_ge {data : Bytes} {offset : ℤ} {rs : List PwriteResult} {total : ℕ} :
    ∀ z ∈ pwriteOffsets data offset rs total, offset+total ≤ z := by
  induction rs generalizing total with
  | nil => simp [pwriteOffsets]
  | cons r rs ih =>
    simp only [pwriteOffsets]
    split
    · simp
    · refine List.forall_mem_cons.mpr ⟨le_rfl,fun z hz => ?_⟩
      cases r with
      | eintr => exact ih z hz
      | error => cases hz
      | wrote k =>
        simp only at hz
        split at hz
        · cases hz
        · have hrest := ih z hz
          omega

section Steps

variable {printf} {s t : Watch} {c : PrintCall A}

theorem step_cases (h : step printf s c = some t) :
    (c.record printf toInt32 s.log = none ∧ t = s) ∨
    ∃ file data offset b st, s.log.setting.fp = some file ∧ FitsRecord data ∧
      c.record printf toInt32 s.log = some data ∧
      writeRecord toInt32 c.answers s.log file data = (offset,some (st,b)) ∧
      t = ⟨st,s.length,
        if b then (if Rotates toInt32 s.log data.length then 0 else s.place)
          else (if Rotates toInt32 s.log data.length then 0 else s.place)+data.length,
        s.rotated || decide (Rotates toInt32 s.log data.length),
        (s.log.setting.fileSize+s.log.logOffset)::
          (s.log.setting.fileSize+s.log.logOffset+data.length)::s.sums,
        pwriteOffsets data offset c.answers 0++s.offsets⟩ := by
  rw [step] at h
  split at h
  · cases h
  · rename_i out st hrun
    have hst : (c.run printf toInt32 s.log).2 = some st := by rw [hrun]
    have hsome := PrintCall.run_some printf toInt32 hst
    rw [hrun] at hsome
    rcases hsome with ⟨hnone,hrecord,-,rfl⟩ | ⟨file,data,offset,hfp,hfits,hr,hrecord,hw⟩
    · left
      simp only at hnone
      rw [hnone] at h
      cases h
      exact ⟨hrecord,rfl⟩
    · right
      simp only at hr
      rw [hr] at h
      simp only [decide_eq_true_eq,Option.some.injEq] at h
      exact ⟨file,data,offset,_,st,hfp,hfits,hrecord,hw,h.symm⟩

/-- A call whose record ends in range keeps the arithmetic exact. -/
theorem Inv.step (hs : Inv s) (hC : EndsBelow printf s c) (h : LogOverflow.step printf s c = some t) :
    Inv t := by
  rcases step_cases h with ⟨-,rfl⟩ | ⟨file,data,offset,b,st,hfp,hfits,hrecord,hw,rfl⟩
  · exact hs
  have hend := hC data hrecord
  obtain ⟨hsize,hoff,hplace,hstored,hsums,hoffsets⟩ := hs
  obtain ⟨hstart,hsetting,hlog,-⟩ := writeRecord_some hw
  rw [hplace]
  have hexact : ∀ z ∈ (s.place : ℤ)::(s.place+data.length)::s.sums, toInt32 z = z := by
    refine List.forall_mem_cons.mpr ⟨toInt32_eq (by omega) (by omega),?_⟩
    exact List.forall_mem_cons.mpr ⟨toInt32_eq (by omega) (by omega),hsums⟩
  have hnonneg : 0 ≤ offset → ∀ z ∈ pwriteOffsets data offset c.answers 0++s.offsets, 0 ≤ z := by
    intro hpos z hz
    rcases List.mem_append.mp hz with hz | hz
    · have hge := pwriteOffsets_ge z hz
      omega
    · exact hoffsets z hz
  by_cases hrot : Rotates toInt32 s.log data.length
  · rw [rotate_pos hrot] at hstart hsetting hlog
    have hfront : offset = 0 := hstart
    have hadded : st.logOffset = if b then (0 : ℤ) else data.length := by
      have hsum : toInt32 (0+data.length) = data.length := by
        rw [zero_add]
        exact toInt32_eq (by omega) (by omega)
      exact hlog.trans (by rw [hsum])
    refine ⟨?_,?_,?_,fun h => ?_,hexact,hnonneg (by omega)⟩
    · rw [hsetting]
    · rw [hadded]
      split <;> omega
    · simp only [hsetting,hadded,if_pos hrot]
      split <;> omega
    · simp [hrot] at h
  · rw [rotate_neg hrot] at hstart hsetting hlog
    rw [hplace,toInt32_eq (by omega) (by omega)] at hstart
    have hadded : st.logOffset = if b then s.log.logOffset else s.log.logOffset+data.length := by
      rw [hlog,toInt32_eq (by omega) (by omega)]
    refine ⟨?_,?_,?_,fun h => ?_,hexact,hnonneg (by omega)⟩
    · rw [hsetting]
      exact hsize
    · rw [hadded]
      split <;> omega
    · simp only [hsetting,hadded,if_neg hrot]
      split <;> omega
    · rw [hsetting]
      exact hstored (by simpa [hrot] using h)

theorem endsBelow_of_exact (hs : Inv s) (h : LogOverflow.step printf s c = some t) (ht : NoOverflow t) :
    EndsBelow printf s c := by
  intro data hdata
  rcases step_cases h with ⟨hnone,-⟩ | ⟨file,data',offset,b,st,-,-,hrecord,-,rfl⟩
  · rw [hnone] at hdata
    cases hdata
  · obtain rfl : data = data' := Option.some.inj (hdata.symm.trans hrecord)
    have hsum := ht.sums (s.log.setting.fileSize+s.log.logOffset+data.length) (by simp)
    have hrange := (toInt32_range (s.log.setting.fileSize+s.log.logOffset+data.length)).2
    have hplace := hs.place
    omega

/-- A full buffer behind the next place and behind any place below the limit is in range. -/
structure Room (s : Watch) : Prop where
  inv : Inv s
  place : s.place+writeBufSize ≤ 2^31
  maxSize : s.log.setting.maxSize+writeBufSize ≤ 2^31+1

theorem Room.endsBelow (h : Room s) (c : PrintCall A) : EndsBelow printf s c := by
  intro data hdata
  have hplace := h.place
  have hsize := (PrintCall.record_fits printf toInt32 hdata).2
  omega

theorem Room.step (h : Room s) (hstep : LogOverflow.step printf s c = some t) : Room t := by
  have hC : EndsBelow printf s c := h.endsBelow c
  have hinv := h.inv.step hC hstep
  rcases step_cases hstep with ⟨-,rfl⟩ | ⟨file,data,offset,b,st,-,hfits,hrecord,hw,rfl⟩
  · exact h
  obtain ⟨hs,hplace,hmax⟩ := h
  have hend := hC data hrecord
  have hsize := hfits.2
  have hbuf : writeBufSize = 1024 := rfl
  obtain ⟨-,hsetting,-,-⟩ := writeRecord_some hw
  have hsame : st.setting.maxSize = s.log.setting.maxSize := by rw [hsetting,rotate_maxSize]
  refine ⟨hinv,?_,by rw [hsame]; exact hmax⟩
  by_cases hrot : Rotates toInt32 s.log data.length
  · simp only [if_pos hrot]
    split <;> omega
  · have hbelow := not_le.mp hrot
    have hplaced : toInt32 s.place = s.place := toInt32_eq (by omega) (by omega)
    have hsum : toInt32 (s.place+data.length) = s.place+data.length := toInt32_eq (by omega) (by omega)
    rw [hs.place,hplaced,hsum] at hbelow
    simp only [if_neg hrot]
    split <;> omega

theorem Room.meets (h : Room s) (cs : List (PrintCall A)) :
    Meets (LogOverflow.step printf) (EndsBelow printf) s cs :=
  meets_of_invariant (fun _ c hs => hs.endsBelow c) (fun _ _ _ hs ht => hs.step ht) h cs

end Steps

section Setting

variable {f : SettingFaults} {st st' : LogState} {level maxLogSize : ℤ} {file : CStr}

theorem watch_inv (hset : gwLogSetting toInt32 f st level (some file) maxLogSize = (st',.ok))
    (ho : 0 ≤ st.logOffset) (hlen : stSize st.disk file < 2^31) : Inv (watch st st' file) := by
  obtain ⟨name,hname,-,hoff,hsetting⟩ := gwLogSetting_ok hset
  cases hname
  have hsize : st'.setting.fileSize = ((st.disk file).getD []).length := by
    have hexact : toInt32 (stSize st.disk file) = stSize st.disk file := by
      rw [toInt32_eq _ hlen]
      exact Int.natCast_nonneg _
    rw [hsetting,hexact,stSize]
  refine ⟨?_,?_,?_,fun _ => hsize,by simp [watch],by simp [watch]⟩
  · show 0 ≤ st'.setting.fileSize
    rw [hsize]
    exact Int.natCast_nonneg _
  · show 0 ≤ st'.logOffset
    rw [hoff]
    exact ho
  · show st'.setting.fileSize+st'.logOffset =
      ((((st.disk file).getD []).length+st.logOffset.toNat : ℕ) : ℤ)
    rw [hsize,hoff]
    omega

/-- After a `gw_log_setting` the arithmetic of the log is exact through a run of `log_printf`
calls exactly when the file was shorter than `2^31` bytes and no record would end at or behind
byte `2^31`. -/
theorem rotation_arithmetic_iff
    (hset : gwLogSetting toInt32 f st level (some file) maxLogSize = (st',.ok))
    (ho : 0 ≤ st.logOffset) (cs : List (PrintCall A)) {u : Watch}
    (hu : exec (LogOverflow.step printf) (watch st st' file) cs = some u) :
    (stSize st.disk file < 2^31 ∧
      Meets (LogOverflow.step printf) (EndsBelow printf) (watch st st' file) cs) ↔
    ∀ pre t, pre <+: cs → exec (LogOverflow.step printf) (watch st st' file) pre = some t →
      NoOverflow t := by
  by_cases hlen : stSize st.disk file < 2^31
  · rw [and_iff_right hlen]
    exact meets_iff_forall_reached (I:=Inv) (fun _ _ _ hs hC h => hs.step hC h) (fun _ hs => hs.exact)
      (fun _ _ _ hs h ht => endsBelow_of_exact hs h ht) (watch_inv hset ho hlen) hu
  · constructor
    · rintro ⟨hshort,-⟩
      exact absurd hshort hlen
    · intro hall
      have hstored := (hall [] _ List.nil_prefix rfl).stored rfl
      obtain ⟨name,hname,-,-,hsetting⟩ := gwLogSetting_ok hset
      cases hname
      have hsize : (watch st st' file).log.setting.fileSize = toInt32 (stSize st.disk file) := by
        show st'.setting.fileSize = _
        rw [hsetting]
      have hrange := (toInt32_range (stSize st.disk file)).2
      rw [← hsize,hstored] at hrange
      exact absurd hrange hlen

end Setting

def longDisk (n : ℕ) : CStr → Option Bytes := fun _ => some (List.replicate n 0)

def longLog (n : ℕ) : LogState := ⟨⟨1,some logFile,true,4096,toInt32 n⟩,0,longDisk n⟩

theorem longLog_fileSize (n : ℕ) : (longLog n).setting.fileSize = toInt32 n := by
  rw [longLog]

theorem longLog_set (n : ℕ) :
    gwLogSetting toInt32 {} (processStart (longDisk n)) 1 (some logFile) 4096 = (longLog n,.ok) := by
  have hname : ¬ gwLogMaxFileName-1 < logFile.strlen := by decide
  have hcreate : createLogFile {} (longDisk n) logFile = some (longDisk n) := rfl
  have hsize := stSize_created hcreate
  simp only [gwLogSetting,hname,processStart,hcreate,hsize,if_false,Bool.false_eq_true]
  simp [longLog,stSize,longDisk]

theorem rotation_arithmetic_short : ∃ u,
    exec (LogOverflow.step printInts) (watch (processStart (longDisk 100)) (longLog 100) logFile)
      [LogLayout.sayHi] = some u ∧
    ∀ pre t, pre <+: [LogLayout.sayHi] → exec (LogOverflow.step printInts)
      (watch (processStart (longDisk 100)) (longLog 100) logFile) pre = some t → NoOverflow t := by
  have hset := longLog_set 100
  have hlen : stSize (processStart (longDisk 100)).disk logFile = 100 := by
    simp [stSize,processStart,longDisk]
  obtain ⟨u,hu⟩ : ∃ u, exec (LogOverflow.step printInts)
      (watch (processStart (longDisk 100)) (longLog 100) logFile) [LogLayout.sayHi] = some u :=
    Option.isSome_iff_exists.mp (by decide +kernel)
  have hinv : Inv (watch (processStart (longDisk 100)) (longLog 100) logFile) :=
    watch_inv hset le_rfl (by rw [hlen]; decide)
  have hroom : Room (watch (processStart (longDisk 100)) (longLog 100) logFile) :=
    ⟨hinv,by decide,by decide⟩
  exact ⟨u,hu,(rotation_arithmetic_iff printInts hset le_rfl [LogLayout.sayHi] hu).mp
    ⟨by rw [hlen]; decide,hroom.meets _⟩⟩

/-- A file of `2^31` bytes is taken to have `-2^31`. -/
theorem long_file_narrowed :
    gwLogSetting toInt32 {} (processStart (longDisk (2^31))) 1 (some logFile) 4096 =
      (longLog (2^31),.ok) ∧
    (longLog (2^31)).setting.fileSize = -2^31 ∧
    ¬ NoOverflow (watch (processStart (longDisk (2^31))) (longLog (2^31)) logFile) := by
  have hsize : (longLog (2^31)).setting.fileSize = -2^31 := by
    have hcast : ((2^31 : ℕ) : ℤ) = 2147483648 := by norm_num
    have hnarrow : toInt32 2147483648 = -2^31 := by decide
    rw [longLog_fileSize,hcast,hnarrow]
  refine ⟨longLog_set _,hsize,fun h => ?_⟩
  have hstored : (longLog (2^31)).setting.fileSize =
      ((watch (processStart (longDisk (2^31))) (longLog (2^31)) logFile).length : ℤ) := h.stored rfl
  rw [hsize] at hstored
  omega

end LogOverflow
end IotBase
