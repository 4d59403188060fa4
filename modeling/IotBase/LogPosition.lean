import IotBase.LogOverflow

/-! What failures leave of the log position. `full_pwrite` retries until all bytes are written or
an error comes, and reports it through an `int`; `log_printf` moves the position only past a
record that is complete. -/
namespace IotBase
namespace LogPosition
open RawBytes CString VaFormat LogRecord LogWrite LogSetting LabelledRun
open MapfileStore (toInt32 toInt32_range toInt32_eq toInt32_add_left toInt32_add_right)
open LogOverflow (longDisk longLog longLog_set)

/-- The `int` that `full_pwrite` returns. -/
def fullPwriteInt (rs : List PwriteResult) (file data : Bytes) (offset : ℤ) : Option (Bytes × ℤ) :=
  (fullPwrite rs file data offset).map fun r => (r.1,toInt32 r.2)

def taken : List PwriteResult → ℕ
  | [] => 0
  | .wrote k::rs => k+taken rs
  | _::rs => taken rs

/-- The answers finish a write of `n` bytes: they take all of them or have an error. -/
def LongEnough (n : ℕ) (rs : List PwriteResult) : Prop := .error ∈ rs ∨ n ≤ taken rs

def erred : ℕ → List PwriteResult → Bool
  | _, [] => false
  | n, r::rs =>
    if n = 0 then false
    else
      match r with
      | .eintr => erred n rs
      | .error => true
      | .wrote k => erred (n-k) rs

/-- `pwrite` fails other than by an interruption; a negative offset makes it fail. -/
def Errs (rs : List PwriteResult) (offset : ℤ) (n : ℕ) : Prop :=
  (n ≠ 0 ∧ offset < 0) ∨ erred n rs = true

instance (rs : List PwriteResult) (offset : ℤ) (n : ℕ) : Decidable (Errs rs offset n) :=
  inferInstanceAs (Decidable (_ ∨ _))

/-- A write that ends, that returns the length of the data when no error came, with every byte
at its place, and else `-1`, and that touches nothing else. -/
structure WritesOnce (rs : List PwriteResult) (file data : Bytes) (offset : ℤ) (content : Bytes)
    (n : ℤ) : Prop where
  result : fullPwriteInt rs file data offset = some (content,n)
  complete : ¬ Errs rs offset data.length →
    n = data.length ∧ ∀ k < data.length, content[offset.toNat+k]? = data[k]?
  failed : Errs rs offset data.length → n = -1
  outside : ∀ k < file.length, (k < offset ∨ offset+data.length ≤ k) → content[k]? = file[k]?
  length : (content.length : ℤ) ≤ max (file.length : ℤ) (offset+data.length)

section FullPwrite
variable {data : Bytes} {offset : ℤ}

theorem fullPwriteLoop_returns {rs : List PwriteResult} {total : ℕ} (file : Bytes)
    (h : LongEnough (data.length-total) rs) :
    ∃ r, fullPwriteLoop data offset rs total file = some r := by
  induction rs generalizing total file with
  | nil =>
    have hdone : data.length ≤ total := by
      rcases h with h | h
      · cases h
      · simp only [taken] at h
        omega
    exact ⟨_,if_pos hdone⟩
  | cons r rs ih =>
    simp only [fullPwriteLoop]
    split
    · exact ⟨_,rfl⟩
    · cases r with
      | eintr =>
        refine ih file (h.imp_left fun h => ?_)
        simpa using h
      | error => exact ⟨_,rfl⟩
      | wrote k =>
        simp only
        split
        · exact ⟨_,rfl⟩
        · apply ih
          rcases h with h | h
          · exact Or.inl (by simpa using h)
          · simp only [taken] at h
            right
            rw [List.length_take,List.length_drop]
            omega

theorem fullPwriteLoop_error_iff {rs : List PwriteResult} {total : ℕ} {file content : Bytes} {n : ℤ}
    (h : fullPwriteLoop data offset rs total file = some (content,n)) (ht : total ≤ data.length) :
    n = -1 ↔ Errs rs (offset+total) (data.length-total) := by
  induction rs generalizing total file with
  | nil =>
    simp only [fullPwriteLoop] at h
    split at h
    · cases h
      refine iff_of_false (by omega) ?_
      rintro (⟨hne,-⟩ | herr)
      · omega
      · simp [erred] at herr
    · cases h
  | cons r rs ih =>
    simp only [fullPwriteLoop] at h
    split at h
    · rename_i hdone
      cases h
      have hzero : data.length-total = 0 := by omega
      refine iff_of_false (by omega) ?_
      rw [hzero]
      rintro (⟨hne,-⟩ | herr)
      · exact hne rfl
      · simp [erred] at herr
    · rename_i hmore
      have hpos : data.length-total ≠ 0 := by omega
      cases r with
      | eintr =>
        rw [ih h ht,Errs,Errs,erred,if_neg hpos]
      | error =>
        cases h
        refine iff_of_true rfl (Or.inr ?_)
        rw [erred,if_neg hpos]
      | wrote k =>
        simp only at h
        split at h
        · rename_i hneg
          cases h
          exact iff_of_true rfl (Or.inl ⟨hpos,hneg⟩)
        · rename_i hnonneg
          have hpart : ((data.drop total).take k).length = min k (data.length-total) := by
            rw [List.length_take,List.length_drop]
          have hrest : data.length-(total+min k (data.length-total)) = data.length-total-k := by omega
          rw [hpart] at h
          rw [ih h (by omega),Errs,Errs,erred,if_neg hpos,hrest]
          constructor
          · rintro (⟨-,hlow⟩ | herr)
            · omega
            · exact Or.inr herr
          · rintro (⟨-,hlow⟩ | herr)
            · omega
            · exact Or.inr herr

theorem getElem?_applyStores_outside {lo hi : ℤ} {ws : List (ℕ × Bytes)} {file : Bytes}
    (h : ∀ w ∈ ws, lo ≤ w.1 ∧ (w.1+w.2.length : ℤ) ≤ hi) {k : ℕ} (hk : k < file.length)
    (hout : k < lo ∨ hi ≤ k) : (applyStores file ws)[k]? = file[k]? := by
  induction ws generalizing file with
  | nil => rfl
  | cons w ws ih =>
    obtain ⟨hw,hws⟩ := List.forall_mem_cons.mp h
    have hkeep : (pwriteAt file w.1 w.2)[k]? = file[k]? :=
      getElem?_pwriteAt_outside hk (by omega)
    have hk' : k < (pwriteAt file w.1 w.2).length := by
      by_contra hge
      rw [List.getElem?_eq_none (not_lt.mp hge),List.getElem?_eq_getElem hk] at hkeep
      cases hkeep
    rw [← hkeep]
    exact ih hws hk'

theorem fullPwrite_error_iff {rs : List PwriteResult} {file content : Bytes} {n : ℤ}
    (h : fullPwrite rs file data offset = some (content,n)) : n = -1 ↔ Errs rs offset data.length := by
  have hiff := fullPwriteLoop_error_iff h (Nat.zero_le _)
  simpa using hiff

/-- With answers enough, a write does what it is for unless the `int` cuts its length. -/
theorem writesOnce_iff {rs : List PwriteResult} (file : Bytes) (h : LongEnough data.length rs) :
    (∃ content n, WritesOnce rs file data offset content n) ↔
      (¬ Errs rs offset data.length → data.length < 2^31) := by
  obtain ⟨⟨content,n⟩,hwrite⟩ : ∃ r, fullPwriteLoop data offset rs 0 file = some r :=
    fullPwriteLoop_returns file h
  have hresult : fullPwriteInt rs file data offset = some (content,toInt32 n) := by
    rw [fullPwriteInt,fullPwrite,hwrite]
    rfl
  have herr := fullPwrite_error_iff hwrite
  obtain ⟨hcontent,hlen⟩ := fullPwriteLoop_eq hwrite (Nat.zero_le _)
  constructor
  · rintro ⟨content',n',hspec⟩ hok
    have hsame := hresult.symm.trans hspec.result
    have hcount : n = data.length := hlen.resolve_left fun hn => hok (herr.mp hn)
    have hreturned : toInt32 n = n' := congrArg Prod.snd (Option.some.inj hsame)
    have hrange := (toInt32_range n).2
    rw [hreturned,(hspec.complete hok).1] at hrange
    omega
  · intro hshort
    refine ⟨content,toInt32 n,hresult,fun hok => ?_,fun hbad => ?_,fun k hk hout => ?_,?_⟩
    · have hne : n ≠ -1 := fun hn => hok (herr.mp hn)
      have hcount : n = data.length := hlen.resolve_left hne
      obtain ⟨-,hplaced⟩ := fullPwriteLoop_ok hwrite hne (Nat.zero_le _)
      have hsmall := hshort hok
      refine ⟨by rw [hcount,toInt32_eq (by omega) (by omega)],fun k hk => ?_⟩
      rw [hplaced,Nat.cast_zero,add_zero,List.drop_zero]
      exact getElem?_pwriteAt_inside hk
    · rw [herr.mpr hbad]
      decide
    · rw [hcontent]
      refine getElem?_applyStores_outside (fun w hw => ?_) hk hout
      simpa using stores_within (Nat.zero_le _) w hw
    · rw [hcontent]
      refine applyStores_length_le (le_max_left _ _) fun w hw => ?_
      have hwithin := (stores_within (Nat.zero_le _) w hw).2
      exact le_max_of_le_right hwithin

end FullPwrite

/-- The log after a `gw_log_setting`, with the end of the last record that was written
completely: the length of the file before the first one, and 0 from a rotation on. -/
structure Trace where
  log : LogState
  last : ℤ

/-- `file_size+log_offset`, where the next record goes. -/
def Trace.position (s : Trace) : ℤ := toInt32 (s.log.setting.fileSize+s.log.logOffset)

def Positioned (s : Trace) : Prop := s.position = s.last

def Trace.start (disk : CStr → Option Bytes) (file : CStr) (st : LogState) : Trace :=
  ⟨st,stSize disk file⟩

variable {A : Type*} (printf : Printf A)

def Trace.step (s : Trace) (c : PrintCall A) : Option Trace :=
  match c.run printf toInt32 s.log with
  | (_,none) => none
  | (out,some st) =>
    match out.record with
    | none => some ⟨st,s.last⟩
    | some (data,offset) =>
      if Errs c.answers offset data.length then
        some ⟨st,if Rotates toInt32 s.log data.length then 0 else s.last⟩
      else some ⟨st,offset+data.length⟩

/-- A record that is completely written behind the last one ends in the range of `int`. -/
def EndsInRange (s : Trace) (c : PrintCall A) : Prop :=
  ∀ data, c.record printf toInt32 s.log = some data → ¬ Rotates toInt32 s.log data.length →
    ¬ Errs c.answers s.last data.length → s.last+data.length < 2^31

section Steps
variable {printf} {s t : Trace} {c : PrintCall A}

theorem writeRecord_failed_iff {rs : List PwriteResult} {st st' : LogState} {file : CStr}
    {record : Bytes} {offset : ℤ} {b : Bool}
    (h : writeRecord toInt32 rs st file record = (offset,some (st',b))) :
    b = true ↔ Errs rs offset record.length := by
  obtain ⟨content,n,hpwrite,hfailed,-⟩ := writeRecord_returns h
  exact hfailed.trans (fullPwrite_error_iff hpwrite)

theorem Trace.step_cases (h : s.step printf c = some t) :
    (c.record printf toInt32 s.log = none ∧ t = s) ∨
    ∃ file data offset b, FitsRecord data ∧ c.record printf toInt32 s.log = some data ∧
      writeRecord toInt32 c.answers s.log file data = (offset,some (t.log,b)) ∧
      (b = true ↔ Errs c.answers offset data.length) ∧
      t.last = if b then (if Rotates toInt32 s.log data.length then 0 else s.last)
        else offset+data.length := by
  rw [Trace.step] at h
  split at h
  · cases h
  · rename_i out st hrun
    have hst : (c.run printf toInt32 s.log).2 = some st := by rw [hrun]
    have hsome := PrintCall.run_some printf toInt32 hst
    rw [hrun] at hsome
    rcases hsome with ⟨hnone,hrecord,-,rfl⟩ | ⟨file,data,offset,hfp,hfits,hr,hrecord,hw⟩
    · left
      simp only at hnone
      rw [hnone] at h
      cases h
      exact ⟨hrecord,rfl⟩
    · right
      have hfailed := writeRecord_failed_iff hw
      simp only at hr
      rw [hr] at h
      simp only at h
      refine ⟨file,data,offset,failed out,hfits,hrecord,?_⟩
      split at h
      · rename_i hbad
        cases h
        exact ⟨hw,hfailed,(if_pos (hfailed.mpr hbad)).symm⟩
      · rename_i hok
        cases h
        exact ⟨hw,hfailed,(if_neg fun hb => hok (hfailed.mp hb)).symm⟩

theorem position_write {file : CStr} {data : Bytes} {offset : ℤ} {b : Bool}
    (h : writeRecord toInt32 c.answers s.log file data = (offset,some (t.log,b))) :
    t.position = (if b then offset else toInt32 (offset+data.length)) ∧
    offset = if Rotates toInt32 s.log data.length then 0 else s.position := by
  obtain ⟨hoff,hsetting,hlog,-⟩ := writeRecord_some h
  constructor
  · rw [Trace.position,hsetting,hlog]
    split
    · rw [hoff]
    · rw [toInt32_add_right,hoff,toInt32_add_left,add_assoc]
  · rw [hoff]
    split
    · rename_i hrot
      rw [rotate_pos hrot]
      rfl
    · rename_i hrot
      rw [rotate_neg hrot]
      rfl

theorem nonneg_of_not_errs {rs : List PwriteResult} {offset : ℤ} {data : Bytes}
    (hfits : FitsRecord data) (h : ¬ Errs rs offset data.length) : 0 ≤ offset := by
  by_contra hneg
  exact h (Or.inl ⟨Nat.pos_iff_ne_zero.mp hfits.1,not_le.mp hneg⟩)

/-- Whatever fails, a call keeps the position, or moves it past a record that ends in range. -/
theorem Positioned.step (hs : Positioned s) (hC : EndsInRange printf s c)
    (h : s.step printf c = some t) : Positioned t := by
  rcases Trace.step_cases h with ⟨-,rfl⟩ | ⟨file,data,offset,b,hfits,hrecord,hw,hfailed,hlast⟩
  · exact hs
  obtain ⟨hposition,hoff⟩ := position_write hw
  rw [Positioned,hposition,hlast]
  have hsize : data.length < 1024 := hfits.2
  by_cases hrot : Rotates toInt32 s.log data.length
  · rw [if_pos hrot] at hoff ⊢
    cases b with
    | true => exact hoff
    | false =>
      simp only [Bool.false_eq_true,if_false]
      exact toInt32_eq (by omega) (by omega)
  · rw [if_neg hrot] at hoff ⊢
    cases b with
    | true => exact hoff.trans hs
    | false =>
      have hok : ¬ Errs c.answers offset data.length := fun hbad => absurd (hfailed.mpr hbad) (by simp)
      have hnonneg := nonneg_of_not_errs hfits hok
      have hlow : offset = s.last := hoff.trans hs
      have hend := hC data hrecord hrot (by rw [← hlow]; exact hok)
      simp only [Bool.false_eq_true,if_false]
      exact toInt32_eq (by omega) (by omega)

theorem endsInRange_of_positioned (hs : Positioned s) (h : s.step printf c = some t)
    (ht : Positioned t) : EndsInRange printf s c := by
  intro data hdata hrot hok
  rcases Trace.step_cases h with ⟨hnone,-⟩ | ⟨file,data',offset,b,-,hrecord,hw,hfailed,hlast⟩
  · rw [hnone] at hdata
    cases hdata
  obtain rfl : data = data' := Option.some.inj (hdata.symm.trans hrecord)
  obtain ⟨hposition,hoff⟩ := position_write hw
  rw [if_neg hrot] at hoff
  have hlow : offset = s.last := hoff.trans hs
  have hwritten : ¬ b = true := fun hb => hok (by rw [← hlow]; exact hfailed.mp hb)
  rw [if_neg hwritten] at hposition hlast
  have hrange := (toInt32_range (offset+data.length)).2
  rw [Positioned,hposition,hlast] at ht
  rw [ht] at hrange
  omega

theorem endsInRange_of_room (c : PrintCall A) (h : s.last+writeBufSize ≤ 2^31) :
    EndsInRange printf s c := by
  intro data hdata _ _
  have hsize := (PrintCall.record_fits printf toInt32 hdata).2
  omega

end Steps

section Setting
variable {f : SettingFaults} {disk : CStr → Option Bytes} {st : LogState} {level maxLogSize : ℤ}
  {file : CStr}

theorem start_position
    (h : gwLogSetting toInt32 f (processStart disk) level (some file) maxLogSize = (st,.ok)) :
    (Trace.start disk file st).position = toInt32 (stSize disk file) := by
  obtain ⟨name,hname,-,hoff,hsetting⟩ := gwLogSetting_ok h
  cases hname
  have hzero : st.logOffset = 0 := hoff
  simp only [Trace.position,Trace.start,hsetting,hzero,add_zero]
  exact Int.bmod_bmod

theorem start_positioned_iff
    (h : gwLogSetting toInt32 f (processStart disk) level (some file) maxLogSize = (st,.ok)) :
    Positioned (Trace.start disk file st) ↔ stSize disk file < 2^31 := by
  rw [Positioned,start_position h]
  change toInt32 (stSize disk file) = stSize disk file ↔ _
  constructor
  · intro heq
    rw [← heq]
    exact (toInt32_range _).2
  · exact toInt32_eq (Int.natCast_nonneg _)

/-- Along a run the position is right in every state exactly when the file was shorter than
`2^31` bytes and no record that is completely written behind another ends at or behind that. -/
theorem positioned_iff
    (h : gwLogSetting toInt32 f (processStart disk) level (some file) maxLogSize = (st,.ok))
    (cs : List (PrintCall A)) {u : Trace}
    (hu : exec (Trace.step printf) (Trace.start disk file st) cs = some u) :
    (∀ pre t, pre <+: cs → exec (Trace.step printf) (Trace.start disk file st) pre = some t →
      Positioned t) ↔
    stSize disk file < 2^31 ∧
      Meets (Trace.step printf) (EndsInRange printf) (Trace.start disk file st) cs := by
  by_cases hlen : stSize disk file < 2^31
  · rw [and_iff_right hlen]
    exact (meets_iff_forall_reached (I:=Positioned) (fun _ _ _ hs hC ht => hs.step hC ht)
      (fun _ hs => hs) (fun _ _ _ hs ht hp => endsInRange_of_positioned hs ht hp)
      ((start_positioned_iff h).mpr hlen) hu).symm
  · refine iff_of_false (fun hall => hlen ?_) fun hcond => hlen hcond.1
    exact (start_positioned_iff h).mp (hall [] _ List.nil_prefix rfl)

end Setting

/-- A write is complete or reported unless it completes `2^31` bytes or more, and the position
stays right whatever fails unless it leaves the range of `int`. -/
theorem full_pwrite_position_iff {A : Type*} (printf : Printf A) :
    (∀ (rs : List PwriteResult) (file data : Bytes) (offset : ℤ), LongEnough data.length rs →
      ((∃ content n, WritesOnce rs file data offset content n) ↔
        (¬ Errs rs offset data.length → data.length < 2^31))) ∧
    ∀ (f : SettingFaults) (disk : CStr → Option Bytes) (st : LogState) (level maxLogSize : ℤ)
      (file : CStr) (cs : List (PrintCall A)) (u : Trace),
      gwLogSetting toInt32 f (processStart disk) level (some file) maxLogSize = (st,.ok) →
      exec (Trace.step printf) (Trace.start disk file st) cs = some u →
      ((∀ pre t, pre <+: cs → exec (Trace.step printf) (Trace.start disk file st) pre = some t →
        Positioned t) ↔
      stSize disk file < 2^31 ∧
        Meets (Trace.step printf) (EndsInRange printf) (Trace.start disk file st) cs) := by
  constructor
  · intro rs file data offset h
    exact writesOnce_iff file h
  · intro f disk st level maxLogSize file cs u h hu
    exact positioned_iff printf h cs hu

theorem full_pwrite_position_short :
    (∃ content n, WritesOnce [.eintr,.wrote 1,.wrote 2] [] [7,8,9] 0 content n) ∧
    ∃ u, exec (Trace.step printInts) (Trace.start (longDisk 100) logFile (longLog 100))
        [LogLayout.sayHi] = some u ∧
      ∀ pre t, pre <+: [LogLayout.sayHi] → exec (Trace.step printInts)
        (Trace.start (longDisk 100) logFile (longLog 100)) pre = some t → Positioned t := by
  obtain ⟨hwrite,hposition⟩ := full_pwrite_position_iff printInts
  have hlen : stSize (longDisk 100) logFile = 100 := by simp [stSize,longDisk]
  obtain ⟨u,hu⟩ : ∃ u, exec (Trace.step printInts)
      (Trace.start (longDisk 100) logFile (longLog 100)) [LogLayout.sayHi] = some u :=
    Option.isSome_iff_exists.mp (by decide +kernel)
  refine ⟨(hwrite _ _ _ _ (Or.inr (by decide))).mpr fun _ => (by decide),u,hu,?_⟩
  refine (hposition {} (longDisk 100) (longLog 100) 1 4096 logFile _ u (longLog_set 100) hu).mpr
    ⟨by rw [hlen]; decide,?_,fun _ _ => trivial⟩
  apply endsInRange_of_room
  change stSize (longDisk 100) logFile+writeBufSize ≤ 2^31
  rw [hlen]
  decide

/-- A write of `2^31` bytes returns `-2^31`, and a log file of that length is given that
position. -/
theorem long_write_narrowed :
    (¬ ∃ content n, WritesOnce [.wrote (2^31)] [] (List.replicate (2^31) 0) 0 content n) ∧
    gwLogSetting toInt32 {} (processStart (longDisk (2^31))) 1 (some logFile) 4096 =
      (longLog (2^31),.ok) ∧
    ¬ Positioned (Trace.start (longDisk (2^31)) logFile (longLog (2^31))) := by
  refine ⟨fun h => ?_,longLog_set _,fun h => ?_⟩
  · have henough : LongEnough (List.replicate (2^31) (0 : UInt8)).length [.wrote (2^31)] := by
      rw [List.length_replicate]
      exact Or.inr le_rfl
    have hok : ¬ Errs [.wrote (2^31)] 0 (List.replicate (2^31) (0 : UInt8)).length := by
      rw [List.length_replicate,Errs,erred]
      simp [erred]
    have hshort := (writesOnce_iff [] henough).mp h hok
    rw [List.length_replicate] at hshort
    exact lt_irrefl _ hshort
  · have hshort := (start_positioned_iff (longLog_set (2^31))).mp h
    simp only [stSize,longDisk,Option.getD_some,List.length_replicate] at hshort
    norm_num at hshort

end LogPosition
end IotBase
