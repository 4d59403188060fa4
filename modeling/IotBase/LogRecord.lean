import IotBase.VaFormat
import IotBase.CString

/-! `log_printf` of `log_util.c`: one line is built, printed through the argument
cursor and then formatted a second time, through the same cursor, for the file. -/
namespace IotBase
namespace LogRecord
open RawBytes CString VaFormat

def timeBufSize : ℕ := 64
def bufSize : ℕ := 224
def writeBufSize : ℕ := 1024
def otherStringLen : ℕ := 40
def functionStringLen : ℕ := 56

/-- `p_level` for the levels `GW_DEBUG`, `GW_INFO`, `GW_ERR` and `GW_FATAL`. -/
def levelName (level : ℤ) : Option Bytes :=
  if level = 0 then some [68,69,66,85,71]
  else if level = 1 then some [73,78,70,79]
  else if level = 2 then some [69,82,82]
  else if level = 3 then some [70,65,84,65,76]
  else none

/-- The fields of `struct tm` and `struct timeval` that are printed. -/
structure Clock where
  mon : ℕ
  mday : ℕ
  hour : ℕ
  min : ℕ
  sec : ℕ
  usec : ℕ

def digits (n : ℕ) : Bytes := (Nat.toDigits 10 n).map fun c => UInt8.ofNat c.toNat

/-- `%0wd` of a number that is not negative. -/
def padded (w n : ℕ) : Bytes := List.replicate (w-(digits n).length) 48 ++ digits n

def decimal (n : ℤ) : Bytes := if n < 0 then 45::digits n.natAbs else digits n.natAbs

/-- `"%02d-%02d %02d:%02d:%02d.%06ld"`. -/
def timeBuf (c : Clock) : Bytes :=
  (padded 2 (c.mon+1)++[45]++padded 2 c.mday++[32]++padded 2 c.hour++[58]++padded 2 c.min++[58]++
    padded 2 c.sec++[46]++padded 6 c.usec).take (timeBufSize-1)

/-- `"[%s](%s) %s(%d):%s\n"`, cut to the buffer. -/
def lineBuf (name time : Bytes) (func : CStr) (line : ℤ) (fmt : CStr) : Bytes :=
  ([91]++name++[93,40]++time++[41,32]++func.bytes++[40]++decimal line++[41,58]++fmt.bytes++[10]).take
    (bufSize-1)

/-- `gw_log_setting_t`; `fp` is the file the handle is open on and `buffer` whether it is
allocated. -/
structure LogSetting where
  logLevel : ℤ
  fp : Option CStr
  buffer : Bool
  maxSize : ℤ
  fileSize : ℤ

/-- The settings, the static `log_offset` and the files. -/
structure LogState where
  setting : LogSetting
  logOffset : ℤ
  disk : CStr → Option Bytes

inductive PwriteResult
  | eintr | error | wrote (k : ℕ)

/-- `pwrite` of all of `data`; a gap before it reads as zeros, and a write of nothing leaves
the file. -/
def pwriteAt (file : Bytes) (offset : ℕ) (data : Bytes) : Bytes :=
  if data = [] then file
  else
    let base := file++List.replicate (offset-file.length) 0
    base.take offset++data++base.drop (offset+data.length)

/-- The loop of `full_pwrite`: the file and the return value, or nothing while the answers
given do not finish it. A negative offset is an error. -/
def fullPwriteLoop (data : Bytes) (offset : ℤ) : List PwriteResult → ℕ → Bytes →
    Option (Bytes × ℤ)
  | [], total, file => if data.length ≤ total then some (file,total) else none
  | r::rs, total, file =>
    if data.length ≤ total then some (file,total)
    else
      match r with
      | .eintr => fullPwriteLoop data offset rs total file
      | .error => some (file,-1)
      | .wrote k =>
        if offset+total < 0 then some (file,-1)
        else
          let part := (data.drop total).take k
          fullPwriteLoop data offset rs (total+part.length)
            (pwriteAt file (offset+total).toNat part)

def fullPwrite (rs : List PwriteResult) (file data : Bytes) (offset : ℤ) : Option (Bytes × ℤ) :=
  fullPwriteLoop data offset rs 0 file

inductive Notice
  | functionTooLong | fmtTooLong | pwriteFail | vsnprintfError (n : ℤ)

/-- What a call prints with `vprintf`, what it hands to `full_pwrite` and for which offset,
and what it complains about. -/
structure Output where
  stdout : Bytes
  record : Option (Bytes × ℤ)
  notice : Option Notice

def Output.silent : Output := ⟨[],none,none⟩

/-- The rotation test and its effect; `int` is what an `int` keeps of a sum. -/
def rotate (int : ℤ → ℤ) (st : LogState) (writtenBytes : ℤ) : LogState :=
  if st.setting.maxSize ≤ int (int (st.setting.fileSize+st.logOffset)+writtenBytes) then
    {st with setting := {st.setting with fileSize := 0}, logOffset := 0}
  else st

/-- From the rotation test on: the offset of the record and, when `full_pwrite` returns,
the state and whether it failed. -/
def writeRecord (int : ℤ → ℤ) (rs : List PwriteResult) (st : LogState) (file : CStr)
    (record : Bytes) : ℤ × Option (LogState × Bool) :=
  let st := rotate int st record.length
  let offset := int (st.setting.fileSize+st.logOffset)
  match fullPwrite rs ((st.disk file).getD []) record offset with
  | none => (offset,none)
  | some (content,byteNumber) =>
    let disk := Function.update st.disk file (some content)
    if byteNumber = -1 then (offset,some (⟨st.setting,st.logOffset,disk⟩,true))
    else (offset,some (⟨st.setting,int (st.logOffset+byteNumber),disk⟩,false))

/-- The line that a call with these arguments prints: `vprintf`'s format. -/
def lineFormat (name : Bytes) (clock : Clock) (func : CStr) (line : ℤ) (fmt : CStr) : Bytes :=
  lineBuf name (timeBuf clock) func line fmt

variable {A : Type*}

/-- `log_printf`. There is no next state when formatting into a NULL buffer crashes the
process or while `full_pwrite` has not returned. -/
def logPrintf (printf : Printf A) (int : ℤ → ℤ) (clock : Clock)
    (rs : List PwriteResult) (st : LogState) (level : ℤ) (func : CStr) (line : ℤ)
    (fmt : Option CStr) (args : ℕ → A) : Output × Option LogState :=
  match fmt with
  | none => (.silent,some st)
  | some fmt =>
    if level < st.setting.logLevel then (.silent,some st)
    else if functionStringLen ≤ func.strlen then (⟨[],none,some .functionTooLong⟩,some st)
    else if bufSize-otherStringLen-functionStringLen ≤ fmt.strlen then
      (⟨[],none,some .fmtTooLong⟩,some st)
    else
      match levelName level with
      | none => (.silent,some st)
      | some name =>
        let format := lineFormat name clock func line fmt
        let printed := vformat printf args format 0
        match st.setting.fp with
        | none => (⟨printed.1,none,none⟩,some st)
        | some file =>
          if st.setting.buffer then
            -- the cursor is where `vprintf` left it
            let formatted := vsnformat printf args writeBufSize format printed.2
            let writtenBytes := formatted.2.1
            if 0 < writtenBytes ∧ writtenBytes < writeBufSize then
              let record := formatted.1.take writtenBytes
              match writeRecord int rs st file record with
              | (offset,none) => (⟨printed.1,some (record,offset),none⟩,none)
              | (offset,some (st',failed)) =>
                (⟨printed.1,some (record,offset),if failed then some .pwriteFail else none⟩,some st')
            else (⟨printed.1,none,some (.vsnprintfError writtenBytes)⟩,some st)
          else (⟨printed.1,none,none⟩,none)

structure Passes (st : LogState) (level : ℤ) (name : Bytes) (func fmt : CStr) (file : CStr) :
    Prop where
  level_le : st.setting.logLevel ≤ level
  func_fits : func.strlen < functionStringLen
  fmt_fits : fmt.strlen < bufSize-otherStringLen-functionStringLen
  known : levelName level = some name
  fp : st.setting.fp = some file
  buffer : st.setting.buffer = true

def FitsRecord (s : Bytes) : Prop := 0 < s.length ∧ s.length < writeBufSize

instance (s : Bytes) : Decidable (FitsRecord s) := inferInstanceAs (Decidable (_ ∧ _))

def Agrees (out : Output) : Prop := ∀ r, out.record = some r → r.1 = out.stdout

/-- The arguments behind those that the format takes repeat them. -/
def Repeats (printf : Printf A) (format : Bytes) (args : ℕ → A) : Prop :=
  ∀ i < printf.taken format, args (printf.taken format+i) = args i

def Shows (printf : Printf A) (format : Bytes) : Prop :=
  ∀ va vb, printf.text format va = printf.text format vb → ∀ i < printf.taken format, va i = vb i

section

variable (printf : Printf A) (int : ℤ → ℤ) (clock : Clock) (rs : List PwriteResult)
  {st : LogState} {level : ℤ} (line : ℤ) {name : Bytes} {func fmt file : CStr}

/-- What the format prints for the arguments behind the ones it takes. -/
def nextText (format : Bytes) (args : ℕ → A) : Bytes :=
  printf.text format (dropArgs (printf.taken format) args)

/-- The second formatting of a call uses the arguments behind those that the first one took. -/
theorem logPrintf_eq (h : Passes st level name func fmt file) (args : ℕ → A) :
    (logPrintf printf int clock rs st level func line (some fmt) args).1.stdout =
      printf.text (lineFormat name clock func line fmt) args ∧
    (logPrintf printf int clock rs st level func line (some fmt) args).1.record.map Prod.fst =
      if FitsRecord (nextText printf (lineFormat name clock func line fmt) args)
      then some (nextText printf (lineFormat name clock func line fmt) args) else none := by
  obtain ⟨hlevel,hfunc,hfmt,hname,hfp,hbuffer⟩ := h
  generalize hformat : lineFormat name clock func line fmt = format
  have hfirst : (vformat printf args format 0).1 = printf.text format args := by
    rw [vformat,dropArgs_zero]
  have hcursor : (vformat printf args format 0).2 = printf.taken format := Nat.zero_add _
  have hsecond : (vformat printf args format (printf.taken format)).1 = nextText printf format args := rfl
  simp only [logPrintf,not_lt.mpr hlevel,not_le.mpr hfunc,not_le.mpr hfmt,hname,hfp,hbuffer,hformat,
    if_false,if_true,vsnformat,hfirst,hcursor,hsecond]
  by_cases hfits : FitsRecord (nextText printf format args)
  · have hwhole : ((nextText printf format args).take (writeBufSize-1)).take
        (nextText printf format args).length = nextText printf format args := by
      rw [List.take_of_length_le (Nat.le_sub_one_of_lt hfits.2),List.take_length]
    have hbounds : 0 < (nextText printf format args).length ∧
        (nextText printf format args).length < writeBufSize := hfits
    rw [if_pos hbounds,if_pos hfits,hwhole]
    cases writeRecord int rs st file (nextText printf format args) with
    | mk offset after =>
      cases after with
      | none => exact ⟨rfl,rfl⟩
      | some next => exact ⟨rfl,rfl⟩
  · have hbounds : ¬ (0 < (nextText printf format args).length ∧
        (nextText printf format args).length < writeBufSize) := hfits
    rw [if_neg hbounds,if_neg hfits]
    exact ⟨rfl,rfl⟩

/-- A call agrees when the arguments that the second formatting finds print what the first ones
printed, or nothing that is recorded. -/
theorem agrees_iff (h : Passes st level name func fmt file) (args : ℕ → A) :
    Agrees (logPrintf printf int clock rs st level func line (some fmt) args).1 ↔
      (FitsRecord (nextText printf (lineFormat name clock func line fmt) args) →
        nextText printf (lineFormat name clock func line fmt) args =
          printf.text (lineFormat name clock func line fmt) args) := by
  obtain ⟨hstdout,hrecord⟩ := logPrintf_eq printf int clock rs line h args
  rw [Agrees,hstdout]
  by_cases hfits : FitsRecord (nextText printf (lineFormat name clock func line fmt) args)
  · rw [if_pos hfits] at hrecord
    obtain ⟨r,hr,hrtext⟩ := Option.map_eq_some_iff.mp hrecord
    constructor
    · intro hagrees _
      rw [← hrtext]
      exact hagrees r hr
    · intro heq r' hr'
      obtain rfl : r = r' := Option.some.inj (hr.symm.trans hr')
      rw [hrtext]
      exact heq hfits
  · rw [if_neg hfits] at hrecord
    constructor
    · intro _ hfits'
      exact absurd hfits' hfits
    · intro _ r hr
      rw [hr] at hrecord
      cases hrecord

theorem nextText_of_repeats {format : Bytes} {args : ℕ → A} (h : Repeats printf format args) :
    nextText printf format args = printf.text format args := printf.text_congr h

/-- A line agrees for all arguments exactly when its recorded text does not depend on them. A call
agrees when the arguments behind those that its line takes repeat them and, where the line shows its
arguments, only then. -/
theorem record_eq_stdout_iff (h : Passes st level name func fmt file) :
    ((∀ args, Agrees (logPrintf printf int clock rs st level func line (some fmt) args).1) ↔
      ∀ va vb, FitsRecord (printf.text (lineFormat name clock func line fmt) vb) →
        printf.text (lineFormat name clock func line fmt) vb =
          printf.text (lineFormat name clock func line fmt) va) ∧
    (∀ args, Repeats printf (lineFormat name clock func line fmt) args →
      Agrees (logPrintf printf int clock rs st level func line (some fmt) args).1) ∧
    (Shows printf (lineFormat name clock func line fmt) → ∀ args,
      FitsRecord (nextText printf (lineFormat name clock func line fmt) args) →
      (Agrees (logPrintf printf int clock rs st level func line (some fmt) args).1 ↔
        Repeats printf (lineFormat name clock func line fmt) args)) := by
  refine ⟨?_,fun args hrepeats => ?_,fun hshows args hfits => ?_⟩
  · rw [← text_dropArgs_iff]
    exact forall_congr' (agrees_iff printf int clock rs line h)
  · exact (agrees_iff printf int clock rs line h args).mpr fun _ => nextText_of_repeats printf hrepeats
  · rw [agrees_iff printf int clock rs line h args]
    exact ⟨fun hsame => hshows _ _ (hsame hfits),fun hrepeats _ => nextText_of_repeats printf hrepeats⟩

end

section Example

/-- How many arguments a format of plain bytes, `%d` and `%.0s` takes. -/
def intsTaken : Bytes → ℕ
  | 37::100::cs => intsTaken cs+1
  | 37::46::48::115::cs => intsTaken cs+1
  | _::cs => intsTaken cs
  | [] => 0

/-- What it prints: `%.0s` prints nothing of its argument. -/
def intsText : Bytes → (ℕ → ℤ) → Bytes
  | 37::100::cs, va => decimal (va 0)++intsText cs (dropArgs 1 va)
  | 37::46::48::115::cs, va => intsText cs (dropArgs 1 va)
  | c::cs, va => c::intsText cs va
  | [], _ => []

theorem intsText_congr (format : Bytes) {v w : ℕ → ℤ} (h : ∀ i < intsTaken format, v i = w i) :
    intsText format v = intsText format w := by
  induction format using intsTaken.induct generalizing v w with
  | case1 cs ih =>
    have hrest := ih (v:=dropArgs 1 v) (w:=dropArgs 1 w) fun i hi => h (1+i) (by
      rw [intsTaken]
      omega)
    rw [intsText,intsText,hrest,h 0 (by rw [intsTaken]; exact Nat.succ_pos _)]
  | case2 cs ih =>
    have hrest := ih (v:=dropArgs 1 v) (w:=dropArgs 1 w) fun i hi => h (1+i) (by
      rw [intsTaken]
      omega)
    rw [intsText,intsText,hrest]
  | case3 c cs h₁ h₂ ih =>
    rw [intsTaken] at h
    · rw [intsText,intsText,ih h]
      all_goals assumption
    all_goals assumption
  | case4 => rfl

def printInts : Printf ℤ := ⟨intsTaken,intsText,intsText_congr _⟩

def noon : Clock := ⟨0,1,12,0,0,0⟩

def logFile : CStr := ⟨[108],by decide⟩
def funcName : CStr := ⟨[102],by decide⟩
def percentD : CStr := ⟨[37,100],by decide⟩
def plainFmt : CStr := ⟨[104,105],by decide⟩

/-- `"%.0s"`. -/
def emptyFmt : CStr := ⟨[37,46,48,115],by decide⟩

def freshLog : LogState := ⟨⟨1,some logFile,true,4096,0⟩,0,fun _ => some []⟩

/-- `gw_log(GW_INFO, "%d", 5)` prints 5 and records the word after it. -/
theorem record_ne_stdout : ¬ Agrees (logPrintf printInts id noon [.wrote 100] freshLog 1 funcName 7
    (some percentD) fun i => if i = 0 then 5 else 0).1 := by
  intro h
  exact absurd (h _ rfl) (by decide)

theorem fmt_passes {fmt : CStr} (h : fmt.strlen < bufSize-otherStringLen-functionStringLen) :
    Passes freshLog 1 [73,78,70,79] funcName fmt logFile := ⟨by decide,by decide,h,rfl,rfl,rfl⟩

/-- `"%.0s"` agrees whatever its argument, `"%d"` when its argument is repeated. -/
theorem record_eq_stdout_conversion :
    (∀ args, Agrees (logPrintf printInts id noon [.wrote 100] freshLog 1 funcName 7
      (some emptyFmt) args).1) ∧
    Agrees (logPrintf printInts id noon [.wrote 100] freshLog 1 funcName 7 (some percentD)
      fun _ => 5).1 :=
  ⟨(record_eq_stdout_iff printInts id noon [.wrote 100] 7 (fmt_passes (by decide))).1.mpr
      fun _ _ _ => rfl,
    (record_eq_stdout_iff printInts id noon [.wrote 100] 7 (fmt_passes (by decide))).2.1 _
      fun _ _ => rfl⟩

end Example

end LogRecord
end IotBase
