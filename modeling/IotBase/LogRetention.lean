import IotBase.LogLayout
import IotBase.CircularLog

/-! The log across restarts of the process. A process that starts takes the length of the file
for the position, which is that of the newest record only while the log has not gone round. -/
namespace IotBase
namespace LogRetention
open RawBytes CString VaFormat LogRecord LogWrite LogSetting LogLayout LabelledRun CircularLog
open MapfileStore (toInt32 toInt32_range toInt32_eq toInt32_toInt32 toInt32_add_left)

variable {A : Type*} (printf : Printf A) (file : CStr) (maxLogSize : ℤ)

inductive Op (A : Type*)
  | start (f : SettingFaults) (level : ℤ)
  | print (c : PrintCall A)

/-- A process starts and sets up the log, or a record is printed. -/
def step (s : Run) : Op A → Option Run
  | .start f level => Run.setting {s with log := processStart s.log.disk} f level (some file) maxLogSize
  | .print c => s.print printf c

def Run.content (s : Run) : Bytes := (s.log.disk file).getD []

def newestEnd : List Placed → ℤ
  | [] => 0
  | p::_ => p.start+p.data.length

def Placed.toRec (p : Placed) : Rec UInt8 := ⟨p.start.toNat,p.data⟩

/-- The newest records of no more than `max_log_size - 2*WRITE_BUF_SIZE` bytes are in the file. -/
def Retained (s : Run) : Prop :=
  ∀ recent, recent <+: s.placed.map Placed.toRec → (size recent : ℤ) ≤ maxLogSize-2*writeBufSize →
    ∀ r ∈ recent, Intact (Run.content file s) r

/-- A process starts while the newest record is at the end of the file, as long as anything is
to be kept. -/
def AtEnd (s : Run) : Op A → Prop
  | .start _ _ => maxLogSize ≤ 2*writeBufSize ∨ newestEnd s.placed = (Run.content file s).length
  | .print _ => True

structure Inv (s : Run) : Prop where
  file_eq : ∀ name, s.log.setting.fp = some name →
    name = file ∧ s.log.setting.maxSize = maxLogSize ∧ Tracks s.log (newestEnd s.placed)
  nonneg : 0 ≤ newestEnd s.placed
  lt : newestEnd s.placed < 2^32
  retains : Retains maxLogSize.toNat writeBufSize (Run.content file s) (newestEnd s.placed).toNat
    (s.placed.map Placed.toRec)

section Steps

variable {printf file maxLogSize} {s t : Run}

theorem writes_pwriteAt (content : Bytes) (start : ℕ) (data : Bytes) :
    Writes content (pwriteAt content start data) start data where
  inside _ hk := getElem?_pwriteAt_inside hk
  outside _ hk hout := getElem?_pwriteAt_outside hk hout

theorem inv_start {disk : CStr → Option Bytes} : Inv file maxLogSize (Run.start disk) where
  file_eq name h := by simp [Run.start,processStart] at h
  nonneg := le_refl 0
  lt := by simp [Run.start,newestEnd]
  retains := retains_nil _ _ _

theorem Inv.start (hs : Inv file maxLogSize s) {f : SettingFaults} {level : ℤ}
    (hend : newestEnd s.placed = (Run.content file s).length)
    (h : Run.setting {s with log := processStart s.log.disk} f level (some file) maxLogSize = some t) :
    Inv file maxLogSize t := by
  obtain ⟨_,hfile,hsetting,hdisk,hoff,-,-,hplaced⟩ := Run.setting_some h
  cases hfile
  have hcontent : Run.content file t = Run.content file s := hdisk file
  have hfp : t.log.setting.fp = some file := by rw [hsetting]
  have hlen : (logLength t.log : ℤ) = newestEnd s.placed := by
    rw [hend,← hcontent,logLength_eq hfp,Run.content]
  have hplaced' : t.placed = s.placed := hplaced
  constructor
  · intro name hname
    rw [hsetting] at hname
    cases hname
    refine ⟨rfl,by rw [hsetting],?_⟩
    have hzero : t.log.logOffset = 0 := hoff
    rw [Tracks,hsetting,hzero,hplaced',hlen,add_zero,toInt32_toInt32]
  · rw [hplaced']
    exact hs.nonneg
  · rw [hplaced']
    exact hs.lt
  · rw [hplaced',hcontent]
    exact hs.retains

/-- A rotation happens near the end of the room, whatever the sum is as an `int`. -/
theorem room_of_rotates {st : LogState} {e : ℤ} {n : ℕ} (htracks : Tracks st e) (he : 0 ≤ e)
    (hrot : Rotates toInt32 st n) : st.setting.maxSize ≤ e+n := by
  rw [Rotates,htracks,toInt32_add_left] at hrot
  by_cases hlt : e+n < 2^31
  · rwa [toInt32_eq (by omega) hlt] at hrot
  · have hrange := toInt32_range (e+n)
    omega

theorem Inv.print (hs : Inv file maxLogSize s) {c : PrintCall A} (h : s.print printf c = some t) :
    Inv file maxLogSize t := by
  rcases Run.print_cases printf h with
    ⟨-,rfl⟩ | ⟨name,data,offset,hfp,hfits,-,hw,-,-,hplaced⟩
  · exact hs
  obtain ⟨rfl,hmax,htracks⟩ := hs.file_eq name hfp
  obtain ⟨hnonneg,hdisk⟩ := writeRecord_ok hw hfits
  obtain ⟨-,hsetting,-,-⟩ := writeRecord_some hw
  have hsize : data.length < 1024 := hfits.2
  have hstart := hs.nonneg
  have hend : newestEnd t.placed = offset+data.length := by
    rw [hplaced]
    rfl
  have hcontent : Run.content name t = pwriteAt (Run.content name s) offset.toNat data := by
    rw [Run.content,hdisk,Function.update_self]
    rfl
  have hwrites := writes_pwriteAt (Run.content name s) offset.toNat data
  have hplace : Tracks t.log (offset+data.length) ∧ offset < 2^31 ∧
      Retains maxLogSize.toNat writeBufSize (pwriteAt (Run.content name s) offset.toNat data)
        (offset.toNat+data.length) (⟨offset.toNat,data⟩::s.placed.map Placed.toRec) := by
    by_cases hrot : Rotates toInt32 s.log data.length
    · obtain ⟨rfl,hafter⟩ := write_rotated hw hrot
      have hroom := room_of_rotates htracks hs.nonneg hrot
      rw [hmax] at hroom
      rw [Int.toNat_zero] at hwrites ⊢
      rw [zero_add,zero_add]
      exact ⟨hafter,by omega,hs.retains.wrap hwrites hfits.2 (by omega)⟩
    · obtain ⟨rfl,hafter,hlt⟩ := htracks.write hs.nonneg hs.lt hw hfits hrot
      exact ⟨hafter,hlt,hs.retains.append hwrites hfits.2⟩
  obtain ⟨hafter,hlt,hretains⟩ := hplace
  constructor
  · intro name' hname'
    rw [hsetting,rotate_fp,hfp] at hname'
    rw [hsetting,rotate_maxSize,hmax,hend]
    exact ⟨(Option.some.inj hname').symm,rfl,hafter⟩
  · omega
  · omega
  · have htop : (newestEnd t.placed).toNat = offset.toNat+data.length := by omega
    rw [hcontent,htop,hplaced]
    exact hretains

theorem Inv.step (hs : Inv file maxLogSize s) (hroom : 2*writeBufSize < maxLogSize) {op : Op A}
    (hC : AtEnd file maxLogSize s op) (h : step printf file maxLogSize s op = some t) :
    Inv file maxLogSize t := by
  cases op with
  | start f level => exact hs.start (hC.resolve_left (by omega)) h
  | print c => exact hs.print h

theorem Inv.retained (hs : Inv file maxLogSize s) : Retained file maxLogSize s := by
  intro recent hrecent hsize
  exact hs.retains.newest hrecent (by omega)

theorem retained_of_small (hroom : maxLogSize ≤ 2*writeBufSize) : Retained file maxLogSize s := by
  intro recent _ hsize r hr k hk
  have hle := length_le_size hr
  omega

end Steps

/-- While every process starts with the newest record at the end of the file, the newest
records that fit are in the file, however often the log goes round. -/
theorem newest_records_retained (disk : CStr → Option Bytes) (ops : List (Op A)) {t : Run}
    (hC : Meets (step printf file maxLogSize) (AtEnd file maxLogSize) (Run.start disk) ops)
    (ht : exec (step printf file maxLogSize) (Run.start disk) ops = some t) :
    Retained file maxLogSize t := by
  by_cases hroom : maxLogSize ≤ 2*writeBufSize
  · exact retained_of_small hroom
  · have hinv : Inv file maxLogSize t :=
      exec_invariant (fun _ _ _ hs hC h => hs.step (not_le.mp hroom) hC h) ops inv_start hC ht
    exact hinv.retained

def strsTaken : Bytes → ℕ
  | 37::115::cs => strsTaken cs+1
  | _::cs => strsTaken cs
  | [] => 0

def strsText : Bytes → (ℕ → Bytes) → Bytes
  | 37::115::cs, va => va 0++strsText cs (dropArgs 1 va)
  | c::cs, va => c::strsText cs va
  | [], _ => []

theorem strsText_congr (format : Bytes) {v w : ℕ → Bytes} (h : ∀ i < strsTaken format, v i = w i) :
    strsText format v = strsText format w := by
  induction format using strsTaken.induct generalizing v w with
  | case1 cs ih =>
    have hrest := ih (v:=dropArgs 1 v) (w:=dropArgs 1 w) fun i hi => h (1+i) (by
      rw [strsTaken]
      omega)
    rw [strsText,strsText,hrest,h 0 (by rw [strsTaken]; exact Nat.succ_pos _)]
  | case2 c cs hc ih =>
    rw [strsTaken] at h
    · rw [strsText,strsText,ih h]
      all_goals assumption
    all_goals assumption
  | case3 => rfl

def printStrs : Printf Bytes := ⟨strsTaken,strsText,strsText_congr _⟩

def percentS : CStr := ⟨[37,115],by decide⟩

/-- `gw_log(GW_INFO, "%s", s, s)` on a line of the source, with a string of `n` characters. -/
def fill (n : ℕ) (line : ℤ) : PrintCall Bytes :=
  ⟨noon,[.wrote 1024],1,funcName,line,some percentS,fun _ => List.replicate n 120⟩

theorem newest_records_retained_restart : ∃ t,
    exec (step printStrs logFile 4096) (Run.start fun _ => none)
      [.start {} 1,.print (fill 5 7),.start {} 1,.print (fill 0 8)] = some t ∧
    (t.placed.map fun p => (p.start,p.data.length)) = [(41,36),(0,41)] ∧ Retained logFile 4096 t := by
  obtain ⟨t,ht,hplaced⟩ : ∃ t, exec (step printStrs logFile 4096) (Run.start fun _ => none)
      [.start {} 1,.print (fill 5 7),.start {} 1,.print (fill 0 8)] = some t ∧
      (t.placed.map fun p => (p.start,p.data.length)) = [(41,36),(0,41)] := ⟨_,rfl,by decide⟩
  have hend : ((exec (step printStrs logFile 4096) (Run.start fun _ => none)
      [.start {} 1,.print (fill 5 7)]).all fun u =>
        decide (newestEnd u.placed = (Run.content logFile u).length)) = true := by decide
  have hC : Meets (step printStrs logFile 4096) (AtEnd logFile 4096) (Run.start fun _ => none)
      [.start {} 1,.print (fill 5 7),.start {} 1,.print (fill 0 8)] := by
    refine ⟨Or.inr rfl,fun u hu => ⟨trivial,fun v hv =>
      ⟨Or.inr ?_,fun _ _ => ⟨trivial,fun _ _ => trivial⟩⟩⟩⟩
    rw [exec_cons.mpr ⟨u,hu,exec_cons.mpr ⟨v,hv,exec_nil _ v⟩⟩] at hend
    exact of_decide_eq_true hend
  exact ⟨t,ht,hplaced,newest_records_retained printStrs logFile 4096 _ _ hC ht⟩

/-- Three records fill the file, a short one goes to the front, the process starts again. -/
def overwriteRun : List (Op Bytes) :=
  [.start {} 1,.print (fill 665 7),.print (fill 665 7),.print (fill 665 7),.print (fill 0 7),
    .start {} 1,.print (fill 0 8)]

/-- The record after the restart overwrites the one before it: of the 82 newest bytes that are
to be kept, 72 in two records, the older record is lost. -/
theorem restart_overwrites_newest : ∃ u,
    exec (step printStrs logFile 2130) (Run.start fun _ => none) overwriteRun = some u ∧
    ¬ Retained logFile 2130 u := by
  have h : ((exec (step printStrs logFile 2130) (Run.start fun _ => none) overwriteRun).any fun u =>
      decide (size ((u.placed.map Placed.toRec).take 2) = 72) &&
      ((u.placed.map Placed.toRec).take 2).any fun r =>
        decide (32 < r.data.length ∧ (Run.content logFile u)[r.start+32]? ≠ r.data[32]?)) = true := by
    decide +kernel
  cases hu : exec (step printStrs logFile 2130) (Run.start fun _ => none) overwriteRun with
  | none => simp [hu] at h
  | some u =>
    rw [hu,Option.any_some,Bool.and_eq_true,List.any_eq_true] at h
    obtain ⟨hsize,r,hr,hlost⟩ := h
    obtain ⟨hk,hne⟩ := of_decide_eq_true hlost
    refine ⟨u,rfl,fun hret => hne (hret _ (List.take_prefix _ _) ?_ r hr 32 hk)⟩
    rw [of_decide_eq_true hsize]
    decide

end LogRetention
end IotBase
