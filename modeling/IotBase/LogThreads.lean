import IotBase.LogBound
import IotBase.CriticalSection

/-! Threads that log to one file. Each call makes its checks and prints its line before it takes
`file_mutex`; under the mutex it formats the line again, turns the file over where it is full and writes
piece by piece. So the records lie in the order in which the calls finish, and the lines on stdout come
in the order in which they begin. -/
namespace IotBase
namespace LogThreads
open RawBytes CString VaFormat LogRecord LogWrite LogBound LabelledRun CriticalSection

/-- What the one successful `gw_log_setting` before the threads has fixed, and the other files. -/
structure Config where
  logLevel : ℤ
  file : CStr
  maxSize : ℤ
  disk : CStr → Option Bytes

structure Position where
  fileSize : ℤ
  logOffset : ℤ
  content : Bytes

def Config.state (cfg : Config) (s : Position) : LogState :=
  ⟨⟨cfg.logLevel,some cfg.file,true,cfg.maxSize,s.fileSize⟩,s.logOffset,
    Function.update cfg.disk cfg.file (some s.content)⟩

def Config.position (cfg : Config) (st : LogState) : Position :=
  ⟨st.setting.fileSize,st.logOffset,(st.disk cfg.file).getD []⟩

@[simp] theorem position_state (cfg : Config) (s : Position) : cfg.position (cfg.state s) = s := by
  simp [Config.position,Config.state]

def Position.rotate (int : ℤ → ℤ) (cfg : Config) (s : Position) (writtenBytes : ℤ) : Position :=
  if cfg.maxSize ≤ int (int (s.fileSize+s.logOffset)+writtenBytes) then ⟨0,0,s.content⟩ else s

@[simp] theorem rotate_content (int : ℤ → ℤ) (cfg : Config) (s : Position) (n : ℤ) :
    (s.rotate int cfg n).content = s.content := by
  rw [Position.rotate]
  split <;> rfl

theorem rotate_state (int : ℤ → ℤ) (cfg : Config) (s : Position) (n : ℤ) :
    LogRecord.rotate int (cfg.state s) n = cfg.state (s.rotate int cfg n) := by
  by_cases h : cfg.maxSize ≤ int (int (s.fileSize+s.logOffset)+n)
  · rw [Position.rotate,if_pos h]
    exact if_pos h
  · rw [Position.rotate,if_neg h]
    exact if_neg h

variable {A : Type*}

/-- Where a call stands that holds the mutex: before `vsnprintf`, or in the loop of `full_pwrite` with
the answers of `pwrite` to come. -/
inductive Stage (A : Type*)
  | format (c : PrintCall A)
  | write (record : Bytes) (offset : ℤ) (answers : List PwriteResult) (total : ℕ)

/-- What a call hands to `full_pwrite`, for which offset, and what it complains about. -/
structure Written where
  record : Option (Bytes × ℤ)
  notice : Option Notice

def written (out : Output) : Written := ⟨out.record,out.notice⟩

section Calls

variable (printf : Printf A) (int : ℤ → ℤ) (cfg : Config)

/-- The checks of `log_printf`, all before the mutex. -/
def early (c : PrintCall A) : Option Written :=
  match c.fmt with
  | none => some ⟨none,none⟩
  | some fmt =>
    if c.level < cfg.logLevel then some ⟨none,none⟩
    else if functionStringLen ≤ c.func.strlen then some ⟨none,some .functionTooLong⟩
    else if bufSize-otherStringLen-functionStringLen ≤ fmt.strlen then some ⟨none,some .fmtTooLong⟩
    else if (levelName c.level).isNone then some ⟨none,none⟩
    else none

def callFormat (c : PrintCall A) : Bytes :=
  lineFormat ((levelName c.level).getD []) c.clock c.func c.line (c.fmt.getD ⟨[],by decide⟩)

def callText (c : PrintCall A) : Bytes := (vformat printf c.args (callFormat c) 0).1

/-- What `vsnprintf` stores and returns, from the cursor that `vprintf` has left. -/
def callFormatted (c : PrintCall A) : Bytes × ℕ :=
  let r := vsnformat printf c.args writeBufSize (callFormat c) (vformat printf c.args (callFormat c) 0).2
  (r.1,r.2.1)

def formatCall (s : Position) (c : PrintCall A) : Position × (Stage A ⊕ Written) :=
  let formatted := callFormatted printf c
  if 0 < formatted.2 ∧ formatted.2 < writeBufSize then
    let record := formatted.1.take formatted.2
    let s := s.rotate int cfg record.length
    (s,.inl (.write record (int (s.fileSize+s.logOffset)) c.answers 0))
  else (s,.inr ⟨none,some (.vsnprintfError formatted.2)⟩)

/-- One turn of the loop of `full_pwrite`, and what follows it when it was the last. -/
def writeStep (s : Position) (record : Bytes) (offset : ℤ) (answers : List PwriteResult) (total : ℕ) :
    Position × (Stage A ⊕ Written) :=
  if record.length ≤ total then
    ({s with logOffset := int (s.logOffset+total)},.inr ⟨some (record,offset),none⟩)
  else
    match answers with
    | [] => (s,.inl (.write record offset [] total))
    | .eintr::answers => (s,.inl (.write record offset answers total))
    | .error::_ => (s,.inr ⟨some (record,offset),some .pwriteFail⟩)
    | .wrote k::answers =>
      if offset+total < 0 then (s,.inr ⟨some (record,offset),some .pwriteFail⟩)
      else
        let part := (record.drop total).take k
        ({s with content := pwriteAt s.content (offset+total).toNat part},
          .inl (.write record offset answers (total+part.length)))

def micro (s : Position) : Stage A → Position × (Stage A ⊕ Written)
  | .format c => formatCall printf int cfg s c
  | .write record offset answers total => writeStep int s record offset answers total

def logger : Routine Position (PrintCall A) (Stage A) Written :=
  ⟨early cfg,.format,micro printf int cfg⟩

def printCall (s : Position) (c : PrintCall A) : Position × Written :=
  ((c.run printf int (cfg.state s)).2.elim s cfg.position,written (c.run printf int (cfg.state s)).1)

inductive Shown
  | line (text : Bytes)
  | complaint (notice : Notice)

def complaints (w : Written) : List Shown := w.notice.toList.map .complaint

/-- What a call puts out before it takes the mutex: its line, or why it makes none. -/
def shownBefore (c : PrintCall A) : List Shown :=
  match early cfg c with
  | none => [.line (callText printf c)]
  | some w => complaints w

def shownBy (c : PrintCall A) (w : Written) : List Shown :=
  match early cfg c with
  | none => .line (callText printf c)::complaints w
  | some _ => complaints w

end Calls

section OneCall

variable {printf : Printf A} {int : ℤ → ℤ} {cfg : Config} {s s' : Position}
  {c : PrintCall A} {w : Written}

theorem logger_format : (logger printf int cfg).micro s (.format c) = formatCall printf int cfg s c := by
  simp only [logger,micro]

theorem logger_write {record : Bytes} {offset : ℤ} {answers : List PwriteResult} {total : ℕ} :
    (logger printf int cfg).micro s (.write record offset answers total) =
      writeStep int s record offset answers total := by
  simp only [logger,micro]

theorem run_of_early (h : early cfg c = some w) :
    c.run printf int (cfg.state s) = (⟨[],w.record,w.notice⟩,some (cfg.state s)) := by
  obtain ⟨clock,rs,level,func,line,fmt,args⟩ := c
  cases fmt with
  | none =>
    cases h
    rfl
  | some fmt =>
    simp only [early] at h
    simp only [PrintCall.run,logPrintf]
    split at h
    · rename_i hlevel
      cases h
      exact if_pos hlevel
    rename_i hlevel
    rw [if_neg (show ¬ level < (cfg.state s).setting.logLevel from hlevel)]
    split at h
    · rename_i hfunc
      cases h
      exact if_pos hfunc
    rename_i hfunc
    rw [if_neg hfunc]
    split at h
    · rename_i hfmt
      cases h
      exact if_pos hfmt
    rename_i hfmt
    rw [if_neg hfmt]
    split at h
    · rename_i hname
      cases h
      rw [Option.isNone_iff_eq_none.mp hname]
      rfl
    · cases h

theorem passes_of_late (h : early cfg c = none) : ∃ fmt name, c.fmt = some fmt ∧
    levelName c.level = some name ∧ Passes (cfg.state s) c.level name c.func fmt cfg.file := by
  simp only [early] at h
  split at h
  · cases h
  rename_i fmt hfmt
  split at h
  · cases h
  rename_i hlevel
  split at h
  · cases h
  rename_i hfunc
  split at h
  · cases h
  rename_i hlen
  split at h
  · cases h
  rename_i hname
  obtain ⟨name,hname⟩ := Option.ne_none_iff_exists'.mp fun he : levelName c.level = none =>
    hname (by rw [he]; rfl)
  exact ⟨fmt,name,hfmt,hname,not_lt.mp hlevel,not_le.mp hfunc,not_le.mp hlen,hname,rfl,rfl⟩

theorem run_of_short (h : early cfg c = none)
    (hsize : ¬ (0 < (callFormatted printf c).2 ∧ (callFormatted printf c).2 < writeBufSize)) :
    c.run printf int (cfg.state s) =
      (⟨callText printf c,none,some (.vsnprintfError (callFormatted printf c).2)⟩,some (cfg.state s)) := by
  obtain ⟨fmt,name,hfmt,hname,hpasses⟩ := passes_of_late (s:=s) h
  obtain ⟨clock,rs,level,func,line,_,args⟩ := c
  cases hfmt
  simp only [callText,callFormatted,callFormat,hname,Option.getD_some] at hsize ⊢
  simp only [PrintCall.run,logPrintf,not_lt.mpr hpasses.level_le,not_le.mpr hpasses.func_fits,
    not_le.mpr hpasses.fmt_fits,hname,hpasses.fp,hpasses.buffer,if_false,if_true,if_neg hsize]

theorem run_of_record (h : early cfg c = none)
    (hsize : 0 < (callFormatted printf c).2 ∧ (callFormatted printf c).2 < writeBufSize) {offset : ℤ}
    {st' : LogState} {failed : Bool}
    (hw : writeRecord int c.answers (cfg.state s) cfg.file
      ((callFormatted printf c).1.take (callFormatted printf c).2) = (offset,some (st',failed))) :
    c.run printf int (cfg.state s) = (⟨callText printf c,
      some ((callFormatted printf c).1.take (callFormatted printf c).2,offset),
      if failed then some .pwriteFail else none⟩,some st') := by
  obtain ⟨fmt,name,hfmt,hname,hpasses⟩ := passes_of_late (s:=s) h
  obtain ⟨clock,rs,level,func,line,_,args⟩ := c
  cases hfmt
  simp only [callText,callFormatted,callFormat,hname,Option.getD_some] at hsize hw ⊢
  simp only [PrintCall.run,logPrintf,not_lt.mpr hpasses.level_le,not_le.mpr hpasses.func_fits,
    not_le.mpr hpasses.fmt_fits,hname,hpasses.fp,hpasses.buffer,if_false,if_true,if_pos hsize,hw]

/-- What a call that has begun to write has done: its pieces so far lie where its record goes, and
`full_pwrite` would go on from here as it does from the beginning. -/
structure Writing (s s' : Position) (c : PrintCall A) (record : Bytes) (offset : ℤ)
    (answers : List PwriteResult) (total : ℕ) : Prop where
  fileSize : s'.fileSize = s.fileSize
  logOffset : s'.logOffset = s.logOffset
  total_le : total ≤ record.length
  rest : fullPwrite c.answers s.content record offset =
    fullPwriteLoop record offset answers total s'.content
  grows : s.content.length ≤ s'.content.length
  bound : (s'.content.length : ℤ) ≤ max (s.content.length : ℤ) (offset+record.length)
  outside : ∀ k < s.content.length, (k < offset ∨ offset+record.length ≤ k) →
    s'.content[k]? = s.content[k]?

theorem writing_start (s : Position) (c : PrintCall A) (record : Bytes) (offset : ℤ) :
    Writing s s c record offset c.answers 0 :=
  ⟨rfl,rfl,Nat.zero_le _,rfl,le_rfl,le_max_left _ _,fun _ _ _ => rfl⟩

theorem Writing.eintr {record : Bytes} {offset : ℤ} {answers : List PwriteResult} {total : ℕ}
    (h : Writing s s' c record offset (.eintr::answers) total) (hmore : ¬ record.length ≤ total) :
    Writing s s' c record offset answers total := by
  have hrest := h.rest
  simp only [fullPwriteLoop,if_neg hmore] at hrest
  exact {h with rest := hrest}

theorem Writing.wrote {record : Bytes} {offset : ℤ} {answers : List PwriteResult} {total k : ℕ}
    (h : Writing s s' c record offset (.wrote k::answers) total) (hmore : ¬ record.length ≤ total)
    (hneg : ¬ offset+total < 0) :
    Writing s {s' with content := pwriteAt s'.content (offset+total).toNat ((record.drop total).take k)}
      c record offset answers (total+((record.drop total).take k).length) := by
  have hrest := h.rest
  simp only [fullPwriteLoop,if_neg hmore,if_neg hneg] at hrest
  generalize hpart : (record.drop total).take k = part at hrest ⊢
  have hlen : part.length ≤ record.length-total := by
    rw [← hpart,List.length_take,List.length_drop]
    omega
  have htotal := h.total_le
  have hgrows := h.grows
  have hbound := h.bound
  by_cases hempty : part = []
  · rw [hempty,pwriteAt_nil] at hrest ⊢
    exact {h with rest := hrest}
  · refine ⟨h.fileSize,h.logOffset,by omega,hrest,?_,?_,fun j hj hout => ?_⟩
    · rw [pwriteAt_length hempty]
      omega
    · rw [pwriteAt_length hempty]
      omega
    · rw [getElem?_pwriteAt_outside (by omega) (by omega)]
      exact h.outside j hj hout

def Stands (printf : Printf A) (int : ℤ → ℤ) (cfg : Config) (s : Position)
    (c : PrintCall A) (s' : Position) : Stage A → Prop
  | .format c' => s' = s ∧ c' = c
  | .write record offset answers total => ∃ s₁,
      formatCall printf int cfg s c = (s₁,.inl (.write record offset c.answers 0)) ∧
      Writing s₁ s' c record offset answers total

theorem stands_of_format {b : Stage A} (h : formatCall printf int cfg s c = (s',.inl b)) :
    Stands printf int cfg s c s' b := by
  have hfirst := h
  simp only [formatCall] at h
  split at h
  · cases h
    exact ⟨_,hfirst,writing_start _ _ _ _⟩
  · cases h

theorem stands_of_write {s₁ : Position} {record : Bytes} {offset : ℤ}
    {answers : List PwriteResult} {total : ℕ} {b : Stage A}
    (hfirst : formatCall printf int cfg s c = (s₁,.inl (.write record offset c.answers 0)))
    (h : Writing s₁ s' c record offset answers total) {t : Position}
    (hm : writeStep int s' record offset answers total = (t,.inl b)) :
    Stands printf int cfg s c t b := by
  simp only [writeStep] at hm
  split at hm
  · cases hm
  rename_i hmore
  cases answers with
  | nil =>
    cases hm
    exact ⟨s₁,hfirst,h⟩
  | cons r answers =>
    cases r with
    | eintr =>
      cases hm
      exact ⟨s₁,hfirst,h.eintr hmore⟩
    | error => cases hm
    | wrote k =>
      simp only at hm
      split at hm
      · cases hm
      · rename_i hneg
        cases hm
        exact ⟨s₁,hfirst,h.wrote hmore hneg⟩

theorem stands_of_reaches {b : Stage A}
    (h : Reaches (logger printf int cfg) s (.format c) s' b) : Stands printf int cfg s c s' b := by
  generalize hstage : Stage.format c = b₀ at h
  induction h with
  | refl =>
    subst hstage
    exact ⟨rfl,rfl⟩
  | step h hm ih =>
    rename_i b₁ b₂
    have hstands := ih hstage
    cases b₁ with
    | format c' =>
      obtain ⟨rfl,rfl⟩ := hstands
      rw [logger_format] at hm
      exact stands_of_format hm
    | write record offset answers total =>
      obtain ⟨s₁,hfirst,hwriting⟩ := hstands
      rw [logger_write] at hm
      exact stands_of_write hfirst hwriting hm

theorem formatCall_write {s₁ : Position} {record : Bytes} {offset : ℤ}
    (h : formatCall printf int cfg s c = (s₁,.inl (.write record offset c.answers 0))) :
    (0 < (callFormatted printf c).2 ∧ (callFormatted printf c).2 < writeBufSize) ∧
      record = (callFormatted printf c).1.take (callFormatted printf c).2 ∧
      s₁ = s.rotate int cfg record.length ∧ offset = int (s₁.fileSize+s₁.logOffset) := by
  simp only [formatCall] at h
  split at h
  · rename_i hsize
    cases h
    exact ⟨hsize,rfl,rfl,rfl⟩
  · cases h

theorem writeRecord_state {rs : List PwriteResult} {record content : Bytes} {n : ℤ}
    (hpwrite : fullPwrite rs (s.rotate int cfg record.length).content record
      (int ((s.rotate int cfg record.length).fileSize+(s.rotate int cfg record.length).logOffset)) =
        some (content,n)) :
    writeRecord int rs (cfg.state s) cfg.file record =
      (int ((s.rotate int cfg record.length).fileSize+(s.rotate int cfg record.length).logOffset),
        some (cfg.state ⟨(s.rotate int cfg record.length).fileSize,
          if n = -1 then (s.rotate int cfg record.length).logOffset
            else int ((s.rotate int cfg record.length).logOffset+n),content⟩,decide (n = -1))) := by
  simp only [writeRecord,rotate_state]
  generalize s.rotate int cfg record.length = s₁ at hpwrite ⊢
  have hcontent : ((cfg.state s₁).disk cfg.file).getD [] = s₁.content := by simp [Config.state]
  have hoffset : (cfg.state s₁).setting.fileSize+(cfg.state s₁).logOffset = s₁.fileSize+s₁.logOffset := rfl
  rw [hcontent,hoffset,hpwrite]
  by_cases hn : n = -1
  · simp [hn,Config.state]
  · simp [hn,Config.state]

theorem printCall_of_write (hearly : early cfg c = none) {s₁ : Position} {record : Bytes}
    {offset : ℤ} (hfirst : formatCall printf int cfg s c =
      (s₁,.inl (.write record offset c.answers 0))) {content : Bytes} {n : ℤ}
    (hpwrite : fullPwrite c.answers s₁.content record offset = some (content,n)) :
    printCall printf int cfg s c =
      (⟨s₁.fileSize,if n = -1 then s₁.logOffset else int (s₁.logOffset+n),content⟩,
        ⟨some (record,offset),if n = -1 then some .pwriteFail else none⟩) := by
  obtain ⟨hsize,hrecord,rfl,hoffset⟩ := formatCall_write hfirst
  have hw : writeRecord int c.answers (cfg.state s) cfg.file record = (offset,
      some (cfg.state ⟨(s.rotate int cfg record.length).fileSize,
        if n = -1 then (s.rotate int cfg record.length).logOffset
          else int ((s.rotate int cfg record.length).logOffset+n),content⟩,decide (n = -1))) := by
    rw [hoffset] at hpwrite ⊢
    exact writeRecord_state hpwrite
  rw [hrecord] at hw
  have hrun := run_of_record hearly hsize hw
  rw [printCall,hrun,← hrecord]
  simp [written]

theorem logger_implements : Implements (logger printf int cfg) (printCall printf int cfg) := by
  intro s c s' out h
  cases h with
  | early h =>
    rw [printCall,run_of_early h]
    simp [written]
  | locked hearly h hm =>
    rename_i u b
    have hstands := stands_of_reaches h
    cases b with
    | format c' =>
      obtain ⟨rfl,rfl⟩ := hstands
      simp only [logger,micro,formatCall] at hm
      split at hm
      · cases hm
      · rename_i hsize
        cases hm
        rw [printCall,run_of_short hearly hsize]
        simp [written]
    | write record offset answers total =>
      obtain ⟨s₁,hfirst,hwriting⟩ := hstands
      have hrest := hwriting.rest
      rw [logger_write] at hm
      simp only [writeStep] at hm
      split at hm
      · rename_i hdone
        cases hm
        have hloop : fullPwrite c.answers s₁.content record offset = some (u.content,(total : ℤ)) := by
          rw [hrest]
          cases answers with
          | nil => simp only [fullPwriteLoop,if_pos hdone]
          | cons r answers => simp only [fullPwriteLoop,if_pos hdone]
        have hn : (total : ℤ) ≠ -1 := by omega
        rw [printCall_of_write hearly hfirst hloop,if_neg hn,if_neg hn,hwriting.fileSize,
          hwriting.logOffset]
      · rename_i hmore
        cases answers with
        | nil => cases hm
        | cons r answers =>
          cases r with
          | eintr => cases hm
          | error =>
            cases hm
            simp only [fullPwriteLoop,if_neg hmore] at hrest
            rw [printCall_of_write hearly hfirst hrest,if_pos rfl,if_pos rfl,← hwriting.fileSize,
              ← hwriting.logOffset]
          | wrote k =>
            simp only at hm
            split at hm
            · rename_i hneg
              cases hm
              simp only [fullPwriteLoop,if_neg hmore,if_pos hneg] at hrest
              rw [printCall_of_write hearly hfirst hrest,if_pos rfl,if_pos rfl,← hwriting.fileSize,
                ← hwriting.logOffset]
            · cases hm

/-- What one who reads the file, or finds it after the process has been killed, may see of the log that
the finished calls have left: all of it, with one record begun at the position. -/
def OneRecord (int : ℤ → ℤ) (cfg : Config) (base shared : Position) : Prop :=
  shared = base ∨ ∃ (c : PrintCall A) (record : Bytes) (answers : List PwriteResult) (total : ℕ),
    record.length < writeBufSize ∧ Writing (base.rotate int cfg record.length) shared c record
      (int ((base.rotate int cfg record.length).fileSize+(base.rotate int cfg record.length).logOffset))
      answers total

theorem oneRecord_of_stands {b : Stage A} (h : Stands printf int cfg s c s' b) :
    OneRecord (A:=A) int cfg s s' := by
  cases b with
  | format c' => exact .inl h.1
  | write record offset answers total =>
    obtain ⟨s₁,hfirst,hwriting⟩ := h
    obtain ⟨hsize,hrecord,rfl,rfl⟩ := formatCall_write hfirst
    refine .inr ⟨c,record,answers,total,?_,hwriting⟩
    rw [hrecord]
    exact Nat.lt_of_le_of_lt (List.length_take_le _ _) hsize.2

end OneCall

section Threads

variable {printf : Printf A} {int : ℤ → ℤ} {cfg : Config} {s₀ : Position}
  {T : Type*} [DecidableEq T] {sys : System T Position (PrintCall A) (Stage A) Written}

theorem shared_of_inv {base : Position}
    (h : CriticalSection.Inv (logger printf int cfg) (printCall printf int cfg) s₀ base sys) :
    OneRecord (A:=A) int cfg base sys.shared := by
  cases howner : sys.owner with
  | none => exact .inl (h.idle howner)
  | some t =>
    have hholds := h.owner t howner
    cases hplace : sys.place t with
    | outside =>
      rw [hplace] at hholds
      exact hholds.elim
    | waiting c =>
      rw [hplace] at hholds
      exact hholds.elim
    | leaving c r =>
      rw [hplace] at hholds
      exact .inl hholds
    | inside c b =>
      rw [hplace] at hholds
      exact oneRecord_of_stands (stands_of_reaches hholds.2)

section Stdout

variable (printf int cfg)

/-- The threads with what has come out on stdout so far, by thread. -/
structure Terminal (T A : Type*) where
  system : System T Position (PrintCall A) (Stage A) Written
  stdout : List (T × Shown)

def Terminal.init (s : Position) : Terminal T A := ⟨System.init s,[]⟩

/-- What the step that leads to `sys` puts out: the line is printed before the mutex is taken, a complaint
about the record before it is released. -/
def shows (sys : System T Position (PrintCall A) (Stage A) Written) :
    Label T (PrintCall A) → List (T × Shown)
  | .call t c => (shownBefore printf cfg c).map (t,·)
  | .micro t =>
    match sys.place t with
    | .leaving _ w => (complaints w).map (t,·)
    | _ => []
  | .lock _ => []
  | .unlock _ => []

def Terminal.step (s : Terminal T A) (l : Label T (PrintCall A)) : Option (Terminal T A) :=
  (System.step (logger printf int cfg) s.system l).map fun sys => ⟨sys,s.stdout++shows printf cfg sys l⟩

def underway : Place (PrintCall A) (Stage A) Written → List Shown
  | .waiting c => [.line (callText printf c)]
  | .inside c _ => [.line (callText printf c)]
  | .outside => []
  | .leaving _ _ => []

def shownOf (s : Terminal T A) (t : T) : List Shown :=
  (s.stdout.filter fun e => decide (e.1 = t)).map Prod.snd

/-- What the thread's finished calls put out, and the line of the one it makes. -/
def expected (sys : System T Position (PrintCall A) (Stage A) Written) (t : T) : List Shown :=
  ((sys.returned t++(sys.place t).pending).flatMap fun e => shownBy printf cfg e.1 e.2)++
    underway printf (sys.place t)

variable {printf int cfg}

theorem shownOf_append (s : Terminal T A) (sys : System T Position (PrintCall A) (Stage A) Written)
    (t u : T) (l : List Shown) :
    shownOf ⟨sys,s.stdout++l.map (t,·)⟩ u = shownOf s u ++ if u = t then l else [] := by
  by_cases hu : u = t
  · simp [shownOf,hu,List.filter_map,Function.comp_def]
  · simp [shownOf,hu,List.filter_map,Function.comp_def,Ne.symm hu]

omit [DecidableEq T] in
theorem expected_congr {sys sys' : System T Position (PrintCall A) (Stage A) Written} {u : T}
    (hplace : sys'.place u = sys.place u) (hreturned : sys'.returned u = sys.returned u) :
    expected printf cfg sys u = expected printf cfg sys' u := by
  rw [expected,expected,hplace,hreturned]

theorem move_place_of_ne {t u : T} (hu : u ≠ t) (p : Place (PrintCall A) (Stage A) Written) :
    (sys.move t p).place u = sys.place u := Function.update_of_ne hu _ _

variable {s s' : Terminal T A} {t : T} {c : PrintCall A}

theorem call_stdout (ht : s.step printf int cfg (.call t c) = some s')
    (h : ∀ u, shownOf s u = expected printf cfg s.system u) (u : T) :
    shownOf s' u = expected printf cfg s'.system u := by
  obtain ⟨sys,hsys,rfl⟩ := Option.map_eq_some_iff.mp ht
  simp only [System.step] at hsys
  cases hplace : s.system.place t with
  | waiting c => simp only [hplace] at hsys; cases hsys
  | inside c b => simp only [hplace] at hsys; cases hsys
  | leaving c r => simp only [hplace] at hsys; cases hsys
  | outside =>
    simp only [hplace] at hsys
    rw [shows,shownOf_append,h u]
    cases hearly : (logger printf int cfg).early c with
    | some w =>
      have hearly' : early cfg c = some w := hearly
      simp only [hearly] at hsys
      cases hsys
      by_cases hu : u = t
      · subst hu
        simp [expected,shownBefore,shownBy,hearly',hplace,Place.pending,underway]
      · rw [if_neg hu,List.append_nil]
        exact expected_congr rfl (Function.update_of_ne hu _ s.system.returned)
    | none =>
      have hearly' : early cfg c = none := hearly
      simp only [hearly] at hsys
      cases hsys
      by_cases hu : u = t
      · subst hu
        simp [expected,shownBefore,hearly',hplace,Place.pending,underway,System.move]
      · rw [if_neg hu,List.append_nil]
        exact expected_congr (move_place_of_ne hu _) rfl

theorem lock_stdout (ht : s.step printf int cfg (.lock t) = some s')
    (h : ∀ u, shownOf s u = expected printf cfg s.system u) (u : T) :
    shownOf s' u = expected printf cfg s'.system u := by
  obtain ⟨sys,hsys,rfl⟩ := Option.map_eq_some_iff.mp ht
  rw [shows,show shownOf ⟨sys,s.stdout++[]⟩ u = shownOf s u by rw [List.append_nil]; rfl,h u]
  simp only [System.step] at hsys
  split at hsys
  · rename_i c hplace _
    cases hsys
    by_cases hu : u = t
    · subst hu
      simp [expected,hplace,Place.pending,underway,System.move]
    · exact expected_congr (move_place_of_ne hu _) rfl
  · cases hsys

theorem micro_stdout (hlate : ∀ c b, s.system.place t = .inside c b → early cfg c = none)
    (ht : s.step printf int cfg (.micro t) = some s')
    (h : ∀ u, shownOf s u = expected printf cfg s.system u) (u : T) :
    shownOf s' u = expected printf cfg s'.system u := by
  obtain ⟨sys,hsys,rfl⟩ := Option.map_eq_some_iff.mp ht
  simp only [System.step] at hsys
  cases hplace : s.system.place t with
  | outside => simp only [hplace] at hsys; cases hsys
  | waiting c => simp only [hplace] at hsys; cases hsys
  | leaving c r => simp only [hplace] at hsys; cases hsys
  | inside c b =>
    have hearly := hlate c b hplace
    simp only [hplace] at hsys
    rcases hm : (logger printf int cfg).micro s.system.shared b with ⟨shared,b' | w⟩
    · rw [hm] at hsys
      cases hsys
      have hshows : shows printf cfg {s.system.move t (.inside c b') with shared := shared} (.micro t) =
          [] := by simp [shows,System.move]
      rw [hshows,show shownOf ⟨_,s.stdout++[]⟩ u = shownOf s u by rw [List.append_nil]; rfl,h u]
      by_cases hu : u = t
      · subst hu
        simp [expected,hplace,Place.pending,underway,System.move]
      · exact expected_congr (move_place_of_ne hu _) rfl
    · rw [hm] at hsys
      cases hsys
      have hshows : shows printf cfg {s.system.move t (.leaving c w) with
          shared := shared, history := s.system.history++[(t,c,w)]} (.micro t) =
          (complaints w).map (t,·) := by simp [shows,System.move]
      rw [hshows,shownOf_append,h u]
      by_cases hu : u = t
      · subst hu
        simp [expected,hplace,Place.pending,underway,System.move,shownBy,hearly]
      · rw [if_neg hu,List.append_nil]
        exact expected_congr (move_place_of_ne hu _) rfl

theorem unlock_stdout (ht : s.step printf int cfg (.unlock t) = some s')
    (h : ∀ u, shownOf s u = expected printf cfg s.system u) (u : T) :
    shownOf s' u = expected printf cfg s'.system u := by
  obtain ⟨sys,hsys,rfl⟩ := Option.map_eq_some_iff.mp ht
  rw [shows,show shownOf ⟨sys,s.stdout++[]⟩ u = shownOf s u by rw [List.append_nil]; rfl,h u]
  simp only [System.step] at hsys
  cases hplace : s.system.place t with
  | outside => simp only [hplace] at hsys; cases hsys
  | waiting c => simp only [hplace] at hsys; cases hsys
  | inside c b => simp only [hplace] at hsys; cases hsys
  | leaving c r =>
    simp only [hplace] at hsys
    cases hsys
    by_cases hu : u = t
    · subst hu
      simp [expected,hplace,Place.pending,underway,System.move]
    · exact expected_congr (move_place_of_ne hu _) (Function.update_of_ne hu _ s.system.returned)

theorem late_of_inv {base : Position} {t : T} {c : PrintCall A} {b : Stage A}
    (h : CriticalSection.Inv (logger printf int cfg) (printCall printf int cfg) s₀ base sys)
    (hplace : sys.place t = .inside c b) : early cfg c = none := by
  have howner : sys.owner = some t := h.owner_of_not_free (by rw [hplace]; exact id)
  have hholds := h.owner t howner
  rw [hplace] at hholds
  exact hholds.1

/-- The finished calls explain the file, and stdout by thread. -/
theorem terminal_inv (ls : List (Label T (PrintCall A)))
    (hs : exec (Terminal.step printf int cfg) (Terminal.init s₀) ls = some s) :
    (∃ base, CriticalSection.Inv (logger printf int cfg) (printCall printf int cfg) s₀ base s.system) ∧
      ∀ u, shownOf s u = expected printf cfg s.system u := by
  refine exec_invariant_of_step (I:=fun s : Terminal T A =>
    (∃ base, CriticalSection.Inv (logger printf int cfg) (printCall printf int cfg) s₀ base s.system) ∧
      ∀ u, shownOf s u = expected printf cfg s.system u) ?_ ls
    ⟨⟨s₀,CriticalSection.init_inv _ _ s₀⟩,fun _ => rfl⟩ hs
  rintro s l s' ⟨⟨base,hinv⟩,hout⟩ ht
  obtain ⟨sys,hsys,hs'⟩ := Option.map_eq_some_iff.mp ht
  refine ⟨?_,?_⟩
  · rw [← hs']
    exact step_inv logger_implements hinv hsys
  · cases l with
    | call t c => exact call_stdout ht hout
    | lock t => exact lock_stdout ht hout
    | micro t => exact micro_stdout (fun c b => late_of_inv hinv) ht hout
    | unlock t => exact unlock_stdout ht hout

theorem exec_system {ls : List (Label T (PrintCall A))}
    (hs : exec (Terminal.step printf int cfg) s ls = some s') :
    exec (System.step (logger printf int cfg)) s.system ls = some s'.system := by
  induction ls generalizing s with
  | nil =>
    cases hs
    rfl
  | cons l ls ih =>
    obtain ⟨u,hu,hs⟩ := exec_cons.mp hs
    obtain ⟨sys,hsys,rfl⟩ := Option.map_eq_some_iff.mp hu
    exact exec_cons.mpr ⟨sys,hsys,ih hs⟩

end Stdout

/-- `gw_log(GW_INFO, "hi")` with `pwrite` failing after three bytes. -/
def tornCall : PrintCall ℤ := ⟨noon,[.wrote 3,.eintr,.error],1,funcName,7,some plainFmt,fun _ => 0⟩

/-- The second thread prints its line first and writes its record, cut short, while the first waits;
then the first has written three bytes. -/
def tornRun : List (Label Bool (PrintCall ℤ)) :=
  [.call true tornCall,.call false tornCall,.lock false,.micro false,.micro false,.micro false,
    .micro false,.unlock false,.lock true,.micro true,.micro true]

def tornConfig : Config := ⟨1,logFile,64,fun _ => none⟩

structure Bounded (cfg : Config) (size : ℕ) (s : Position) : Prop where
  fileSize : 0 ≤ s.fileSize
  logOffset : 0 ≤ s.logOffset
  length : (s.content.length : ℤ) ≤ max (size : ℤ) (writeBound cfg.maxSize)

theorem Bounded.state {size : ℕ} {s : Position} (h : Bounded cfg size s) :
    LogBound.Inv cfg.file cfg.maxSize size (cfg.state s) where
  file_eq name hname := ⟨(Option.some.inj hname).symm,rfl⟩
  fileSize := h.fileSize
  logOffset := h.logOffset
  length := by
    have hcontent : content cfg.file (cfg.state s) = s.content := by simp [content,Config.state]
    rw [hcontent]
    exact h.length

theorem Bounded.call {size : ℕ} {s : Position} (h : Bounded cfg size s) (c : PrintCall A) :
    Bounded cfg size (printCall printf id cfg s c).1 := by
  rw [printCall]
  cases hrun : (c.run printf id (cfg.state s)).2 with
  | none => exact h
  | some st =>
    have hst := h.state.print hrun
    exact ⟨hst.fileSize,hst.logOffset,hst.length⟩

theorem rotate_place (cfg : Config) (s : Position) {n : ℕ} (hn : n < writeBufSize) :
    (s.rotate id cfg n).fileSize+(s.rotate id cfg n).logOffset+n ≤ writeBound cfg.maxSize := by
  rw [writeBound,le_max_iff,Position.rotate]
  split
  · right
    simp only [zero_add]
    omega
  · rename_i htest
    simp only [id] at htest
    left
    omega

/-- In exact arithmetic the file stays within its first length and the limit at every moment of every
interleaving, also inside the calls. -/
theorem shared_log_bounded (ls : List (Label T (PrintCall A))) {size : ℕ} (hs : Bounded cfg size s₀)
    (h : exec (System.step (logger printf id cfg)) (System.init s₀) ls = some sys) :
    (sys.shared.content.length : ℤ) ≤ max (size : ℤ) (max (cfg.maxSize-1) (writeBufSize-1)) := by
  obtain ⟨base,hinv⟩ := explained logger_implements ls h
  have hbase : Bounded cfg size base := hinv.replays.invariant (fun _ c hs => hs.call c) hs
  rcases shared_of_inv hinv with hshared | ⟨c,record,answers,total,hsize,hwriting⟩
  · rw [hshared]
    exact hbase.length
  · have hbound := hwriting.bound
    have hlength := hbase.length
    have hplace := rotate_place cfg base hsize
    rw [rotate_content] at hbound
    simp only [id] at hbound
    rw [writeBound] at hlength hplace
    omega

theorem shared_log_bounded_torn : ∃ sys,
    exec (System.step (logger printInts id tornConfig)) (System.init ⟨1,0,[0]⟩) tornRun = some sys ∧
    sys.shared.content.length = 4 ∧
    (sys.shared.content.length : ℤ) ≤ max ((1 : ℕ) : ℤ) (max (64-1) (writeBufSize-1)) := by
  obtain ⟨sys,hsys,hlength⟩ : ∃ sys, exec (System.step (logger printInts id tornConfig))
      (System.init ⟨1,0,[0]⟩) tornRun = some sys ∧ sys.shared.content.length = 4 := ⟨_,rfl,by decide⟩
  have hs : Bounded tornConfig 1 ⟨1,0,[0]⟩ := ⟨by decide,by decide,by decide⟩
  exact ⟨sys,hsys,hlength,shared_log_bounded tornRun hs hsys⟩

end Threads

end LogThreads
end IotBase
