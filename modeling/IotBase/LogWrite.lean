import IotBase.LogRecord
import IotBase.MapfileStore

/-! What the writes of `log_printf` do to the file: the bytes of one `pwrite`, the pieces that
`full_pwrite` writes whatever the kernel answers, and everything that a call can do. -/
namespace IotBase
namespace LogWrite
open RawBytes CString VaFormat LogRecord
open MapfileStore (toInt32 toInt32_range toInt32_of_nonneg toInt32_add_left toInt32_add_right)

section Pwrite

variable {file a b data : Bytes} {offset k : ℕ}

@[simp] theorem pwriteAt_nil (file : Bytes) (offset : ℕ) : pwriteAt file offset [] = file := if_pos rfl

theorem pwriteAt_eq (h : data ≠ []) : pwriteAt file offset data =
    (file++List.replicate (offset-file.length) 0).take offset++data++file.drop (offset+data.length) := by
  have hrest : (List.replicate (offset-file.length) (0 : UInt8)).drop
      (offset+data.length-file.length) = [] := by
    rw [List.drop_eq_nil_iff,List.length_replicate]
    omega
  simp only [pwriteAt,if_neg h,List.drop_append,hrest,List.append_nil]

theorem pwriteAt_length (h : data ≠ []) :
    (pwriteAt file offset data).length = max file.length (offset+data.length) := by
  rw [pwriteAt_eq h]
  simp only [List.length_append,List.length_take,List.length_drop,List.length_replicate]
  omega

theorem getElem?_pwriteAt_outside (hk : k < file.length)
    (hout : k < offset ∨ offset+data.length ≤ k) : (pwriteAt file offset data)[k]? = file[k]? := by
  by_cases h : data = []
  · rw [h,pwriteAt_nil]
  rw [pwriteAt_eq h]
  have hhead : ((file++List.replicate (offset-file.length) (0 : UInt8)).take offset).length = offset := by
    simp only [List.length_take,List.length_append,List.length_replicate]
    omega
  rcases hout with hlt | hge
  · rw [List.append_assoc,List.getElem?_append_left (by rw [hhead]; exact hlt),List.getElem?_take,
      if_pos hlt,List.getElem?_append_left hk]
  · rw [List.getElem?_append_right (by rw [List.length_append,hhead]; exact hge),List.length_append,
      hhead,List.getElem?_drop]
    congr 1
    omega

theorem getElem?_pwriteAt_inside (hk : k < data.length) :
    (pwriteAt file offset data)[offset+k]? = data[k]? := by
  have h : data ≠ [] := by
    rintro rfl
    simp at hk
  have hhead : ((file++List.replicate (offset-file.length) (0 : UInt8)).take offset).length = offset := by
    simp only [List.length_take,List.length_append,List.length_replicate]
    omega
  rw [pwriteAt_eq h,List.append_assoc,List.getElem?_append_right (by rw [hhead]; omega),hhead,
    Nat.add_sub_cancel_left,List.getElem?_append_left hk]

theorem pwriteAt_append (file : Bytes) (offset : ℕ) (a b : Bytes) :
    pwriteAt (pwriteAt file offset a) (offset+a.length) b = pwriteAt file offset (a++b) := by
  by_cases ha : a = []
  · simp [ha]
  by_cases hb : b = []
  · simp [hb]
  generalize hpad : (file++List.replicate (offset-file.length) (0 : UInt8)).take offset = pad
  have hlen : (pad++a).length = offset+a.length := by
    rw [← hpad]
    simp only [List.length_append,List.length_take,List.length_replicate]
    omega
  have hfirst : pwriteAt file offset a = pad++a++file.drop (offset+a.length) := by
    rw [pwriteAt_eq ha,hpad]
  have hgap : offset+a.length-(pwriteAt file offset a).length = 0 := by
    rw [pwriteAt_length ha]
    omega
  rw [pwriteAt_eq hb,hgap,List.replicate_zero,List.append_nil,hfirst,← hlen,List.take_left,
    List.drop_length_add_append,List.drop_drop,hlen,pwriteAt_eq (by simp [ha]),hpad,
    List.length_append]
  simp only [List.append_assoc,Nat.add_assoc]

end Pwrite

section FullPwrite

variable {data : Bytes} {offset : ℤ}

/-- The pieces that `full_pwrite` has written after the answers `rs`: each with its place. -/
def stores (data : Bytes) (offset : ℤ) : List PwriteResult → ℕ → List (ℕ × Bytes)
  | [], _ => []
  | r::rs, total =>
    if data.length ≤ total then []
    else
      match r with
      | .eintr => stores data offset rs total
      | .error => []
      | .wrote k =>
        if offset+total < 0 then []
        else
          let part := (data.drop total).take k
          ((offset+total).toNat,part)::stores data offset rs (total+part.length)

def applyStores (file : Bytes) (ws : List (ℕ × Bytes)) : Bytes :=
  ws.foldl (fun file w => pwriteAt file w.1 w.2) file

theorem applyStores_length_le {b : ℤ} {file : Bytes} {ws : List (ℕ × Bytes)} (hfile : file.length ≤ b)
    (h : ∀ w ∈ ws, (w.1+w.2.length : ℤ) ≤ b) : (applyStores file ws).length ≤ b := by
  induction ws generalizing file with
  | nil => exact hfile
  | cons w ws ih =>
    obtain ⟨hw,hws⟩ := List.forall_mem_cons.mp h
    have hfirst : ((pwriteAt file w.1 w.2).length : ℤ) ≤ b := by
      by_cases hne : w.2 = []
      · rwa [hne,pwriteAt_nil]
      · rw [pwriteAt_length hne]
        omega
    exact ih hfirst hws

theorem stores_within {rs : List PwriteResult} {total : ℕ} (ht : total ≤ data.length) :
    ∀ w ∈ stores data offset rs total,
      offset+total ≤ w.1 ∧ (w.1+w.2.length : ℤ) ≤ offset+data.length := by
  induction rs generalizing total with
  | nil => simp [stores]
  | cons r rs ih =>
    simp only [stores]
    split
    · simp
    · cases r with
      | eintr => exact ih ht
      | error => simp
      | wrote k =>
        simp only
        split
        · simp
        · rename_i hneg
          have hpart : ((data.drop total).take k).length ≤ data.length-total := by
            rw [List.length_take,List.length_drop]
            omega
          refine List.forall_mem_cons.mpr ⟨?_,fun w hw => ?_⟩
          · simp only [Int.toNat_of_nonneg (not_lt.mp hneg)]
            omega
          · obtain ⟨hlow,hhigh⟩ := ih (by omega) w hw
            exact ⟨by omega,hhigh⟩

theorem fullPwriteLoop_eq {rs : List PwriteResult} {total : ℕ} {file content : Bytes} {n : ℤ}
    (h : fullPwriteLoop data offset rs total file = some (content,n)) (ht : total ≤ data.length) :
    content = applyStores file (stores data offset rs total) ∧ (n = -1 ∨ n = data.length) := by
  induction rs generalizing total file with
  | nil =>
    simp only [fullPwriteLoop] at h
    split at h
    · cases h
      exact ⟨rfl,Or.inr (by omega)⟩
    · cases h
  | cons r rs ih =>
    simp only [fullPwriteLoop,stores] at h ⊢
    split at h
    · cases h
      rename_i hdone
      rw [if_pos hdone]
      exact ⟨rfl,Or.inr (by omega)⟩
    · rename_i hmore
      rw [if_neg hmore]
      cases r with
      | eintr => exact ih h ht
      | error =>
        cases h
        exact ⟨rfl,Or.inl rfl⟩
      | wrote k =>
        simp only at h ⊢
        split at h
        · rename_i hneg
          cases h
          rw [if_pos hneg]
          exact ⟨rfl,Or.inl rfl⟩
        · rename_i hneg
          rw [if_neg hneg]
          exact ih h (by rw [List.length_take,List.length_drop]; omega)

/-- However many pieces it took, a loop that ends without an error has written the rest of
the data where it belongs. -/
theorem fullPwriteLoop_ok {rs : List PwriteResult} {total : ℕ} {file content : Bytes} {n : ℤ}
    (h : fullPwriteLoop data offset rs total file = some (content,n)) (hn : n ≠ -1)
    (ht : total ≤ data.length) : (total < data.length → 0 ≤ offset+total) ∧
      content = pwriteAt file (offset+total).toNat (data.drop total) := by
  induction rs generalizing total file with
  | nil =>
    simp only [fullPwriteLoop] at h
    split at h
    · rename_i hdone
      cases h
      refine ⟨fun hlt => absurd hlt (by omega),?_⟩
      rw [List.drop_of_length_le hdone,pwriteAt_nil]
    · cases h
  | cons r rs ih =>
    simp only [fullPwriteLoop] at h
    split at h
    · rename_i hdone
      cases h
      refine ⟨fun hlt => absurd hlt (by omega),?_⟩
      rw [List.drop_of_length_le hdone,pwriteAt_nil]
    · cases r with
      | eintr => exact ih h ht
      | error =>
        cases h
        exact absurd rfl hn
      | wrote k =>
        simp only at h
        split at h
        · cases h
          exact absurd rfl hn
        · rename_i hneg
          generalize hpart : (data.drop total).take k = part at h
          have hlen : part.length ≤ data.length-total := by
            rw [← hpart,List.length_take,List.length_drop]
            omega
          obtain ⟨-,hcontent⟩ := ih h (by omega)
          refine ⟨fun _ => by omega,?_⟩
          have hsplit : part++data.drop (total+part.length) = data.drop total := by
            have hfirst : part <+: data.drop total := by
              rw [← hpart]
              exact List.take_prefix _ _
            rw [← List.drop_drop]
            exact List.prefix_iff_eq_append.mp hfirst
          have hplace : (offset+(total+part.length : ℕ)).toNat = (offset+total).toNat+part.length := by
            omega
          rw [hcontent,hplace,pwriteAt_append,hsplit]

end FullPwrite

def Rotates (int : ℤ → ℤ) (st : LogState) (n : ℕ) : Prop :=
  st.setting.maxSize ≤ int (int (st.setting.fileSize+st.logOffset)+n)

instance (int : ℤ → ℤ) (st : LogState) (n : ℕ) : Decidable (Rotates int st n) :=
  inferInstanceAs (Decidable (_ ≤ _))

section WriteRecord

variable {int : ℤ → ℤ} {rs : List PwriteResult} {st st' : LogState} {file : CStr} {record : Bytes}
  {offset : ℤ} {failed : Bool}

theorem rotate_pos {n : ℕ} (h : Rotates int st n) :
    rotate int st n = ⟨{st.setting with fileSize := 0},0,st.disk⟩ := if_pos h

theorem rotate_neg {n : ℕ} (h : ¬ Rotates int st n) : rotate int st n = st := if_neg h

@[simp] theorem rotate_disk (int : ℤ → ℤ) (st : LogState) (n : ℤ) : (rotate int st n).disk = st.disk := by
  rw [rotate]
  split <;> rfl

@[simp] theorem rotate_fp (int : ℤ → ℤ) (st : LogState) (n : ℤ) :
    (rotate int st n).setting.fp = st.setting.fp := by
  rw [rotate]
  split <;> rfl

@[simp] theorem rotate_maxSize (int : ℤ → ℤ) (st : LogState) (n : ℤ) :
    (rotate int st n).setting.maxSize = st.setting.maxSize := by
  rw [rotate]
  split <;> rfl

theorem writeRecord_offset {after : Option (LogState × Bool)}
    (h : writeRecord int rs st file record = (offset,after)) :
    offset = int ((rotate int st record.length).setting.fileSize+
      (rotate int st record.length).logOffset) := by
  simp only [writeRecord] at h
  split at h
  · cases h
    rfl
  · split at h
    · cases h
      rfl
    · cases h
      rfl

theorem writeRecord_returns (h : writeRecord int rs st file record = (offset,some (st',failed))) :
    ∃ content n, fullPwrite rs ((st.disk file).getD []) record offset = some (content,n) ∧
      (failed = true ↔ n = -1) ∧ st'.setting = (rotate int st record.length).setting ∧
      st'.logOffset = (if failed then (rotate int st record.length).logOffset
        else int ((rotate int st record.length).logOffset+n)) ∧
      st'.disk = Function.update st.disk file (some content) := by
  have hplace := writeRecord_offset h
  simp only [writeRecord,rotate_disk,← hplace] at h
  cases hpwrite : fullPwrite rs ((st.disk file).getD []) record offset with
  | none =>
    rw [hpwrite] at h
    cases h
  | some r =>
    obtain ⟨content,n⟩ := r
    rw [hpwrite] at h
    simp only at h
    refine ⟨content,n,rfl,?_⟩
    split at h
    · rename_i hn
      cases h
      exact ⟨iff_of_true rfl hn,rfl,rfl,rfl⟩
    · rename_i hn
      cases h
      exact ⟨iff_of_false (by simp) hn,rfl,rfl,rfl⟩

theorem writeRecord_some (h : writeRecord int rs st file record = (offset,some (st',failed))) :
    offset = int ((rotate int st record.length).setting.fileSize+(rotate int st record.length).logOffset) ∧
    st'.setting = (rotate int st record.length).setting ∧
    st'.logOffset = (if failed then (rotate int st record.length).logOffset
      else int ((rotate int st record.length).logOffset+record.length)) ∧
    st'.disk = Function.update st.disk file
      (some (applyStores ((st.disk file).getD []) (stores record offset rs 0))) := by
  obtain ⟨content,n,hpwrite,hfailed,hsetting,hlog,hdisk⟩ := writeRecord_returns h
  obtain ⟨hcontent,hlen⟩ := fullPwriteLoop_eq hpwrite (Nat.zero_le _)
  refine ⟨writeRecord_offset h,hsetting,?_,by rw [hdisk,hcontent]⟩
  cases failed with
  | true => exact hlog
  | false =>
    have hn : n ≠ -1 := fun hn => absurd (hfailed.mpr hn) (by simp)
    rw [hlog,hlen.resolve_left hn]

theorem writeRecord_ok (h : writeRecord int rs st file record = (offset,some (st',false)))
    (hrecord : FitsRecord record) : 0 ≤ offset ∧
    st'.disk = Function.update st.disk file
      (some (pwriteAt ((st.disk file).getD []) offset.toNat record)) := by
  obtain ⟨content,n,hpwrite,hfailed,-,-,hdisk⟩ := writeRecord_returns h
  have hn : n ≠ -1 := fun hn => absurd (hfailed.mpr hn) (by simp)
  obtain ⟨hoff,hcontent⟩ := fullPwriteLoop_ok hpwrite hn (Nat.zero_le _)
  simp only [Nat.cast_zero,add_zero,List.drop_zero] at hoff hcontent
  exact ⟨hoff hrecord.1,by rw [hdisk,hcontent]⟩

def Tracks (st : LogState) (e : ℤ) : Prop :=
  toInt32 (st.setting.fileSize+st.logOffset) = toInt32 e

theorem write_rotated (h : writeRecord toInt32 rs st file record = (offset,some (st',false)))
    (hrot : Rotates toInt32 st record.length) : offset = 0 ∧ Tracks st' record.length := by
  obtain ⟨hoff,hsetting,hlog,-⟩ := writeRecord_some h
  rw [rotate_pos hrot] at hoff hsetting hlog
  refine ⟨hoff,?_⟩
  rw [Tracks,hsetting,hlog]
  simp

theorem Tracks.write {e : ℤ} (ht : Tracks st e) (he : 0 ≤ e) (hlt : e < 2^32)
    (h : writeRecord toInt32 rs st file record = (offset,some (st',false)))
    (hrecord : FitsRecord record) (hrot : ¬ Rotates toInt32 st record.length) :
    offset = e ∧ Tracks st' (e+record.length) ∧ e < 2^31 := by
  obtain ⟨hoff,hsetting,hlog,-⟩ := writeRecord_some h
  obtain ⟨hnonneg,-⟩ := writeRecord_ok h hrecord
  rw [rotate_neg hrot] at hoff hsetting hlog
  rw [Tracks] at ht
  rw [ht] at hoff
  have hself : toInt32 e = e := toInt32_of_nonneg he hlt (by rw [← hoff]; exact hnonneg)
  refine ⟨hoff.trans hself,?_,?_⟩
  · rw [Tracks,hsetting,hlog]
    calc toInt32 (st.setting.fileSize+toInt32 (st.logOffset+record.length))
        = toInt32 (st.setting.fileSize+st.logOffset+record.length) := by
          rw [toInt32_add_right,add_assoc]
      _ = toInt32 (e+record.length) := by rw [← toInt32_add_left,ht,toInt32_add_left]
  · rw [← hself]
    exact (toInt32_range e).2

end WriteRecord

/-- A call of `log_printf`: its arguments, the time it reads and the answers of `pwrite`. -/
structure PrintCall (A : Type*) where
  clock : Clock
  answers : List PwriteResult
  level : ℤ
  func : CStr
  line : ℤ
  fmt : Option CStr
  args : ℕ → A

/-- The call printed `pwrite fail`. -/
def failed (out : Output) : Bool :=
  match out.notice with
  | some .pwriteFail => true
  | _ => false

variable {A : Type*} (printf : Printf A) (int : ℤ → ℤ)

def PrintCall.run (st : LogState) (c : PrintCall A) : Output × Option LogState :=
  logPrintf printf int c.clock c.answers st c.level c.func c.line c.fmt c.args

def PrintCall.record (st : LogState) (c : PrintCall A) : Option Bytes :=
  (c.run printf int st).1.record.map Prod.fst

/-- Everything that a call can do: nothing to the log, or one record. -/
theorem PrintCall.run_cases (st : LogState) (c : PrintCall A) :
    ((c.run printf int st).1.record = none ∧ failed (c.run printf int st).1 = false ∧
      ∀ st', (c.run printf int st).2 = some st' → st' = st) ∨
    ∃ file record offset after, st.setting.fp = some file ∧ FitsRecord record ∧
      writeRecord int c.answers st file record = (offset,after) ∧
      (c.run printf int st).1.record = some (record,offset) ∧
      (c.run printf int st).2 = after.map Prod.fst ∧
      ∀ st' b, after = some (st',b) → failed (c.run printf int st).1 = b := by
  obtain ⟨clock,rs,level,func,line,fmt,args⟩ := c
  have hkeep : ∀ st' : LogState, some st = some st' → st' = st := fun st' h => (Option.some.inj h).symm
  simp only [PrintCall.run,logPrintf]
  cases fmt with
  | none => exact Or.inl ⟨rfl,rfl,hkeep⟩
  | some fmt =>
    simp only
    split
    · exact Or.inl ⟨rfl,rfl,hkeep⟩
    split
    · exact Or.inl ⟨rfl,rfl,hkeep⟩
    split
    · exact Or.inl ⟨rfl,rfl,hkeep⟩
    cases levelName level with
    | none => exact Or.inl ⟨rfl,rfl,hkeep⟩
    | some name =>
      simp only
      cases hfp : st.setting.fp with
      | none => exact Or.inl ⟨rfl,rfl,hkeep⟩
      | some file =>
        simp only
        split
        · split
          · rename_i hsize
            right
            generalize hformat : vsnformat printf args writeBufSize (lineFormat name clock func line fmt)
              (vformat printf args (lineFormat name clock func line fmt) 0).2 = formatted at hsize ⊢
            have hlen : (formatted.1.take formatted.2.1).length = formatted.2.1 := by
              rw [← hformat] at hsize ⊢
              simp only [vsnformat,List.length_take] at hsize ⊢
              omega
            have hfits : FitsRecord (formatted.1.take formatted.2.1) := by
              rw [FitsRecord,hlen]
              exact hsize
            refine ⟨file,_,(writeRecord int rs st file (formatted.1.take formatted.2.1)).1,
              (writeRecord int rs st file (formatted.1.take formatted.2.1)).2,rfl,hfits,rfl,?_⟩
            generalize writeRecord int rs st file (formatted.1.take formatted.2.1) = written
            obtain ⟨offset,_ | ⟨st',b⟩⟩ := written
            · exact ⟨rfl,rfl,fun _ _ h => by cases h⟩
            · refine ⟨rfl,rfl,fun st'' b' h => ?_⟩
              cases h
              cases b <;> rfl
          · exact Or.inl ⟨rfl,rfl,hkeep⟩
        · exact Or.inl ⟨rfl,rfl,fun _ h => by cases h⟩

theorem PrintCall.record_fits {st : LogState} {c : PrintCall A} {data : Bytes}
    (h : c.record printf int st = some data) : FitsRecord data := by
  rcases c.run_cases printf int st with ⟨hnone,-,-⟩ | ⟨file,data',offset,after,-,hfits,-,hr,-⟩
  · rw [PrintCall.record,hnone] at h
    cases h
  · rw [PrintCall.record,hr] at h
    cases h
    exact hfits

theorem PrintCall.run_some {st st' : LogState} {c : PrintCall A}
    (hst : (c.run printf int st).2 = some st') :
    ((c.run printf int st).1.record = none ∧ c.record printf int st = none ∧
      failed (c.run printf int st).1 = false ∧ st' = st) ∨
    ∃ file record offset, st.setting.fp = some file ∧ FitsRecord record ∧
      (c.run printf int st).1.record = some (record,offset) ∧ c.record printf int st = some record ∧
      writeRecord int c.answers st file record =
        (offset,some (st',failed (c.run printf int st).1)) := by
  rcases c.run_cases printf int st with
    ⟨hnone,hok,hkeep⟩ | ⟨file,record,offset,after,hfp,hfits,hw,hr,hnext,hb⟩
  · exact Or.inl ⟨hnone,by rw [PrintCall.record,hnone]; rfl,hok,hkeep st' hst⟩
  · right
    rw [hnext] at hst
    obtain ⟨⟨st'',b⟩,rfl,rfl⟩ := Option.map_eq_some_iff.mp hst
    rw [hb st'' b rfl]
    exact ⟨file,record,offset,hfp,hfits,hr,by rw [PrintCall.record,hr]; rfl,hw⟩

end LogWrite
end IotBase
