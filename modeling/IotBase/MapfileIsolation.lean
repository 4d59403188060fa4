import IotBase.MapfileFile
import IotBase.Unwinding

/-! The rows of the store are independent: whatever the file and whatever fails, the calls on keys of
one row answer as if no call on another row had been made. -/
namespace IotBase
namespace MapfileIsolation
open RawBytes CString MapfileItem MapfileStore MapfileFile Unwinding

inductive Call
  | set (f : Faults) (key : Option CStr) (value : Option Value)
  | get (malloc : Bool) (f : ReadFaults) (key : Option CStr) (buf : Option ℤ)
  | del (f : Faults) (key : Option CStr)
  | emp (f : EmpFaults)

inductive Reply
  | code (ret : Ret)
  | value (found : Option (ℤ × Bytes))
  deriving DecidableEq

def Call.run (disk : Disk) : Call → Disk × Reply
  | .set f key value => ((mapfileKvSet f disk key value).1,.code (mapfileKvSet f disk key value).2)
  | .get malloc f key buf => (disk,.value (mapfileKvGet malloc f disk key buf))
  | .del f key => ((mapfileKvDel f disk key).1,.code (mapfileKvDel f disk key).2)
  | .emp f => ((mapfileKvEmp f disk).1,.code (mapfileKvEmp f disk).2)

def Call.onRow (r : ℕ) : Call → Bool
  | .set _ key _ => key.any fun k => decide (hashGen k = r)
  | .get _ _ key _ => key.any fun k => decide (hashGen k = r)
  | .del _ key => key.any fun k => decide (hashGen k = r)
  | .emp _ => true

theorem key_onRow {r : ℕ} {key : Option CStr} (h : (key.any fun k => decide (hashGen k = r)) = true) :
    ∃ k, key = some k ∧ hashGen k = r := by
  cases key with
  | none => cases h
  | some k => exact ⟨k,rfl,of_decide_eq_true h⟩

/-- What a call on row `r` depends on: whether the file exists, its length and the row. -/
def rowView (r : ℕ) (disk : Disk) : Option (ℕ × Bytes) :=
  disk.map fun file => (file.length,slice file (rowOff r) rowLen)

variable {r i : ℕ} {disk disk' : Disk}

theorem count_le (w : WriteResult) : (w.count rowLen).getD 0 ≤ rowLen := by
  cases w with
  | complete => exact le_rfl
  | short n => exact Nat.min_le_right _ _
  | error => exact Nat.zero_le _

theorem readKvItem_of_view (h : rowView r disk = rowView r disk') (f : ReadFaults) :
    readKvItem f disk r = readKvItem f disk' r := by
  cases disk with
  | none =>
    cases disk' with
    | none => rfl
    | some _ => cases h
  | some file =>
    cases disk' with
    | none => cases h
    | some file' =>
      obtain ⟨hlength,hrow⟩ := Prod.mk.inj (Option.some.inj h)
      rw [readKvItem,readKvItem,rowAt,rowAt,hlength,hrow]

theorem writeKvItem_of_view (h : rowView r disk = rowView r disk') (f : WriteFaults) (kv : List KvItem) :
    (writeKvItem f disk kv r).2 = (writeKvItem f disk' kv r).2 ∧
      rowView r (writeKvItem f disk kv r).1 = rowView r (writeKvItem f disk' kv r).1 := by
  cases disk with
  | none =>
    cases disk' with
    | none => exact ⟨rfl,rfl⟩
    | some _ => cases h
  | some file =>
    cases disk' with
    | none => cases h
    | some file' =>
      obtain ⟨hlength,hrow⟩ := Prod.mk.inj (Option.some.inj h)
      simp only [writeKvItem,rowOff_succ,← hlength]
      split
      · exact ⟨rfl,h⟩
      · split
        · exact ⟨rfl,h⟩
        · split
          · exact ⟨rfl,h⟩
          · rename_i hfit
            split
            · exact ⟨rfl,h⟩
            · generalize hdata : (encodeRow kv).take ((f.write.count rowLen).getD 0) = data
              have hshort : data.length ≤ rowLen := by
                rw [← hdata]
                exact (List.length_take_le _ _).trans (count_le f.write)
              refine ⟨rfl,congrArg some (Prod.ext ?_ ?_)⟩
              · exact (splice_length _ _ _).trans (hlength.trans (splice_length _ _ _).symm)
              · change slice (splice file (rowOff r) data) (rowOff r) rowLen =
                  slice (splice file' (rowOff r) data) (rowOff r) rowLen
                rw [slice_splice_inside (by omega) hshort,slice_splice_inside (by omega) hshort,hrow]

theorem writeKvItem_frame (hir : i ≠ r) (f : WriteFaults) (disk : Disk) (kv : List KvItem) :
    rowView r (writeKvItem f disk kv i).1 = rowView r disk := by
  rcases writeKvItem_cases f disk kv i with hfail | ⟨file,rfl,hfit,hwrite⟩
  · rw [hfail]
  · rw [hwrite]
    generalize hdata : (encodeRow kv).take ((f.write.count rowLen).getD 0) = data
    have hshort : data.length ≤ rowLen := by
      rw [← hdata]
      exact (List.length_take_le _ _).trans (count_le f.write)
    refine congrArg some (Prod.ext (splice_length _ _ _) ?_)
    change slice (splice file (rowOff i) data) (rowOff r) rowLen = slice file (rowOff r) rowLen
    rcases Nat.lt_or_gt_of_ne hir with hlt | hgt
    · have hoff := rowOff_le_of_lt hlt
      exact slice_splice_behind (by omega) (by omega)
    · have hoff := rowOff_le_of_lt hgt
      exact slice_splice_before (by omega) (by omega)

def Agree (r : ℕ) (x y : Disk × Ret) : Prop := x.2 = y.2 ∧ rowView r x.1 = rowView r y.1

theorem set_of_view {k : CStr} (h : rowView (hashGen k) disk = rowView (hashGen k) disk') (f : Faults)
    (value : Option Value) : Agree (hashGen k) (mapfileKvSet f disk (some k) value)
      (mapfileKvSet f disk' (some k) value) := by
  cases value with
  | none => exact ⟨rfl,h⟩
  | some v =>
    have hput : hashTablePutRow f.malloc f.read disk (some k) (some v) =
        hashTablePutRow f.malloc f.read disk' (some k) (some v) := by
      simp only [hashTablePutRow,readKvItem_of_view h]
    simp only [mapfileKvSet,kvSet,hashTablePut,← hput]
    split
    · exact ⟨rfl,h⟩
    · cases hrow : hashTablePutRow f.malloc f.read disk (some k) (some v) with
      | none => exact ⟨rfl,h⟩
      | some x =>
        obtain ⟨i,kv⟩ := x
        obtain ⟨rfl,-,-⟩ := hashTablePutRow_some hrow
        exact writeKvItem_of_view h f.write kv

theorem del_of_view {k : CStr} (h : rowView (hashGen k) disk = rowView (hashGen k) disk') (f : Faults) :
    Agree (hashGen k) (mapfileKvDel f disk (some k)) (mapfileKvDel f disk' (some k)) := by
  simp only [mapfileKvDel,kvDel,hashTableRm,← readKvItem_of_view h]
  split
  · exact ⟨rfl,h⟩
  · cases readKvItem f.read disk (hashGen k) with
    | none => exact ⟨rfl,h⟩
    | some kv => exact writeKvItem_of_view h f.write _

theorem get_of_view {k : CStr} (h : rowView (hashGen k) disk = rowView (hashGen k) disk') (malloc : Bool)
    (f : ReadFaults) (buf : Option ℤ) :
    mapfileKvGet malloc f disk (some k) buf = mapfileKvGet malloc f disk' (some k) buf := by
  cases buf with
  | none => rfl
  | some len => simp only [mapfileKvGet,kvGet,hashTableGet,readKvItem_of_view h]

theorem emp_of_view (h : rowView r disk = rowView r disk') (f : EmpFaults) :
    Agree r (mapfileKvEmp f disk) (mapfileKvEmp f disk') := by
  simp only [mapfileKvEmp]
  split
  · exact ⟨rfl,h⟩
  · exact ⟨rfl,rfl⟩

/-- A row is all that the calls on it look at, and calls on other rows leave it. -/
theorem row_unwinds (r : ℕ) : Unwinds Call.run (Call.onRow r) (rowView r) where
  local_answer disk disk' c hc h := by
    cases c with
    | set f key value =>
      obtain ⟨k,rfl,rfl⟩ := key_onRow hc
      exact congrArg Reply.code (set_of_view h f value).1
    | get malloc f key buf =>
      obtain ⟨k,rfl,rfl⟩ := key_onRow hc
      exact congrArg Reply.value (get_of_view h malloc f buf)
    | del f key =>
      obtain ⟨k,rfl,rfl⟩ := key_onRow hc
      exact congrArg Reply.code (del_of_view h f).1
    | emp f => exact congrArg Reply.code (emp_of_view h f).1
  local_view disk disk' c hc h := by
    cases c with
    | set f key value =>
      obtain ⟨k,rfl,rfl⟩ := key_onRow hc
      exact (set_of_view h f value).2
    | get malloc f key buf => exact h
    | del f key =>
      obtain ⟨k,rfl,rfl⟩ := key_onRow hc
      exact (del_of_view h f).2
    | emp f => exact (emp_of_view h f).2
  frame disk c hc := by
    cases c with
    | set f key value =>
      rcases mapfileKvSet_cases f disk key value with hfail | ⟨k,v,kv,rfl,-,-,-,hwrite⟩
      · exact congrArg (rowView r) (congrArg Prod.fst hfail)
      · refine (congrArg (rowView r) (congrArg Prod.fst hwrite)).trans ?_
        exact writeKvItem_frame (of_decide_eq_false hc) f.write disk kv
    | get malloc f key buf => rfl
    | del f key =>
      rcases mapfileKvDel_cases f disk key with hfail | ⟨k,rfl,hwrite⟩
      · exact congrArg (rowView r) (congrArg Prod.fst hfail)
      · refine (congrArg (rowView r) (congrArg Prod.fst hwrite)).trans ?_
        exact writeKvItem_frame (of_decide_eq_false hc) f.write disk _
    | emp f => cases hc

/-- From any file, of any length and content, and whatever fails: the calls on the keys of row `r`
and those that empty the file answer as they do alone, and they alone decide what the row holds. -/
theorem rows_independent (r : ℕ) (disk : Disk) (calls : List Call) :
    answers Call.run (Call.onRow r) disk calls =
        answers Call.run (fun _ => true) disk (calls.filter (Call.onRow r)) ∧
      rowView r (finish Call.run disk calls) =
        rowView r (finish Call.run disk (calls.filter (Call.onRow r))) := by
  obtain ⟨hanswers,hview⟩ := (row_unwinds r).filter (rfl : rowView r disk = rowView r disk) calls
  exact ⟨hanswers.trans (answers_filter disk calls),hview⟩

end MapfileIsolation
end IotBase
