import IotBase.MapfileIsolation
import IotBase.CriticalSection

/-! Threads that share one handle. Each call checks its arguments, takes the handle's mutex and reads,
changes and writes the file step by step. -/
namespace IotBase
namespace MapfileThreads
open RawBytes CString MapfileItem MapfileStore MapfileFile MapfileIsolation LabelledRun CriticalSection

/-- Where a call stands that holds the mutex: before its first access to the file, with the row it is
about to write, or with the file emptied. -/
inductive Stage
  | start (c : Call)
  | write (f : WriteFaults) (kv : List KvItem) (location : ℕ)
  | emptied (f : EmpFaults)

def early : Call → Option Reply
  | .set _ (some _) (some value) => if value.len ≤ 0 then some (.code .fail) else none
  | .set _ _ _ => some (.code .fail)
  | .get _ _ (some _) (some len) => if len ≤ 0 then some (.value none) else none
  | .get _ _ _ _ => some (.value none)
  | .del _ (some _) => none
  | .del _ none => some (.code .fail)
  | .emp _ => none

def truncateFull (disk : Disk) : Disk := some (slice (disk.getD []) 0 fileLen)

def startCall (disk : Disk) : Call → Disk × (Stage ⊕ Reply)
  | .set f key value =>
    match hashTablePutRow f.malloc f.read disk key value with
    | none => (disk,.inr (.code .fail))
    | some (i,kv) => (disk,.inl (.write f.write kv i))
  | .get malloc f key buf => (disk,.inr (.value (hashTableGet malloc f disk key buf)))
  | .del f (some key) =>
    if f.malloc then (disk,.inr (.code .fail))
    else
      match readKvItem f.read disk (hashGen key) with
      | none => (disk,.inr (.code .fail))
      | some kv => (disk,.inl (.write f.write (rmLoop key kv) (hashGen key)))
  | .del _ none => (disk,.inr (.code .fail))
  | .emp f => if f.fopenFails then (disk,.inr (.code .fail)) else (some [],.inl (.emptied f))

theorem startCall_set {disk : Disk} {f : Faults} {key : Option CStr} {value : Option Value} {i : ℕ}
    {kv : List KvItem} (h : hashTablePutRow f.malloc f.read disk key value = some (i,kv)) :
    startCall disk (.set f key value) = (disk,.inl (.write f.write kv i)) := by
  simp only [startCall,h]

def micro (disk : Disk) : Stage → Disk × (Stage ⊕ Reply)
  | .start c => startCall disk c
  | .write f kv location =>
    ((writeKvItem f disk kv location).1,.inr (.code (writeKvItem f disk kv location).2))
  | .emptied f =>
    if f.truncateFails then (disk,.inr (.code .fail))
    else (truncateFull disk,.inr (.code (if f.fsyncFails then .fail else .ok)))

def handle : Routine Disk Call Stage Reply := ⟨early,.start,micro⟩

def Stands (disk : Disk) (c : Call) (disk' : Disk) : Stage → Prop
  | .start c' => disk' = disk ∧ c' = c
  | .write f kv location => disk' = disk ∧
      c.run disk = ((writeKvItem f disk kv location).1,.code (writeKvItem f disk kv location).2)
  | .emptied f => disk' = some [] ∧ f.fopenFails = false ∧ c = .emp f

variable {disk disk' : Disk} {c : Call} {b : Stage} {r : Reply}

theorem run_of_early (h : early c = some r) : c.run disk = (disk,r) := by
  cases c with
  | set f key value =>
    rcases key with _ | key
    · cases h
      rfl
    · rcases value with _ | value
      · cases h
        rfl
      · simp only [early] at h
        split at h
        · rename_i hlen
          cases h
          simp only [Call.run,mapfileKvSet,kvSet,if_pos hlen]
        · cases h
  | get malloc f key buf =>
    rcases key with _ | key
    · cases h
      rfl
    · rcases buf with _ | len
      · cases h
        rfl
      · simp only [early] at h
        split at h
        · rename_i hlen
          cases h
          simp only [Call.run,mapfileKvGet,kvGet,if_pos hlen]
        · cases h
  | del f key =>
    rcases key with _ | key
    · cases h
      rfl
    · cases h
  | emp f => cases h

theorem set_of_early {f : Faults} {key : Option CStr} {value : Option Value}
    (h : early (.set f key value) = none) :
    mapfileKvSet f disk key value = hashTablePut f disk key value := by
  rcases key with _ | key
  · cases h
  · rcases value with _ | value
    · cases h
    · simp only [early] at h
      split at h
      · cases h
      · rename_i hlen
        simp only [mapfileKvSet,kvSet,if_neg hlen]

theorem get_of_early {malloc : Bool} {f : ReadFaults} {key : Option CStr} {buf : Option ℤ}
    (h : early (.get malloc f key buf) = none) :
    mapfileKvGet malloc f disk key buf = hashTableGet malloc f disk key buf := by
  rcases key with _ | key
  · cases h
  · rcases buf with _ | len
    · cases h
    · simp only [early] at h
      split at h
      · cases h
      · rename_i hlen
        simp only [mapfileKvGet,kvGet,if_neg hlen]

theorem startCall_more (hearly : early c = none) (h : startCall disk c = (disk',.inl b)) :
    Stands disk c disk' b := by
  cases c with
  | set f key value =>
    simp only [startCall] at h
    split at h
    · cases h
    · rename_i i kv hput
      cases h
      refine ⟨rfl,?_⟩
      simp only [Call.run,set_of_early hearly,hashTablePut,hput]
  | get malloc f key buf => cases h
  | del f key =>
    rcases key with _ | key
    · cases hearly
    · simp only [startCall] at h
      split at h
      · cases h
      · rename_i hmalloc
        split at h
        · cases h
        · rename_i kv hread
          cases h
          refine ⟨rfl,?_⟩
          simp only [Call.run,mapfileKvDel,kvDel,hashTableRm,if_neg hmalloc,hread]
  | emp f =>
    simp only [startCall] at h
    split at h
    · cases h
    · rename_i hopen
      cases h
      exact ⟨rfl,Bool.eq_false_iff.mpr hopen,rfl⟩

theorem startCall_last (hearly : early c = none) (h : startCall disk c = (disk',.inr r)) :
    c.run disk = (disk',r) := by
  cases c with
  | set f key value =>
    simp only [startCall] at h
    split at h
    · rename_i hput
      cases h
      simp only [Call.run,set_of_early hearly,hashTablePut,hput]
    · cases h
  | get malloc f key buf =>
    cases h
    simp only [Call.run,get_of_early hearly]
  | del f key =>
    rcases key with _ | key
    · cases hearly
    · simp only [startCall] at h
      split at h
      · rename_i hmalloc
        cases h
        simp only [Call.run,mapfileKvDel,kvDel,hashTableRm,if_pos hmalloc]
      · rename_i hmalloc
        split at h
        · rename_i hread
          cases h
          simp only [Call.run,mapfileKvDel,kvDel,hashTableRm,if_neg hmalloc,hread]
        · cases h
  | emp f =>
    simp only [startCall] at h
    split at h
    · rename_i hopen
      cases h
      simp only [Call.run,mapfileKvEmp,if_pos hopen]
    · cases h

theorem stands_of_reaches (hearly : early c = none)
    (h : Reaches handle disk (.start c) disk' b) : Stands disk c disk' b := by
  generalize hstage : Stage.start c = b₀ at h
  induction h with
  | refl =>
    subst hstage
    exact ⟨rfl,rfl⟩
  | step h hm ih =>
    rename_i b₁ b₂
    have hstands := ih hstage
    cases b₁ with
    | start c' =>
      obtain ⟨rfl,rfl⟩ := hstands
      exact startCall_more hearly hm
    | write f kv location => cases hm
    | emptied f =>
      simp only [handle,micro] at hm
      split at hm
      · cases hm
      · cases hm

theorem truncateFull_nil : truncateFull (some []) = some (List.replicate fileLen 0) :=
  congrArg some (List.takeD_nil _ _)

theorem handle_implements : Implements handle fun disk c => c.run disk := by
  intro disk c disk' r h
  cases h with
  | early h => exact run_of_early h
  | locked hearly h hm =>
    rename_i u b
    have hstands := stands_of_reaches hearly h
    cases b with
    | start c' =>
      obtain ⟨rfl,rfl⟩ := hstands
      exact startCall_last hearly hm
    | write f kv location =>
      obtain ⟨rfl,hrun⟩ := hstands
      cases hm
      exact hrun
    | emptied f =>
      obtain ⟨rfl,hopen,rfl⟩ := hstands
      simp only [handle,micro] at hm
      simp only [Call.run,mapfileKvEmp,hopen,Bool.false_eq_true,if_false]
      split at hm
      · rename_i htruncate
        cases hm
        rw [if_pos htruncate]
      · rename_i htruncate
        cases hm
        rw [if_neg htruncate,truncateFull_nil]
        split
        · rfl
        · rfl

/-- The file as one who reads it without the mutex may find it: as the calls that have finished have
left it, or emptied. -/
theorem shared_of_inv {T : Type*} [DecidableEq T] {base : Disk}
    {sys : System T Disk Call Stage Reply}
    (h : CriticalSection.Inv handle (fun disk c => c.run disk) disk base sys) :
    sys.shared = base ∨ sys.shared = some [] := by
  cases howner : sys.owner with
  | none => exact .inl (h.idle howner)
  | some t =>
    have hholds := h.owner t howner
    cases hplace : sys.place t with
    | outside =>
      rw [hplace] at hholds
      exact hholds.elim
    | waiting c =>
      rw [hplace] at hholds
      exact hholds.elim
    | leaving c r =>
      rw [hplace] at hholds
      exact .inl hholds
    | inside c b =>
      rw [hplace] at hholds
      have hstands := stands_of_reaches hholds.1 hholds.2
      cases b with
      | start c' => exact .inl hstands.1
      | write f kv location => exact .inl hstands.1
      | emptied f => exact .inr hstands.1

theorem kvItemGet_nil (abi : Abi) (f : ReadFaults) (location : ℤ) :
    mapfileKvItemGet abi f (some []) location = none := by
  have hshort : ([] : Bytes).length < (toInt32 (abi.rowProduct location)).toNat+rowLen :=
    Nat.lt_of_lt_of_le (by decide : 0 < rowLen) (Nat.le_add_left _ _)
  simp only [mapfileKvItemGet,readKvItem_,hshort,or_true,if_true,ite_self]

/-- Whatever the interleaving of the threads and whatever fails, the calls through one handle answer
as if each had been made at once, in the order in which they finish. A row that is read without the
mutex meanwhile is one of the file that the calls so far have left, or the read fails. -/
theorem store_linearizable {T : Type*} [DecidableEq T] (ls : List (Label T Call))
    {sys : System T Disk Call Stage Reply}
    (h : exec (System.step handle) (System.init disk) ls = some sys) :
    ∃ base, Linearized handle disk ls sys (fun disk c => c.run disk) disk base ∧
      ∀ abi f location, mapfileKvItemGet abi f sys.shared location = none ∨
        mapfileKvItemGet abi f sys.shared location = mapfileKvItemGet abi f base location := by
  obtain ⟨base,hinv⟩ := explained handle_implements ls h
  refine ⟨base,hinv.linearized h hinv.replays,fun abi f location => ?_⟩
  rcases shared_of_inv hinv with hshared | hshared
  · rw [hshared]
    exact .inr rfl
  · rw [hshared]
    exact .inl (kvItemGet_nil abi f location)

/-- A key of row 0, "qo". -/
def keyRow0 : CStr := ⟨[113,111],by decide⟩

def seven : Value := ⟨[7],1,by decide⟩

/-- A thread sets while another waits, which gets and then empties the file; its `emp` has not yet set
the size. -/
def emptiedRun : List (Label Bool Call) :=
  [.call false (.set {} (some keyRow0) (some seven)),.lock false,.micro false,
    .call true (.get false {} (some keyRow0) (some 4)),.micro false,.unlock false,.lock true,.micro true,
    .unlock true,.call true (.emp {}),.lock true,.micro true]

theorem store_linearizable_emptied : ∃ sys, exec (System.step handle)
      (System.init (some (List.replicate rowLen 0))) emptiedRun = some sys ∧
    (sys.history.map fun e => (e.1,e.2.2)) = [(false,.code .ok),(true,.value (some (1,[7])))] ∧
    sys.shared = some [] ∧
    ∃ base, Linearized handle (some (List.replicate rowLen 0)) emptiedRun sys (fun disk c => c.run disk)
        (some (List.replicate rowLen 0)) base ∧
      ∀ abi f location, mapfileKvItemGet abi f sys.shared location = none ∨
        mapfileKvItemGet abi f sys.shared location = mapfileKvItemGet abi f base location := by
  have hrun : (exec (System.step handle) (System.init (some (List.replicate rowLen 0))) emptiedRun).map
      (fun sys => (sys.history.map (fun e => (e.1,e.2.2)),sys.shared)) =
      some ([(false,.code .ok),(true,.value (some (1,[7])))],some []) := by decide +kernel
  obtain ⟨sys,hsys,hend⟩ := Option.map_eq_some_iff.mp hrun
  obtain ⟨hhistory,hshared⟩ := Prod.mk.inj hend
  exact ⟨sys,hsys,hhistory,hshared,store_linearizable emptiedRun hsys⟩

end MapfileThreads
end IotBase
