import IotBase.DispatchFifo
import IotBase.DispatchSession
import Mathlib.Order.Lattice

/-! What `select` is asked to watch. `build_fd_sets` hands every registered descriptor to
`FD_SET`, which has room for the first `FD_SETSIZE`; the kernel numbers descriptors as it likes. -/
namespace IotBase
namespace DispatchSelect
open DispatchTransfer DispatchFifo
open DispatchSession (Registry dispatchRegisterChannel)

def fdSetSize : ℤ := 1024

/-- The descriptors of the registered rows among `is`, in their order. -/
def registeredFds (fdArray : FdArray) (is : List ℕ) : List ℤ :=
  (is.map fun i => (fdArray i).fd).filter fun fd => decide (fd ≠ dispatchInvalidFd)

def fdSetCalls (ids : ModuleIds) (fdArray : FdArray) : List ℤ := registeredFds fdArray ids.real

/-- The descriptors that the loop of `dispatch_thread_func` tests with `FD_ISSET`. -/
def fdIsSetCalls (ids : ModuleIds) (fdArray : FdArray) : List ℤ := registeredFds fdArray ids.real

/-- The set has exactly the registered descriptors, all of them below its size, and the largest
is returned, so that `select` on what is below `maxFd+1` sees all that is tested afterwards. -/
structure SelectMatches (ids : ModuleIds) (fdArray : FdArray) : Prop where
  members : ∀ fd, (buildFdSets ids fdArray).1 fd = true ↔
    ∃ i ∈ ids.real, (fdArray i).fd = fd ∧ fd ≠ dispatchInvalidFd
  inside : ∀ fd ∈ fdSetCalls ids fdArray, 0 ≤ fd ∧ fd < fdSetSize
  largest : ∀ i ∈ ids.real, (fdArray i).fd ≠ dispatchInvalidFd →
    (fdArray i).fd ≤ (buildFdSets ids fdArray).2
  attained : (buildFdSets ids fdArray).2 = -1 ∧
      (∀ i ∈ ids.real, (fdArray i).fd = dispatchInvalidFd) ∨
    ∃ i ∈ ids.real, (fdArray i).fd ≠ dispatchInvalidFd ∧
      (fdArray i).fd = (buildFdSets ids fdArray).2
  covers : ∀ fd ∈ fdIsSetCalls ids fdArray, 0 ≤ fd ∧ fd < (buildFdSets ids fdArray).2+1

theorem mem_registeredFds {fdArray : FdArray} {is : List ℕ} {fd : ℤ} :
    fd ∈ registeredFds fdArray is ↔ ∃ i ∈ is, (fdArray i).fd = fd ∧ fd ≠ dispatchInvalidFd := by
  simp only [registeredFds,List.mem_filter,List.mem_map,decide_eq_true_eq]
  constructor
  · rintro ⟨⟨i,hi,hfd⟩,hne⟩
    exact ⟨i,hi,hfd,hne⟩
  · rintro ⟨i,hi,hfd,hne⟩
    exact ⟨⟨i,hi,hfd⟩,hne⟩

theorem buildFdSetsLoop_eq (fdArray : FdArray) (is : List ℕ) (fds : ℤ → Bool) (maxFd : ℤ) :
    buildFdSetsLoop fdArray is fds maxFd =
      ((registeredFds fdArray is).foldl (fun fds fd => Function.update fds fd true) fds,
        (registeredFds fdArray is).foldl max maxFd) := by
  induction is generalizing fds maxFd with
  | nil => rfl
  | cons i is ih =>
    rw [buildFdSetsLoop]
    by_cases hfd : (fdArray i).fd = dispatchInvalidFd
    · have hskip : registeredFds fdArray (i::is) = registeredFds fdArray is := by
        simp [registeredFds,hfd]
      rw [if_neg (not_not.mpr hfd),ih,hskip]
    · have htake : registeredFds fdArray (i::is) = (fdArray i).fd::registeredFds fdArray is := by
        simp [registeredFds,hfd]
      rw [if_pos hfd,ih,htake,List.foldl_cons,List.foldl_cons,max_def_lt]

theorem maxFd_spec (ids : ModuleIds) (fdArray : FdArray) :
    (buildFdSets ids fdArray).2 ∈ -1::fdSetCalls ids fdArray ∧
    ∀ fd ∈ -1::fdSetCalls ids fdArray, fd ≤ (buildFdSets ids fdArray).2 := by
  have hmax : (buildFdSets ids fdArray).2 = (fdSetCalls ids fdArray).foldl max (-1) := by
    rw [buildFdSets,buildFdSetsLoop_eq]
    rfl
  rw [hmax]
  exact List.max?_eq_some_iff.mp List.max?_cons'

/-- With positive descriptors all is as it should be exactly when they fit in a `fd_set`. -/
theorem select_matches_iff (ids : ModuleIds) (fdArray : FdArray)
    (hpos : ∀ i ∈ ids.real, (fdArray i).fd ≠ dispatchInvalidFd → 0 < (fdArray i).fd) :
    SelectMatches ids fdArray ↔ ∀ i ∈ ids.real, (fdArray i).fd < fdSetSize := by
  have hmem : ∀ i ∈ ids.real, (fdArray i).fd ≠ dispatchInvalidFd →
      (fdArray i).fd ∈ fdSetCalls ids fdArray :=
    fun i hi hne => mem_registeredFds.mpr ⟨i,hi,rfl,hne⟩
  have hcalls : ∀ fd ∈ fdSetCalls ids fdArray, 0 < fd := by
    intro fd hfd
    obtain ⟨i,hi,rfl,hne⟩ := mem_registeredFds.mp hfd
    exact hpos i hi hne
  obtain ⟨hattained,hlargest⟩ := maxFd_spec ids fdArray
  constructor
  · intro h i hi
    by_cases hne : (fdArray i).fd = dispatchInvalidFd
    · rw [hne]
      decide
    · exact (h.inside _ (hmem i hi hne)).2
  · intro h
    refine ⟨fun fd => buildFdSets_mem,fun fd hfd => ⟨(hcalls fd hfd).le,?_⟩,fun i hi hne => ?_,?_,
      fun fd hfd => ⟨(hcalls fd hfd).le,?_⟩⟩
    · obtain ⟨i,hi,rfl,-⟩ := mem_registeredFds.mp hfd
      exact h i hi
    · exact hlargest _ (List.mem_cons_of_mem _ (hmem i hi hne))
    · rcases List.mem_cons.mp hattained with hnone | hsome
      · refine Or.inl ⟨hnone,fun i hi => ?_⟩
        by_contra hne
        have hle := hlargest _ (List.mem_cons_of_mem _ (hmem i hi hne))
        have hlow := hpos i hi hne
        omega
      · obtain ⟨i,hi,hfd,hne⟩ := mem_registeredFds.mp hsome
        exact Or.inr ⟨i,hi,by rwa [hfd],hfd⟩
    · have hle := hlargest fd (List.mem_cons_of_mem _ hfd)
      omega

theorem select_matches_three : SelectMatches threeIds threeRows :=
  (select_matches_iff threeIds threeRows (by decide)).mpr (by decide)

/-- A process with 1024 open files registers a channel: the kernel's next number is 1024. -/
def manyFiles : FdArray :=
  (dispatchRegisterChannel threeIds Registry.init 1 dispatchModeSendRecv (some (1024,1025))).1.fdArray

theorem manyFiles_fd : (manyFiles 1).fd = 1024 := by decide

/-- The descriptor is passed to `FD_SET` beyond the set. -/
theorem select_outside_set : ¬ SelectMatches threeIds manyFiles := by
  intro h
  have hcall : (1024 : ℤ) ∈ fdSetCalls threeIds manyFiles :=
    mem_registeredFds.mpr ⟨1,by decide,manyFiles_fd,by decide⟩
  exact absurd (h.inside _ hcall).2 (by decide)

end DispatchSelect
end IotBase
