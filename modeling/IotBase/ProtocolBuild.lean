import IotBase.ProtocolTeardown

/-! The list that a sequence of `protocol_insert_list` calls builds: which pairs it holds, in
which order, and which blocks are allocated for it. -/
namespace IotBase
namespace ProtocolBuild
open RawBytes CString BlockHeap ProtocolConvert ProtocolTeardown LabelledRun
open MapfileStore (toInt32_eq)

structure Call where
  faults : MallocFaults
  cloudPropertyName : Option CStr
  rexPropertyName : Option CStr

/-- The memory, the head of the list and the pairs of the calls that have succeeded, oldest
first. -/
structure Build where
  memory : Memory
  head : Option ℕ
  pairs : List (CStr × CStr)

def Build.start (m : Memory) : Build := ⟨m,none,[]⟩

def Call.pair (c : Call) : Option (CStr × CStr) :=
  c.cloudPropertyName.bind fun cloud => c.rexPropertyName.map fun rex => (cloud,rex)

def Call.run (s : Build) (c : Call) : Option (Memory × Option (Option ℕ) × Ret) :=
  protocolInsertList c.faults s.memory (some s.head) c.cloudPropertyName c.rexPropertyName

def Build.step (s : Build) (c : Call) : Option Build :=
  match c.run s with
  | some (m,some head,ret) => some ⟨m,head,if ret = .ok then s.pairs++c.pair.toList else s.pairs⟩
  | _ => none

/-- Both names have 1 to `PROTOCOL_MAX_PROPERTY_LEN` characters and no allocation fails. -/
def Deserves (c : Call) : Prop :=
  ∃ cloud rex, c.cloudPropertyName = some cloud ∧ c.rexPropertyName = some rex ∧
    (1 ≤ cloud.strlen ∧ (cloud.strlen : ℤ) ≤ protocolMaxPropertyLen) ∧
    (1 ≤ rex.strlen ∧ (rex.strlen : ℤ) ≤ protocolMaxPropertyLen) ∧
    c.faults.node = false ∧ c.faults.cloud = false ∧ c.faults.rex = false

/-- The call returns, with success exactly when it should, and one that fails leaves the list
and frees what it has allocated. -/
def CallOk (s : Build) (c : Call) : Prop :=
  ∃ m head ret, c.run s = some (m,some head,ret) ∧ (ret = .ok ↔ Deserves c) ∧
    (ret = .fail → head = s.head ∧ m.block = s.memory.block)

/-- The first stays first, the others follow newest first. -/
def order {α : Type*} : List α → List α
  | [] => []
  | a::l => a::l.reverse

def copy (s : CStr) : Bytes := s.bytes++[0]

def namesOf (e : Entry) : Bytes × Bytes := (e.cloudName,e.rexName)

/-- The list holds copies of the pairs in their order, in blocks of its own, and besides these
exactly the blocks of `m₀` are allocated, unchanged. -/
structure Holds (m₀ : Memory) (s : Build) (es : List Entry) : Prop where
  list : ListAt s.memory s.head es
  nodup : (blocksOf es).Nodup
  names : es.map namesOf = order (s.pairs.map fun p => (copy p.1,copy p.2))
  new : ∀ p ∈ blocksOf es, ¬ m₀.Live p
  live : ∀ p, s.memory.Live p ↔ m₀.Live p ∨ p ∈ blocksOf es
  kept : ∀ p, m₀.Live p → s.memory.block p = m₀.block p

def Built (m₀ : Memory) (s : Build) : Prop := ∃ es, Holds m₀ s es

/-- The calls are all answered as they should, and the list is right after each of them. -/
def BuildsExactly (m₀ : Memory) (calls : List Call) : Prop :=
  Meets Build.step CallOk (Build.start m₀) calls ∧
  ∀ pre t, pre <+: calls → exec Build.step (Build.start m₀) pre = some t → Built m₀ t

/-- A call that passes the checks on its `int` lengths has names that are no longer. -/
def Unwrapped (c : Call) : Prop :=
  ∀ cloud rex, c.cloudPropertyName = some cloud → c.rexPropertyName = some rex →
    Accepted c.faults cloud rex →
    (cloud.strlen : ℤ) ≤ protocolMaxPropertyLen ∧ (rex.strlen : ℤ) ≤ protocolMaxPropertyLen

section Names
variable {name : CStr}

theorem nameLen_short (h : (name.strlen : ℤ) ≤ protocolMaxPropertyLen) :
    nameLen name = name.strlen := by
  have hmax : protocolMaxPropertyLen = 30 := rfl
  exact toInt32_eq (by omega) (by omega)

theorem nameBuf_short (h : (name.strlen : ℤ) ≤ protocolMaxPropertyLen) : nameBuf name = copy name := by
  have hlen : (nameLen name).toNat = name.strlen := by
    rw [nameLen_short h]
    rfl
  rw [nameBuf,hlen,strncpy_replicate le_rfl (Nat.le_add_right _ 1),Nat.add_sub_cancel_left]
  rfl

theorem order_concat {α : Type*} (a b : α) (l : List α) :
    order ((a::l)++[b]) = a::b::l.reverse := by
  simp [order]

/-- Behind the first entry is where the order has the newest pair. -/
theorem insertEntry_order {es : List Entry} {e : Entry} {l : List (Bytes × Bytes)}
    (h : es.map namesOf = order l) : (insertEntry e es).map namesOf = order (l++[namesOf e]) := by
  cases l with
  | nil =>
    have hes : es = [] := List.map_eq_nil_iff.mp h
    rw [hes]
    rfl
  | cons a l =>
    cases es with
    | nil => cases h
    | cons first rest =>
      obtain ⟨hfirst,hrest⟩ := List.cons.inj h
      rw [order_concat,← hfirst,← hrest]
      rfl

end Names

section Steps
variable {m₀ : Memory} {s t : Build} {c : Call} {es : List Entry}

theorem deserves_iff {cloud rex : CStr} (hcloud : c.cloudPropertyName = some cloud)
    (hrex : c.rexPropertyName = some rex) : Deserves c ↔
    ((1 ≤ cloud.strlen ∧ (cloud.strlen : ℤ) ≤ protocolMaxPropertyLen) ∧
    (1 ≤ rex.strlen ∧ (rex.strlen : ℤ) ≤ protocolMaxPropertyLen) ∧
    c.faults.node = false ∧ c.faults.cloud = false ∧ c.faults.rex = false) := by
  constructor
  · rintro ⟨cloud',rex',hcloud',hrex',hall⟩
    obtain rfl : cloud = cloud' := Option.some.inj (hcloud.symm.trans hcloud')
    obtain rfl : rex = rex' := Option.some.inj (hrex.symm.trans hrex')
    exact hall
  · intro hall
    exact ⟨cloud,rex,hcloud,hrex,hall⟩

theorem accepted_of_deserves {cloud rex : CStr} (hcloud : c.cloudPropertyName = some cloud)
    (hrex : c.rexPropertyName = some rex) (h : Deserves c) : Accepted c.faults cloud rex := by
  obtain ⟨⟨hc,hc'⟩,⟨hr,hr'⟩,hfaults⟩ := (deserves_iff hcloud hrex).mp h
  refine ⟨?_,?_,hfaults⟩
  · rw [nameLen_short hc']
    omega
  · rw [nameLen_short hr']
    omega

theorem deserves_of_accepted {cloud rex : CStr} (hcloud : c.cloudPropertyName = some cloud)
    (hrex : c.rexPropertyName = some rex) (h : Accepted c.faults cloud rex) (hc : Unwrapped c) :
    Deserves c := by
  obtain ⟨hcmax,hrmax⟩ := hc cloud rex hcloud hrex h
  obtain ⟨⟨hclow,-⟩,⟨hrlow,-⟩,hfaults⟩ := h
  rw [nameLen_short hcmax] at hclow
  rw [nameLen_short hrmax] at hrlow
  exact (deserves_iff hcloud hrex).mpr ⟨⟨by omega,hcmax⟩,⟨by omega,hrmax⟩,hfaults⟩

theorem accepted_nextBlock {f : MallocFaults} {m m' : Memory} {head : Option ℕ}
    {listHead : Option (Option ℕ)} {cloud rex : CStr} {ret : Ret} (h : Accepted f cloud rex)
    (hcall : protocolInsertList f m (some head) (some cloud) (some rex) = some (m',listHead,ret)) :
    m'.nextBlock = m.nextBlock+3 := by
  obtain ⟨⟨hclow,hchigh⟩,⟨hrlow,hrhigh⟩,hfn,hfc,hfr⟩ := h
  have hlong : ¬ (nameLen cloud > protocolMaxPropertyLen ∨ nameLen rex > protocolMaxPropertyLen) := by
    omega
  have hshort : ¬ (nameLen cloud ≤ 0 ∨ nameLen rex ≤ 0) := by omega
  simp only [protocolInsertList,hlong,hshort,malloc,hfn,hfc,hfr,if_false,Bool.false_eq_true,
    Option.bind_eq_bind,Option.bind_eq_some_iff] at hcall
  obtain ⟨m₁,hstore,hcall⟩ := hcall
  have hfirst : m₁.nextBlock = m.nextBlock+3 := store_nextBlock hstore
  cases head with
  | none =>
    cases hcall
    exact hfirst
  | some first =>
    simp only [Option.bind_eq_some_iff] at hcall
    obtain ⟨n,-,m₂,hstore₂,m₃,hstore₃,hlast⟩ := hcall
    cases hlast
    rw [store_nextBlock hstore₃,store_nextBlock hstore₂,hfirst]

theorem Holds.accepted (h : Holds m₀ s es) {cloud rex : CStr} (hcloud : c.cloudPropertyName = some cloud)
    (hrex : c.rexPropertyName = some rex) (hacc : Accepted c.faults cloud rex) :
    ∃ m head, c.run s = some (m,some head,.ok) ∧
      ((cloud.strlen : ℤ) ≤ protocolMaxPropertyLen → (rex.strlen : ℤ) ≤ protocolMaxPropertyLen →
        Holds m₀ ⟨m,head,s.pairs++c.pair.toList⟩ (insertEntry (newEntryOf s.memory cloud rex) es)) := by
  obtain ⟨m,head,hcall,hlist,hkept⟩ := protocolInsertList_accepted hacc h.list h.nodup
  have hnext := accepted_nextBlock hacc hcall
  have hnew : ∀ p ∈ (newEntryOf s.memory cloud rex).blocks, ¬ s.memory.Live p := by
    intro p hp hlive
    have hlow := newEntryOf_blocks hp
    have hhigh := Heap.lt_of_live hlive
    omega
  have hsame : ∀ p, m₀.Live p → m.block p = s.memory.block p := by
    intro p hlive
    refine hkept p (Heap.lt_of_live ((h.live p).mpr (Or.inl hlive))) fun hhead => ?_
    exact h.new p (h.list.head_mem hhead) hlive
  refine ⟨m,head,by rw [Call.run,hcloud,hrex,hcall],fun hcmax hrmax => ⟨hlist,?_,?_,?_,?_,?_⟩⟩
  · rw [blocksOf,((insertEntry_perm _ _).flatMap_right Entry.blocks).nodup_iff,List.flatMap_cons]
    refine List.nodup_append.mpr ⟨by simp [Entry.blocks,newEntryOf],h.nodup,fun p hp q hq hpq => ?_⟩
    exact hnew p hp ((h.live p).mpr (Or.inr (hpq ▸ hq)))
  · have hnames : namesOf (newEntryOf s.memory cloud rex) = (copy cloud,copy rex) := by
      rw [namesOf,newEntryOf,nameBuf_short hcmax,nameBuf_short hrmax]
    have hpair : c.pair.toList = [(cloud,rex)] := by
      rw [Call.pair,hcloud,hrex]
      rfl
    rw [insertEntry_order h.names,hnames,hpair,List.map_append]
    rfl
  · intro p hp
    rcases mem_blocksOf_insertEntry.mp hp with hp | hp
    · exact fun hlive => hnew p hp ((h.live p).mpr (Or.inl hlive))
    · exact h.new p hp
  · intro p
    rw [mem_blocksOf_insertEntry]
    constructor
    · intro hlive
      have hlt := Heap.lt_of_live hlive
      by_cases hnewer : s.memory.nextBlock ≤ p
      · have hthree : p ∈ (newEntryOf s.memory cloud rex).blocks := by
          rw [mem_blocks]
          change p = s.memory.nextBlock+1 ∨ p = s.memory.nextBlock+2 ∨ p = s.memory.nextBlock
          change p < m.nextBlock at hlt
          omega
        exact Or.inr (Or.inl hthree)
      · by_cases hhead : some p = s.head
        · exact Or.inr (Or.inr (h.list.head_mem hhead))
        · obtain ⟨b,hb⟩ := hlive
          have hold := hkept p (Nat.not_le.mp hnewer) hhead
          rcases (h.live p).mp ⟨b,hold.symm.trans hb⟩ with hp | hp
          · exact Or.inl hp
          · exact Or.inr (Or.inr hp)
    · rintro (hp | hp)
      · obtain ⟨b,hb⟩ := (h.live p).mpr (Or.inl hp)
        exact ⟨b,(hsame p hp).trans hb⟩
      · obtain ⟨e,he,hpe⟩ := mem_blocksOf.mp (mem_blocksOf_insertEntry.mpr hp)
        exact (hlist.entries e he).live hpe
  · intro p hlive
    exact (hsame p hlive).trans (h.kept p hlive)

theorem Holds.same (h : Holds m₀ s es) {m : Memory} (hblock : m.block = s.memory.block) :
    Holds m₀ ⟨m,s.head,s.pairs⟩ es where
  list := h.list.congr fun p _ => congrFun hblock p
  nodup := h.nodup
  names := h.names
  new := h.new
  live := fun p => by
    rw [← h.live p,Heap.Live,Heap.Live,hblock]
  kept := fun p hp => (congrFun hblock p).trans (h.kept p hp)

theorem run_rejected (s : Build) (h : ∀ cloud rex, c.cloudPropertyName = some cloud →
    c.rexPropertyName = some rex → ¬ Accepted c.faults cloud rex) :
    ∃ m, c.run s = some (m,some s.head,.fail) ∧ m.block = s.memory.block := by
  rw [Call.run]
  cases hcloud : c.cloudPropertyName with
  | none => exact ⟨s.memory,protocolInsertList_null (Or.inl rfl),rfl⟩
  | some cloud =>
    cases hrex : c.rexPropertyName with
    | none => exact ⟨s.memory,protocolInsertList_null (Or.inr rfl),rfl⟩
    | some rex => exact protocolInsertList_rejected s.head (h cloud rex hcloud hrex)

theorem step_eq {m : Memory} {head : Option ℕ} {ret : Ret} (h : c.run s = some (m,some head,ret)) :
    s.step c = some ⟨m,head,if ret = .ok then s.pairs++c.pair.toList else s.pairs⟩ := by
  rw [Build.step]
  simp only [h]

/-- A call none of whose lengths wraps is answered as it should and keeps the list right. -/
theorem Built.step (h : Built m₀ s) (hc : Unwrapped c) :
    CallOk s c ∧ ∀ t, s.step c = some t → Built m₀ t := by
  obtain ⟨es,h⟩ := h
  by_cases hacc : ∃ cloud rex, c.cloudPropertyName = some cloud ∧ c.rexPropertyName = some rex ∧
      Accepted c.faults cloud rex
  · obtain ⟨cloud,rex,hcloud,hrex,hacc⟩ := hacc
    obtain ⟨m,head,hrun,hholds⟩ := h.accepted hcloud hrex hacc
    obtain ⟨hcmax,hrmax⟩ := hc cloud rex hcloud hrex hacc
    refine ⟨⟨m,head,.ok,hrun,?_,fun hfail => (by cases hfail)⟩,fun t ht => ?_⟩
    · exact iff_of_true rfl (deserves_of_accepted hcloud hrex hacc hc)
    · rw [step_eq hrun] at ht
      cases ht
      exact ⟨_,hholds hcmax hrmax⟩
  · have hrej : ∀ cloud rex, c.cloudPropertyName = some cloud → c.rexPropertyName = some rex →
        ¬ Accepted c.faults cloud rex := fun cloud rex hcloud hrex hyes =>
      hacc ⟨cloud,rex,hcloud,hrex,hyes⟩
    obtain ⟨m,hrun,hblock⟩ := run_rejected s hrej
    refine ⟨⟨m,s.head,.fail,hrun,?_,fun _ => ⟨rfl,hblock⟩⟩,fun t ht => ?_⟩
    · refine iff_of_false (by simp) ?_
      rintro ⟨cloud,rex,hcloud,hrex,hall⟩
      exact hrej cloud rex hcloud hrex
        (accepted_of_deserves hcloud hrex ⟨cloud,rex,hcloud,hrex,hall⟩)
    · rw [step_eq hrun] at ht
      cases ht
      exact ⟨es,h.same hblock⟩

theorem unwrapped_of_callOk (h : Built m₀ s) (hok : CallOk s c) : Unwrapped c := by
  obtain ⟨es,h⟩ := h
  intro cloud rex hcloud hrex hacc
  obtain ⟨m,head,hrun,-⟩ := h.accepted hcloud hrex hacc
  obtain ⟨m',head',ret,hrun',hiff,-⟩ := hok
  have hret : ret = .ok := by
    rw [hrun] at hrun'
    cases hrun'
    rfl
  obtain ⟨⟨-,hcmax⟩,⟨-,hrmax⟩,-⟩ := (deserves_iff hcloud hrex).mp (hiff.mp hret)
  exact ⟨hcmax,hrmax⟩

theorem start_built (m : Memory) : Built m (Build.start m) :=
  ⟨[],⟨rfl,by simp⟩,List.nodup_nil,rfl,by simp [blocksOf],fun p => by simp [blocksOf,Build.start],
    fun _ _ => rfl⟩

theorem meets_callOk_iff (h : Built m₀ s) (calls : List Call) :
    Meets Build.step CallOk s calls ↔ ∀ c ∈ calls, Unwrapped c := by
  induction calls generalizing s with
  | nil => simp [Meets]
  | cons c calls ih =>
    rw [List.forall_mem_cons]
    constructor
    · rintro ⟨hok,hrest⟩
      have hc := unwrapped_of_callOk h hok
      obtain ⟨m,head,ret,hrun,-⟩ := hok
      exact ⟨hc,(ih ((h.step hc).2 _ (step_eq hrun))).mp (hrest _ (step_eq hrun))⟩
    · rintro ⟨hc,hrest⟩
      exact ⟨(h.step hc).1,fun t ht => (ih ((h.step hc).2 t ht)).mpr hrest⟩

theorem exec_built (h : Built m₀ s) {calls : List Call} (hcalls : ∀ c ∈ calls, Unwrapped c)
    (ht : exec Build.step s calls = some t) : Built m₀ t := by
  induction calls generalizing s with
  | nil =>
    cases ht
    exact h
  | cons c calls ih =>
    obtain ⟨hc,hrest⟩ := List.forall_mem_cons.mp hcalls
    obtain ⟨u,hu,hexec⟩ := exec_cons.mp ht
    exact ih ((h.step hc).2 u hu) hrest hexec

end Steps

/-- The calls build what they should, losing and leaking nothing, exactly when no name has a
length that wraps into the bounds of a call whose allocations succeed. -/
theorem buildsExactly_iff (m₀ : Memory) (calls : List Call) :
    BuildsExactly m₀ calls ↔ ∀ c ∈ calls, Unwrapped c := by
  rw [BuildsExactly,meets_callOk_iff (start_built m₀)]
  refine and_iff_left_of_imp fun hcalls pre t hpre ht => ?_
  exact exec_built (start_built m₀) (fun c hc => hcalls c (hpre.subset hc)) ht

/-- A name whose length is 1 modulo `2^32`. -/
def hugeName : CStr := ⟨List.replicate (2^32+1) 97,fun h => by
  have hzero := List.eq_of_mem_replicate h
  exact absurd hzero (by decide)⟩

def hugeCall : Call := ⟨{},some hugeName,some ⟨[98],by decide⟩⟩

theorem nameLen_huge : nameLen hugeName = 1 := by
  have hlen : hugeName.strlen = 2^32+1 := List.length_replicate
  rw [nameLen,hlen]
  decide

/-- The name passes the check, and its copy is one byte long. -/
theorem huge_name_accepted : ¬ BuildsExactly emptyMemory [hugeCall] := by
  intro h
  have hcall : Unwrapped hugeCall :=
    (meets_callOk_iff (start_built emptyMemory) [hugeCall]).mp h.1 hugeCall (by simp)
  have hacc : Accepted {} hugeName ⟨[98],by decide⟩ := by
    refine ⟨?_,⟨by decide,by decide⟩,rfl,rfl,rfl⟩
    rw [nameLen_huge]
    decide
  have hmax := (hcall hugeName ⟨[98],by decide⟩ rfl rfl hacc).1
  have hlen : hugeName.strlen = 2^32+1 := List.length_replicate
  have hthirty : protocolMaxPropertyLen = 30 := rfl
  rw [hlen] at hmax
  omega

end ProtocolBuild
end IotBase
