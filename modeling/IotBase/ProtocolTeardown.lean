import IotBase.ProtocolConvert
import IotBase.LabelledRun
import Mathlib.Data.List.Pairwise

/-! What `protocol_insert_list` builds and what `protocol_destroy` takes down. A list is its
entries, each of three blocks of its own; the blocks of all lists of a context are distinct. -/
namespace IotBase
namespace ProtocolTeardown
open RawBytes CString BlockHeap ProtocolConvert LabelledRun

structure Entry where
  node : ℕ
  cloud : ℕ
  rex : ℕ
  cloudName : Bytes
  rexName : Bytes

def Entry.blocks (e : Entry) : List ℕ := [e.cloud,e.rex,e.node]

def blocksOf (es : List Entry) : List ℕ := es.flatMap Entry.blocks

/-- The lists in the order in which a destructor that walked all of them would do it. -/
def allLists : List PropertyList := [.light,.electricPower,.environment,.security,.misc]

def allBlocks (es : PropertyList → List Entry) : List ℕ := allLists.flatMap fun l => blocksOf (es l)

structure EntryAt (m : Memory) (e : Entry) : Prop where
  cloud : m.block e.cloud = some (.chars e.cloudName)
  rex : m.block e.rex = some (.chars e.rexName)
  node : ∃ next, m.block e.node = some (.node ⟨some e.cloud,some e.rex,next⟩)

structure ListAt (m : Memory) (head : Option ℕ) (es : List Entry) : Prop where
  chain : Chain PropertyEntryNode.next (nodeAt m) head (es.map Entry.node)
  entries : ∀ e ∈ es, EntryAt m e

structure Inv (m : Memory) (c : Context) (es : PropertyList → List Entry) : Prop where
  lists : ∀ l, ListAt m (c.head l) (es l)
  nodup : (allBlocks es).Nodup

/-- A block of the context: a node that can be reached from one of the five heads, or one of
its names. -/
def Owned (m : Memory) (c : Context) (p : ℕ) : Prop :=
  ∃ l ps q n, Chain PropertyEntryNode.next (nodeAt m) (c.head l) ps ∧ q ∈ ps ∧ nodeAt m q = some n ∧
    (p = q ∨ n.pCloudPropertyName = some p ∨ n.pRexDevicePropertyName = some p)

/-- Every block of the context has been freed once, nothing else has, and the heads are NULL. -/
structure TornDown (m : Memory) (c : Context) (m' : Memory) (c' : Context) : Prop where
  heads : ∀ l, c'.head l = none
  freed : ∃ ps, Frees m ps m' ∧ ps.Nodup ∧ ∀ p, p ∈ ps ↔ Owned m c p

/-- `protocol_destroy` returns, tears everything down, and does nothing when called again. -/
def TeardownComplete (m : Memory) (c : Context) : Prop :=
  ∃ m' c' bound, (∀ fuel ≥ bound, protocolDestroy fuel m (some c) = some (m',some c')) ∧
    TornDown m c m' c' ∧ ∀ fuel, protocolDestroy fuel m' (some c') = some (m',some c')

structure Insertion where
  list : PropertyList
  faults : MallocFaults
  cloudPropertyName : Option CStr
  rexPropertyName : Option CStr

def insert (s : Memory × Context) (i : Insertion) : Option (Memory × Context) :=
  match protocolInsertList i.faults s.1 (some (s.2.head i.list)) i.cloudPropertyName
    i.rexPropertyName with
  | some (m,some head,_) => some (m,s.2.setHead head i.list)
  | _ => none

section Blocks

variable {m m' : Memory} {p : ℕ} {e : Entry} {es : List Entry} {head : Option ℕ}

theorem nodeAt_of_block {n : PropertyEntryNode} (h : m.block p = some (.node n)) :
    nodeAt m p = some n := by
  rw [nodeAt,h]
  rfl

theorem nodeAt_congr (h : m'.block p = m.block p) : nodeAt m' p = nodeAt m p := by
  rw [nodeAt,nodeAt,h]

theorem mem_blocks : p ∈ e.blocks ↔ p = e.cloud ∨ p = e.rex ∨ p = e.node := by
  simp [Entry.blocks]

theorem mem_blocksOf : p ∈ blocksOf es ↔ ∃ e ∈ es, p ∈ e.blocks := List.mem_flatMap

theorem EntryAt.live (h : EntryAt m e) (hp : p ∈ e.blocks) : m.Live p := by
  obtain ⟨hcloud,hrex,next,hnode⟩ := h
  rcases mem_blocks.mp hp with rfl | rfl | rfl
  · exact ⟨_,hcloud⟩
  · exact ⟨_,hrex⟩
  · exact ⟨_,hnode⟩

theorem ListAt.lt (h : ListAt m head es) (hp : p ∈ blocksOf es) : p < m.nextBlock := by
  obtain ⟨e,he,hpe⟩ := mem_blocksOf.mp hp
  exact Heap.lt_of_live ((h.entries e he).live hpe)

theorem EntryAt.congr (h : EntryAt m e) (hsame : ∀ p ∈ e.blocks, m'.block p = m.block p) :
    EntryAt m' e := by
  obtain ⟨hcloud,hrex,next,hnode⟩ := h
  refine ⟨?_,?_,next,?_⟩
  · rw [hsame _ (mem_blocks.mpr (Or.inl rfl)),hcloud]
  · rw [hsame _ (mem_blocks.mpr (Or.inr (Or.inl rfl))),hrex]
  · rw [hsame _ (mem_blocks.mpr (Or.inr (Or.inr rfl))),hnode]

theorem ListAt.eq_nil (h : ListAt m none es) : es = [] := by
  cases es with
  | nil => rfl
  | cons e es => cases h.chain.1

theorem ListAt.congr (h : ListAt m head es) (hsame : ∀ p ∈ blocksOf es, m'.block p = m.block p) :
    ListAt m' head es where
  chain := h.chain.congr fun p hp => by
    obtain ⟨e,he,rfl⟩ := List.mem_map.mp hp
    exact nodeAt_congr (hsame _ (mem_blocksOf.mpr ⟨e,he,mem_blocks.mpr (Or.inr (Or.inr rfl))⟩))
  entries := fun e he => (h.entries e he).congr fun p hp => hsame p (mem_blocksOf.mpr ⟨e,he,hp⟩)

end Blocks

section Destroy

variable {m : Memory} {e : Entry} {es : List Entry} {head : Option ℕ}

theorem safeFreeName_eq {p q : ℕ} {n : PropertyEntryNode} (name : Name)
    (hn : m.block p = some (.node n)) (hname : n.name name = some q) (hq : m.Live q) (hpq : p ≠ q) :
    ∃ m', safeFreeName m p name = some m' ∧ m'.nextBlock = m.nextBlock ∧ m'.freed = q::m.freed ∧
      m'.block = Function.update (Function.update m.block q none) p
        (some (.node (n.dropName name))) := by
  obtain ⟨m₁,hfree,hblock₁,hnext₁,hfreed₁⟩ := free_live hq
  have hlive : m₁.Live p := ⟨_,by rw [hblock₁,Function.update_of_ne hpq,hn]⟩
  obtain ⟨m₂,hstore,hblock₂,hnext₂,hfreed₂⟩ := store_live hlive (.node (n.dropName name))
  refine ⟨m₂,?_,hnext₂.trans hnext₁,hfreed₂.trans hfreed₁,by rw [hblock₂,hblock₁]⟩
  simp [safeFreeName,nodeAt_of_block hn,hname,hfree,hstore]

theorem destroyNode_spec (h : EntryAt m e) (hn : e.blocks.Nodup) :
    ∃ m' n, nodeAt m e.node = some n ∧ destroyNode m e.node = some (m',n.next) ∧
      Frees m e.blocks m' := by
  obtain ⟨hcloud,hrex,next,hnode⟩ := h
  simp only [Entry.blocks,List.nodup_cons,List.mem_cons,List.not_mem_nil,or_false,not_or] at hn
  obtain ⟨⟨hcr,hcn⟩,hrn,-⟩ := hn
  obtain ⟨m₁,hstep₁,hnext₁,hfreed₁,hblock₁⟩ :=
    safeFreeName_eq .cloud hnode rfl ⟨_,hcloud⟩ (Ne.symm hcn)
  have hnode₁ : m₁.block e.node = some (.node ⟨none,some e.rex,next⟩) := by
    rw [hblock₁,Function.update_self]
    rfl
  have hrex₁ : m₁.Live e.rex :=
    ⟨_,by rw [hblock₁,Function.update_of_ne hrn,Function.update_of_ne (Ne.symm hcr),hrex]⟩
  obtain ⟨m₂,hstep₂,hnext₂,hfreed₂,hblock₂⟩ :=
    safeFreeName_eq .rex hnode₁ rfl hrex₁ (Ne.symm hrn)
  have hlive : m₂.Live e.node := ⟨_,by rw [hblock₂,Function.update_self]⟩
  obtain ⟨m₃,hstep₃,hblock₃,hnext₃,hfreed₃⟩ := free_live hlive
  refine ⟨m₃,_,nodeAt_of_block hnode,?_,?_⟩
  · simp [destroyNode,nodeAt_of_block hnode,hstep₁,hstep₂,hstep₃]
  · refine ⟨by rw [hnext₃,hnext₂,hnext₁],by rw [hfreed₃,hfreed₂,hfreed₁]; rfl,?_,?_⟩
    · intro p hp
      rw [hblock₃,hblock₂,hblock₁]
      rcases mem_blocks.mp hp with rfl | rfl | rfl
      · rw [Function.update_of_ne hcn,Function.update_of_ne hcn,Function.update_of_ne hcr,
          Function.update_of_ne hcn,Function.update_self]
      · rw [Function.update_of_ne hrn,Function.update_of_ne hrn,Function.update_self]
      · rw [Function.update_self]
    · intro p hp
      rw [mem_blocks,not_or,not_or] at hp
      obtain ⟨hpc,hpr,hpn⟩ := hp
      rw [hblock₃,hblock₂,hblock₁,Function.update_of_ne hpn,Function.update_of_ne hpn,
        Function.update_of_ne hpr,Function.update_of_ne hpn,Function.update_of_ne hpc]

/-- The loop returns and frees the blocks of the whole list, each once. -/
theorem destroyLoop_spec (h : ListAt m head es) (hn : (blocksOf es).Nodup) :
    ∃ m', (∀ fuel ≥ es.length, destroyLoop fuel m head = some m') ∧ Frees m (blocksOf es) m' := by
  induction es generalizing m head with
  | nil =>
    obtain rfl : head = none := h.chain
    exact ⟨m,fun fuel _ => by cases fuel <;> rfl,.nil m⟩
  | cons e es ih =>
    have hsplit : blocksOf (e::es) = e.blocks++blocksOf es := rfl
    rw [hsplit] at hn ⊢
    obtain ⟨hne,hnes,hdisj⟩ := List.nodup_append.mp hn
    obtain ⟨rfl,n,hcell,hrest⟩ := h.chain
    obtain ⟨m₁,n',hn',hbody,hfrees⟩ := destroyNode_spec (h.entries e List.mem_cons_self) hne
    obtain rfl : n = n' := Option.some.inj (hcell.symm.trans hn')
    have htail : ListAt m₁ n.next es := by
      refine ListAt.congr ⟨hrest,fun e' he' => h.entries e' (List.mem_cons_of_mem _ he')⟩ ?_
      exact fun p hp => hfrees.kept p fun hpe => hdisj p hpe p hp rfl
    obtain ⟨m',hloop,hfrees'⟩ := ih htail hnes
    refine ⟨m',fun fuel hfuel => ?_,hfrees.append hfrees'⟩
    obtain ⟨k,rfl⟩ : ∃ k, fuel = k+1 := ⟨fuel-1,by rw [List.length_cons] at hfuel; omega⟩
    have hk := hloop k (by rw [List.length_cons] at hfuel; omega)
    simp [destroyLoop,hbody,hk]

end Destroy

section Context

variable {m : Memory} {c : Context} {es : PropertyList → List Entry}

theorem mem_allBlocks {p : ℕ} : p ∈ allBlocks es ↔ ∃ l, p ∈ blocksOf (es l) := by
  rw [allBlocks,List.mem_flatMap]
  constructor
  · rintro ⟨l,-,hp⟩
    exact ⟨l,hp⟩
  · rintro ⟨l,hp⟩
    exact ⟨l,by cases l <;> simp [allLists],hp⟩

theorem Inv.owned_iff (h : Inv m c es) (p : ℕ) : Owned m c p ↔ p ∈ allBlocks es := by
  rw [mem_allBlocks]
  constructor
  · rintro ⟨l,ps,q,n,hchain,hq,hn,hp⟩
    obtain rfl := hchain.unique (h.lists l).chain
    obtain ⟨e,he,rfl⟩ := List.mem_map.mp hq
    obtain ⟨next,hnode⟩ := ((h.lists l).entries e he).node
    obtain rfl := Option.some.inj ((nodeAt_of_block hnode).symm.trans hn)
    refine ⟨l,mem_blocksOf.mpr ⟨e,he,mem_blocks.mpr ?_⟩⟩
    rcases hp with hp | hp | hp
    · exact Or.inr (Or.inr hp)
    · exact Or.inl (Option.some.inj hp).symm
    · exact Or.inr (Or.inl (Option.some.inj hp).symm)
  · rintro ⟨l,hp⟩
    obtain ⟨e,he,hpe⟩ := mem_blocksOf.mp hp
    obtain ⟨next,hnode⟩ := ((h.lists l).entries e he).node
    refine ⟨l,_,e.node,_,(h.lists l).chain,List.mem_map_of_mem he,nodeAt_of_block hnode,?_⟩
    rcases mem_blocks.mp hpe with rfl | rfl | rfl
    · exact Or.inr (Or.inl rfl)
    · exact Or.inr (Or.inr rfl)
    · exact Or.inl rfl

/-- The destructor frees the blocks of three lists and leaves two heads. -/
theorem protocolDestroy_spec (h : Inv m c es) : ∃ m' bound,
    (∀ fuel ≥ bound, protocolDestroy fuel m (some c) = some (m',some
      ⟨none,none,none,c.securityPropertyListHead,c.miscPropertyListHead⟩)) ∧
    Frees m (blocksOf (es .light)++blocksOf (es .electricPower)++blocksOf (es .environment)) m' := by
  have hnodup := h.nodup
  simp only [allBlocks,allLists,List.flatMap_cons,List.nodup_append] at hnodup
  obtain ⟨hlight,⟨hpower,⟨henv,-,-⟩,hpe⟩,hle⟩ := hnodup
  obtain ⟨m₁,hloop₁,hfrees₁⟩ := destroyLoop_spec (h.lists .light) hlight
  have hat₁ : ListAt m₁ c.electricPowerPropertyListHead (es .electricPower) :=
    (h.lists .electricPower).congr fun p hp => hfrees₁.kept p fun hl =>
      hle p hl p (List.mem_append_left _ hp) rfl
  obtain ⟨m₂,hloop₂,hfrees₂⟩ := destroyLoop_spec hat₁ hpower
  have hfrees := hfrees₁.append hfrees₂
  have hat₂ : ListAt m₂ c.environmentPropertyListHead (es .environment) :=
    (h.lists .environment).congr fun p hp => hfrees.kept p fun hin => by
      rcases List.mem_append.mp hin with hl | hl
      · exact hle p hl p (List.mem_append_right _ (List.mem_append_left _ hp)) rfl
      · exact hpe p hl p (List.mem_append_left _ hp) rfl
  obtain ⟨m₃,hloop₃,hfrees₃⟩ := destroyLoop_spec hat₂ henv
  refine ⟨m₃,(es .light).length+(es .electricPower).length+(es .environment).length,
    fun fuel hfuel => ?_,hfrees.append hfrees₃⟩
  have h₁ : destroyLoop fuel m c.lightPropertyListHead = some m₁ := hloop₁ fuel (by omega)
  have h₂ := hloop₂ fuel (by omega)
  have h₃ := hloop₃ fuel (by omega)
  simp [protocolDestroy,h₁,h₂,h₃]

/-- Teardown is complete exactly when the two lists that the destructor does not walk are empty. -/
theorem Inv.complete_iff (h : Inv m c es) : TeardownComplete m c ↔
    c.securityPropertyListHead = none ∧ c.miscPropertyListHead = none := by
  obtain ⟨m₁,bound₁,hdestroy,hfrees⟩ := protocolDestroy_spec h
  constructor
  · rintro ⟨m',c',bound,hreturns,⟨hheads,-⟩,-⟩
    have hboth := (hdestroy (max bound bound₁) (le_max_right _ _)).symm.trans
      (hreturns (max bound bound₁) (le_max_left _ _))
    simp only [Option.some.injEq,Prod.mk.injEq] at hboth
    obtain ⟨-,rfl⟩ := hboth
    exact ⟨hheads .security,hheads .misc⟩
  · rintro ⟨hsecurity,hmisc⟩
    rw [hsecurity,hmisc] at hdestroy
    have hnone : es .security = [] := (hsecurity ▸ h.lists .security : ListAt m none _).eq_nil
    have hnone' : es .misc = [] := (hmisc ▸ h.lists .misc : ListAt m none _).eq_nil
    have hall : allBlocks es = blocksOf (es .light)++blocksOf (es .electricPower)++
        blocksOf (es .environment) := by
      simp [allBlocks,allLists,hnone,hnone',blocksOf]
    refine ⟨m₁,_,bound₁,hdestroy,⟨fun l => by cases l <;> rfl,_,hfrees,hall ▸ h.nodup,fun p => ?_⟩,
      fun fuel => ?_⟩
    · rw [h.owned_iff,hall]
    · cases fuel <;> rfl

end Context

section Insertion

/-- The entries after an accepted insertion: the new one goes behind the first. -/
def insertEntry (e : Entry) : List Entry → List Entry
  | [] => [e]
  | first::rest => first::e::rest

/-- What is accepted: names of 1 to 30 characters and three allocations. -/
def Accepted (f : MallocFaults) (cloud rex : CStr) : Prop :=
  (0 < nameLen cloud ∧ nameLen cloud ≤ protocolMaxPropertyLen) ∧
  (0 < nameLen rex ∧ nameLen rex ≤ protocolMaxPropertyLen) ∧
  f.node = false ∧ f.cloud = false ∧ f.rex = false

def newEntryOf (m : Memory) (cloud rex : CStr) : Entry :=
  ⟨m.nextBlock,m.nextBlock+1,m.nextBlock+2,nameBuf cloud,nameBuf rex⟩

variable {f : MallocFaults} {m : Memory} {head : Option ℕ} {es : List Entry} {cloud rex : CStr}

theorem protocolInsertList_rejected (head : Option ℕ) (h : ¬ Accepted f cloud rex) :
    ∃ m', protocolInsertList f m (some head) (some cloud) (some rex) = some (m',some head,.fail) ∧
      m'.block = m.block := by
  simp only [protocolInsertList]
  by_cases hlong : nameLen cloud > protocolMaxPropertyLen ∨ nameLen rex > protocolMaxPropertyLen
  · rw [if_pos hlong]
    exact ⟨m,rfl,rfl⟩
  rw [if_neg hlong]
  by_cases hshort : nameLen cloud ≤ 0 ∨ nameLen rex ≤ 0
  · rw [if_pos hshort]
    exact ⟨m,rfl,rfl⟩
  rw [if_neg hshort]
  cases hnode : f.node with
  | true => exact ⟨m,by simp [malloc],rfl⟩
  | false =>
    have hnode₁ : (m.malloc (.node ⟨none,none,none⟩)).1.Live m.nextBlock :=
      ⟨_,by rw [malloc_block,Function.update_self]⟩
    cases hcloud : f.cloud with
    | true =>
      obtain ⟨m₁,hfree,hblock,-,-⟩ := free_live hnode₁
      refine ⟨m₁,by simp [malloc,hfree],?_⟩
      rw [hblock,malloc_block,Function.update_idem,Function.update_eq_self_iff,m.fresh _ le_rfl]
    | false =>
      cases hrex : f.rex with
      | true =>
        generalize hm₂ : ((m.malloc (.node ⟨none,none,none⟩)).1.malloc (.chars (nameBuf cloud))).1 = m₂
        have hblock₂ : m₂.block = Function.update (Function.update m.block m.nextBlock
            (some (.node ⟨none,none,none⟩))) (m.nextBlock+1) (some (.chars (nameBuf cloud))) := by
          rw [← hm₂]
          rfl
        have hlive₂ : m₂.Live m.nextBlock :=
          ⟨_,by rw [hblock₂,Function.update_of_ne (by omega),Function.update_self]⟩
        obtain ⟨m₃,hfree₃,hblock₃,-,-⟩ := free_live hlive₂
        have hlive₃ : m₃.Live (m.nextBlock+1) :=
          ⟨_,by rw [hblock₃,Function.update_of_ne (by omega),hblock₂,Function.update_self]⟩
        obtain ⟨m₄,hfree₄,hblock₄,-,-⟩ := free_live hlive₃
        refine ⟨m₄,by simp [malloc,hm₂,hfree₃,hfree₄],?_⟩
        funext p
        rw [hblock₄,hblock₃,hblock₂]
        by_cases hp : p = m.nextBlock
        · rw [hp,Function.update_of_ne (by omega),Function.update_self,m.fresh _ le_rfl]
        · by_cases hp' : p = m.nextBlock+1
          · rw [hp',Function.update_self,m.fresh _ (by omega)]
          · rw [Function.update_of_ne hp',Function.update_of_ne hp,Function.update_of_ne hp',
              Function.update_of_ne hp]
      | false =>
        refine absurd ⟨⟨?_,?_⟩,⟨?_,?_⟩,hnode,hcloud,hrex⟩ h
        all_goals omega

theorem three_mallocs (m : Memory) (cloud rex : CStr) : ∃ m₃ m₄ : Memory,
    (((m.malloc (.node ⟨none,none,none⟩)).1.malloc (.chars (nameBuf cloud))).1.malloc
      (.chars (nameBuf rex))).1 = m₃ ∧
    m₃.store m.nextBlock (.node ⟨some (m.nextBlock+1),some (m.nextBlock+2),none⟩) = some m₄ ∧
    m₄.block m.nextBlock = some (.node ⟨some (m.nextBlock+1),some (m.nextBlock+2),none⟩) ∧
    m₄.block (m.nextBlock+1) = some (.chars (nameBuf cloud)) ∧
    m₄.block (m.nextBlock+2) = some (.chars (nameBuf rex)) ∧
    ∀ p < m.nextBlock, m₄.block p = m.block p := by
  generalize hm₃ : (((m.malloc (.node ⟨none,none,none⟩)).1.malloc (.chars (nameBuf cloud))).1.malloc
    (.chars (nameBuf rex))).1 = m₃
  have hblock₃ : m₃.block = Function.update (Function.update (Function.update m.block m.nextBlock
      (some (.node ⟨none,none,none⟩))) (m.nextBlock+1) (some (.chars (nameBuf cloud))))
      (m.nextBlock+2) (some (.chars (nameBuf rex))) := by
    rw [← hm₃]
    rfl
  have hlive : m₃.Live m.nextBlock :=
    ⟨_,by rw [hblock₃,Function.update_of_ne (by omega),Function.update_of_ne (by omega),
      Function.update_self]⟩
  obtain ⟨m₄,hstore,hblock₄,-,-⟩ :=
    store_live hlive (.node ⟨some (m.nextBlock+1),some (m.nextBlock+2),none⟩)
  refine ⟨m₃,m₄,rfl,hstore,?_,?_,?_,fun p hp => ?_⟩
  · rw [hblock₄,Function.update_self]
  · rw [hblock₄,Function.update_of_ne (by omega),hblock₃,Function.update_of_ne (by omega),
      Function.update_self]
  · rw [hblock₄,Function.update_of_ne (by omega),hblock₃,Function.update_self]
  · rw [hblock₄,Function.update_of_ne (by omega),hblock₃,Function.update_of_ne (by omega),
      Function.update_of_ne (by omega),Function.update_of_ne (by omega)]

theorem protocolInsertList_accepted (h : Accepted f cloud rex) (hl : ListAt m head es)
    (hn : (blocksOf es).Nodup) : ∃ m' head',
      protocolInsertList f m (some head) (some cloud) (some rex) = some (m',some head',.ok) ∧
      ListAt m' head' (insertEntry (newEntryOf m cloud rex) es) ∧
      ∀ p < m.nextBlock, some p ≠ head → m'.block p = m.block p := by
  obtain ⟨⟨hclow,hchigh⟩,⟨hrlow,hrhigh⟩,hfn,hfc,hfr⟩ := h
  obtain ⟨m₃,m₄,hm₃,hstore,hnode,hcloud,hrex,hold⟩ := three_mallocs m cloud rex
  have hlong : ¬ (nameLen cloud > protocolMaxPropertyLen ∨ nameLen rex > protocolMaxPropertyLen) := by
    omega
  have hshort : ¬ (nameLen cloud ≤ 0 ∨ nameLen rex ≤ 0) := by omega
  cases es with
  | nil =>
    obtain rfl : head = none := hl.chain
    refine ⟨m₄,some m.nextBlock,?_,⟨.singleton (nodeAt_of_block hnode) rfl,?_⟩,fun p hp _ => hold p hp⟩
    · simp [protocolInsertList,hlong,hshort,malloc,hfn,hfc,hfr,hm₃,hstore]
    · intro e he
      obtain rfl := List.mem_singleton.mp he
      exact ⟨hcloud,hrex,none,hnode⟩
  | cons first rest =>
    obtain rfl : head = some first.node := hl.chain.1
    obtain ⟨hne,-,hdisj⟩ := List.nodup_append.mp (show (first.blocks++blocksOf rest).Nodup from hn)
    simp only [Entry.blocks,List.nodup_cons,List.mem_cons,List.not_mem_nil,or_false,not_or] at hne
    have hlt : ∀ p ∈ blocksOf (first::rest), p < m.nextBlock := fun p hp => hl.lt hp
    have hlast : first.node ∈ first.blocks := mem_blocks.mpr (Or.inr (Or.inr rfl))
    have hmem : ∀ p ∈ first.blocks, p ∈ blocksOf (first::rest) := fun p hp =>
      mem_blocksOf.mpr ⟨first,List.mem_cons_self,hp⟩
    have hmem' : ∀ p ∈ blocksOf rest, p ∈ blocksOf (first::rest) := fun p hp =>
      List.mem_append_right _ hp
    have hfirst := hlt _ (hmem _ hlast)
    obtain ⟨hfcloud,hfrex,next,hfnode⟩ := hl.entries first List.mem_cons_self
    obtain ⟨m₅,m₆,hstore₅,hstore₆,hnode₆,hfnode₆,hother⟩ :=
      store_store_live ⟨_,hnode⟩ ⟨_,(hold _ hfirst).trans hfnode⟩ hfirst.ne
        (.node ⟨some (m.nextBlock+1),some (m.nextBlock+2),next⟩)
        (.node ⟨some first.cloud,some first.rex,some m.nextBlock⟩)
    have hkept : ∀ p < m.nextBlock, p ≠ first.node → m₆.block p = m.block p := fun p hp hpf =>
      (hother p hpf hp.ne).trans (hold p hp)
    have hrest : ∀ p ∈ blocksOf rest, m₆.block p = m.block p := fun p hp =>
      hkept p (hlt p (hmem' p hp)) fun he => hdisj _ hlast p hp he.symm
    refine ⟨m₆,some first.node,?_,⟨?_,?_⟩,fun p hp hpf => hkept p hp fun he => hpf (he ▸ rfl)⟩
    · have hcell : nodeAt m₄ first.node = some ⟨some first.cloud,some first.rex,next⟩ := by
        rw [nodeAt_congr (hold _ hfirst)]
        exact nodeAt_of_block hfnode
      simp [protocolInsertList,hlong,hshort,malloc,hfn,hfc,hfr,hm₃,hstore,hcell,hstore₅,hstore₆]
    · refine hl.chain.insert (nodeAt_of_block hfnode) (nodeAt_of_block hnode₆) rfl
        (nodeAt_of_block hfnode₆) rfl fun p hp => nodeAt_congr (hrest p ?_)
      obtain ⟨e,he,rfl⟩ := List.mem_map.mp hp
      exact mem_blocksOf.mpr ⟨e,he,mem_blocks.mpr (Or.inr (Or.inr rfl))⟩
    · intro e he
      rcases List.mem_cons.mp he with rfl | he
      · refine ⟨?_,?_,_,hfnode₆⟩
        · rw [hkept _ (hlt _ (hmem _ (mem_blocks.mpr (Or.inl rfl)))) hne.1.2,hfcloud]
        · rw [hkept _ (hlt _ (hmem _ (mem_blocks.mpr (Or.inr (Or.inl rfl))))) hne.2.1,hfrex]
      rcases List.mem_cons.mp he with rfl | he
      · refine ⟨?_,?_,_,hnode₆⟩
        · exact (hother _ (by simp only [newEntryOf]; omega) (by simp [newEntryOf])).trans hcloud
        · exact (hother _ (by simp only [newEntryOf]; omega) (by simp [newEntryOf])).trans hrex
      · exact (hl.entries e (List.mem_cons_of_mem _ he)).congr fun p hp =>
          hrest p (mem_blocksOf.mpr ⟨e,he,hp⟩)

end Insertion

section Run

variable {m : Memory} {c : Context} {es : PropertyList → List Entry}

@[simp] theorem setHead_self (c : Context) (l : PropertyList) : c.setHead (c.head l) l = c := by
  cases l <;> rfl

theorem head_setHead (c : Context) (head : Option ℕ) (l l' : PropertyList) :
    (c.setHead head l).head l' = if l' = l then head else c.head l' := by
  cases l <;> cases l' <;> rfl

theorem allBlocks_nodup_iff : (allBlocks es).Nodup ↔ (∀ l, (blocksOf (es l)).Nodup) ∧
    ∀ l l', l ≠ l' → ∀ p ∈ blocksOf (es l), p ∉ blocksOf (es l') := by
  have hin : ∀ l, l ∈ allLists := fun l => by cases l <;> simp [allLists]
  have hnodup : allLists.Nodup := by decide
  rw [allBlocks,List.nodup_flatMap]
  constructor
  · rintro ⟨heach,hpair⟩
    refine ⟨fun l => heach l (hin l),fun l l' hne p hp hp' => ?_⟩
    have hsymm : Std.Symm (Function.onFun List.Disjoint fun l => blocksOf (es l)) :=
      ⟨fun _ _ hd => hd.symm⟩
    exact hpair.forall (hin l) (hin l') hne hp hp'
  · rintro ⟨heach,hdisj⟩
    refine ⟨fun l _ => heach l,hnodup.imp_of_mem fun {l l'} _ _ hne => ?_⟩
    exact fun p hp hp' => hdisj l l' hne p hp hp'

theorem insertEntry_perm (e : Entry) (es : List Entry) : (insertEntry e es).Perm (e::es) := by
  cases es with
  | nil => exact .refl _
  | cons first rest => exact .swap _ _ _

theorem mem_blocksOf_insertEntry {e : Entry} {es : List Entry} {p : ℕ} :
    p ∈ blocksOf (insertEntry e es) ↔ p ∈ e.blocks ∨ p ∈ blocksOf es := by
  rw [blocksOf,((insertEntry_perm e es).flatMap_right Entry.blocks).mem_iff,List.flatMap_cons,
    List.mem_append]
  rfl

theorem newEntryOf_blocks {cloud rex : CStr} {p : ℕ} (h : p ∈ (newEntryOf m cloud rex).blocks) :
    m.nextBlock ≤ p := by
  rcases mem_blocks.mp h with rfl | rfl | rfl
  · exact Nat.le_add_right _ _
  · exact Nat.le_add_right _ _
  · exact le_rfl

theorem ListAt.head_mem {head : Option ℕ} {es : List Entry} (h : ListAt m head es) {p : ℕ}
    (hp : some p = head) : p ∈ blocksOf es := by
  cases es with
  | nil => cases hp.trans h.chain
  | cons first rest =>
    have hpf : p = first.node := Option.some.inj (hp.trans h.chain.1)
    rw [hpf]
    exact mem_blocksOf.mpr ⟨first,List.mem_cons_self,mem_blocks.mpr (Or.inr (Or.inr rfl))⟩

theorem allBlocks_insertEntry (h : (allBlocks es).Nodup) (l : PropertyList) {e : Entry}
    (he : e.blocks.Nodup) (hnew : ∀ l' p, p ∈ e.blocks → p ∉ blocksOf (es l')) :
    (allBlocks (Function.update es l (insertEntry e (es l)))).Nodup := by
  obtain ⟨heach,hdisj⟩ := allBlocks_nodup_iff.mp h
  refine allBlocks_nodup_iff.mpr ⟨fun l' => ?_,fun l₁ l₂ hne p hp hp' => ?_⟩
  · by_cases hl : l' = l
    · subst hl
      rw [Function.update_self,blocksOf,
        ((insertEntry_perm _ _).flatMap_right Entry.blocks).nodup_iff,List.flatMap_cons]
      exact List.nodup_append.mpr ⟨he,heach l',fun p hp q hq hpq => hnew l' p hp (hpq ▸ hq)⟩
    · rw [Function.update_of_ne hl]
      exact heach l'
  · by_cases h₁ : l₁ = l
    · subst h₁
      rw [Function.update_self,mem_blocksOf_insertEntry] at hp
      rw [Function.update_of_ne (Ne.symm hne)] at hp'
      rcases hp with hp | hp
      · exact hnew l₂ p hp hp'
      · exact hdisj l₁ l₂ hne p hp hp'
    · rw [Function.update_of_ne h₁] at hp
      by_cases h₂ : l₂ = l
      · subst h₂
        rw [Function.update_self,mem_blocksOf_insertEntry] at hp'
        rcases hp' with hp' | hp'
        · exact hnew l₁ p hp' hp
        · exact hdisj l₁ l₂ hne p hp hp'
      · rw [Function.update_of_ne h₂] at hp'
        exact hdisj l₁ l₂ hne p hp hp'

theorem Inv.accepted (h : Inv m c es) (l : PropertyList) {f : MallocFaults} {cloud rex : CStr}
    (hacc : Accepted f cloud rex) : ∃ m' head',
    protocolInsertList f m (some (c.head l)) (some cloud) (some rex) = some (m',some head',.ok) ∧
    Inv m' (c.setHead head' l)
      (Function.update es l (insertEntry (newEntryOf m cloud rex) (es l))) := by
  obtain ⟨heach,hdisj⟩ := allBlocks_nodup_iff.mp h.nodup
  obtain ⟨m',head',hcall,hlist,hkept⟩ := protocolInsertList_accepted hacc (h.lists l) (heach l)
  refine ⟨m',head',hcall,fun l' => ?_,?_⟩
  · rw [head_setHead]
    by_cases hl : l' = l
    · subst hl
      rw [if_pos rfl,Function.update_self]
      exact hlist
    · rw [if_neg hl,Function.update_of_ne hl]
      refine (h.lists l').congr fun p hp => hkept p ((h.lists l').lt hp) fun hhead => ?_
      exact hdisj l' l hl p hp ((h.lists l).head_mem hhead)
  · refine allBlocks_insertEntry h.nodup l (by simp [Entry.blocks,newEntryOf]) ?_
    intro l' p hp hin
    have hlow := newEntryOf_blocks hp
    have hhigh := (h.lists l').lt hin
    omega

theorem Inv.same (h : Inv m c es) {m' : Memory} (hblock : m'.block = m.block) : Inv m' c es :=
  ⟨fun l => (h.lists l).congr fun p _ => by rw [hblock],h.nodup⟩

theorem insert_eq {i : Insertion} {m' : Memory} {head : Option ℕ} {ret : Ret}
    (h : protocolInsertList i.faults m (some (c.head i.list)) i.cloudPropertyName
      i.rexPropertyName = some (m',some head,ret)) :
    ProtocolTeardown.insert (m,c) i = some (m',c.setHead head i.list) := by
  rw [ProtocolTeardown.insert]
  simp only [h]

theorem protocolInsertList_null {f : MallocFaults} {listHead : Option (Option ℕ)} {cloud rex : Option CStr}
    (h : cloud = none ∨ rex = none) :
    protocolInsertList f m listHead cloud rex = some (m,listHead,.fail) := by
  cases listHead with
  | none => rfl
  | some head =>
    rcases h with rfl | rfl
    · rfl
    · cases cloud <;> rfl

theorem Inv.insert (h : Inv m c es) (i : Insertion) :
    ∃ m' c' es', ProtocolTeardown.insert (m,c) i = some (m',c') ∧ Inv m' c' es' := by
  have hnull : i.cloudPropertyName = none ∨ i.rexPropertyName = none →
      ProtocolTeardown.insert (m,c) i = some (m,c) := by
    intro hnone
    rw [insert_eq (protocolInsertList_null hnone),setHead_self]
  cases hcloud : i.cloudPropertyName with
  | none => exact ⟨m,c,es,hnull (Or.inl hcloud),h⟩
  | some cloud =>
    cases hrex : i.rexPropertyName with
    | none => exact ⟨m,c,es,hnull (Or.inr hrex),h⟩
    | some rex =>
      by_cases hacc : Accepted i.faults cloud rex
      · obtain ⟨m',head',hcall,h'⟩ := h.accepted i.list hacc
        rw [← hcloud,← hrex] at hcall
        exact ⟨m',_,_,insert_eq hcall,h'⟩
      · obtain ⟨m',hcall,hblock⟩ := protocolInsertList_rejected (c.head i.list) hacc
        rw [← hcloud,← hrex] at hcall
        refine ⟨m',c,es,?_,h.same hblock⟩
        rw [insert_eq hcall,setHead_self]

theorem init_inv (m : Memory) : Inv m Context.init fun _ => [] where
  lists := fun l => by
    cases l
    all_goals exact ⟨rfl,by simp⟩
  nodup := by simp [allBlocks,allLists,blocksOf]

theorem exec_inv (calls : List Insertion) (h : Inv m c es) : ∃ m' c' es',
    exec ProtocolTeardown.insert (m,c) calls = some (m',c') ∧ Inv m' c' es' := by
  induction calls generalizing m c es with
  | nil => exact ⟨m,c,es,rfl,h⟩
  | cons i calls ih =>
    obtain ⟨m₁,c₁,es₁,hstep,h₁⟩ := h.insert i
    obtain ⟨m',c',es',hrest,h'⟩ := ih h₁
    exact ⟨m',c',es',exec_cons.mpr ⟨(m₁,c₁),hstep,hrest⟩,h'⟩

/-- Whatever insertions built the lists of a context, `protocol_destroy` takes all of them down
exactly when nothing was inserted into the security and the misc list. -/
theorem teardown_complete_iff (m : Memory) (calls : List Insertion) : ∃ m' c',
    exec ProtocolTeardown.insert (m,Context.init) calls = some (m',c') ∧
    (TeardownComplete m' c' ↔
      c'.securityPropertyListHead = none ∧ c'.miscPropertyListHead = none) := by
  obtain ⟨m',c',es',hrun,h'⟩ := exec_inv calls (init_inv m)
  exact ⟨m',c',hrun,h'.complete_iff⟩

def emptyMemory : Memory := ⟨fun _ => none,0,[],fun _ _ => rfl⟩

def securityPair : List Insertion := [⟨.security,{},some ⟨[99],by simp⟩,some ⟨[100],by simp⟩⟩]

/-- The pair in the security list outlives the destructor. -/
theorem security_list_survives : ∃ m' c',
    exec ProtocolTeardown.insert (emptyMemory,Context.init) securityPair = some (m',c') ∧
    ¬ TeardownComplete m' c' := by
  have hany : (exec ProtocolTeardown.insert (emptyMemory,Context.init) securityPair).any
      (fun s => s.2.securityPropertyListHead.isSome) = true := by decide +kernel
  obtain ⟨m',c',es',hrun,h'⟩ := exec_inv securityPair (init_inv emptyMemory)
  rw [hrun] at hany
  refine ⟨m',c',hrun,fun hcomplete => ?_⟩
  have hnone := (h'.complete_iff.mp hcomplete).1
  simp [hnone] at hany

end Run

end ProtocolTeardown
end IotBase
