import IotBase.MapfileRefinement

/-! Several handles on one file. A handle's mutex serialises the calls made through that
handle only, so a set of another handle can run between the read and the write of a row. -/
namespace IotBase
namespace MapfileHandles
open RawBytes CString MapfileItem MapfileStore MapfileFile MapfileRow LabelledRun
open MapfileRefinement (Key readOut answer_take kvGet_ok keyAB keyBA oneByte putLoop_zero)

variable {H : Type*} [DecidableEq H]

/-- A set that holds its handle's mutex between `read_kv_item` and `write_kv_item`; `seen`
is the row it has read, when `since` calls had returned. -/
structure Pending where
  key : Key
  value : Value
  since : ℕ
  seen : List KvItem
  location : ℕ
  kv : List KvItem

structure System (H : Type*) where
  disk : Disk
  pending : H → Option Pending
  returned : List (Key × Value × Ret)

inductive Step (H : Type*)
  | begin (h : H) (key : Key) (value : Value) (malloc : Bool) (f : ReadFaults)
  | finish (h : H) (f : WriteFaults)

def System.step (s : System H) : Step H → Option (System H)
  | .begin h key value malloc f =>
    match s.pending h with
    | some _ => none
    | none =>
      match hashTablePutRow malloc f s.disk (some key) (some value) with
      | none => some {s with returned := s.returned++[(key,value,.fail)]}
      | some (i,kv) => some {s with
          pending := Function.update s.pending h (some
            ⟨key,value,s.returned.length,rowAt (s.disk.getD []) (hashGen key),i,kv⟩)}
  | .finish h f =>
    match s.pending h with
    | none => none
    | some p => some {
        disk := (writeKvItem f s.disk p.kv p.location).1
        pending := Function.update s.pending h none
        returned := s.returned++[(p.key,p.value,(writeKvItem f s.disk p.kv p.location).2)]}

def System.opened (disk : Disk) : System H := ⟨disk,fun _ => none,[]⟩

def PrefixFree (K : Key → Prop) : Prop :=
  ∀ k k' : Key, K k → K k' → k.1.bytes <+: k'.1.bytes → k = k'

/-- A set of another key of the row of `k` has read it after `k` was first set. -/
def Current (k : Key) (s : System H) (p : Pending) : Prop :=
  p.key ≠ k → hashGen p.key = hashGen k → ∀ v, (k,v,Ret.ok) ∈ s.returned →
    ∃ v', (k,v',Ret.ok) ∈ s.returned.take p.since

/-- The keys are among `K`; no write stops half-way, and none puts back a row from before the first
set of `k`. -/
def Admissible (K : Key → Prop) (k : Key) (s : System H) : Step H → Prop
  | .begin _ key _ _ _ => K key
  | .finish h f => (∀ n, f.write ≠ .short n) ∧ ∀ p, s.pending h = some p →
      (writeKvItem f s.disk p.kv p.location).2 = .ok → Current k s p

def Holds (key : CStr) (v : Value) (row : List KvItem) : Prop :=
  ∃ p, searchHit key row = some p ∧ p.valueLen.toNat = clampLen v ∧
    stored p = v.bytes.take (clampLen v)

theorem putLoop_holds {key : CStr} {v : Value} (hk : key.strlen < itemMaxKeyLen) (hv : 0 < v.len)
    {row row' : List KvItem} (h : putLoop key v row = some row') : Holds key v row' := by
  have hk' := Nat.le_of_lt hk
  induction row generalizing row' with
  | nil => simp [putLoop] at h
  | cons p rest ih =>
    by_cases hp : p.Live
    · by_cases hm : key.bytes <+: p.name
      · simp only [putLoop,hp,(keyMatches_iff rest hk').mpr hm,if_true,Option.some.injEq] at h
        subst h
        exact ⟨_,searchHit_hit hk' rest (updateItem_live p hv) hm,clampLen_toNat v,
          updateItem_stored p v⟩
      · have hmatch := keyMatches_eq_false rest hk' hm
        simp only [putLoop,hp,hmatch,if_true,Bool.false_eq_true,if_false] at h
        obtain ⟨tail,htail,rfl⟩ := Option.map_eq_some_iff.mp h
        obtain ⟨q,hq,hh⟩ := ih htail
        exact ⟨q,by rwa [searchHit_skip hk' tail hp hm],hh⟩
    · simp only [putLoop,hp,if_false,Option.some.injEq] at h
      subst h
      exact ⟨_,searchHit_hit hk' rest (insertItem_live p key hv) (insertItem_starts p v hk),
        clampLen_toNat v,insertItem_stored p key v⟩

/-- The loop for one key leaves the slot of a key that is not comparable with it. -/
theorem putLoop_holds_other {key k : CStr} {v w : Value} (hkey : key.strlen ≤ itemMaxKeyLen)
    (hk : k.strlen ≤ itemMaxKeyLen) (hfree : ¬ key.bytes <+: k.bytes ∧ ¬ k.bytes <+: key.bytes)
    (hw : 0 < w.len)
    {row row' : List KvItem} (h : putLoop key w row = some row') (hold : Holds k v row) :
    Holds k v row' := by
  obtain ⟨q,hq,hh⟩ := hold
  induction row generalizing row' with
  | nil => simp [searchHit] at hq
  | cons p rest ih =>
    have hp : p.Live := by
      by_contra hp
      simp [searchHit,hp] at hq
    by_cases hm : k.bytes <+: p.name
    · -- the slot of `k` cannot match: both keys would start its name
      have hkey' : ¬ key.bytes <+: p.name := by
        intro hm'
        rcases List.prefix_or_prefix_of_prefix hm' hm with hc | hc
        · exact hfree.1 hc
        · exact hfree.2 hc
      have hmatch := keyMatches_eq_false rest hkey hkey'
      simp only [putLoop,hp,hmatch,if_true,Bool.false_eq_true,if_false] at h
      obtain ⟨tail,_,rfl⟩ := Option.map_eq_some_iff.mp h
      rw [searchHit_hit hk rest hp hm] at hq
      cases hq
      exact ⟨_,searchHit_hit hk tail hp hm,hh⟩
    · rw [searchHit_skip hk rest hp hm] at hq
      simp only [putLoop,hp,if_true] at h
      split at h
      · cases h
        exact ⟨q,by rwa [searchHit_skip hk rest (updateItem_live p hw) hm],hh⟩
      · obtain ⟨tail,htail,rfl⟩ := Option.map_eq_some_iff.mp h
        obtain ⟨q',hq',hh'⟩ := ih htail hq
        exact ⟨q',by rwa [searchHit_skip hk tail hp hm],hh'⟩

/-- What is known of a set between its two steps: if `k` had been set when the row of `k` was read, the
row holds the value of one of its sets. -/
structure PendingOk (K : Key → Prop) (k : Key) (returned : List (Key × Value × Ret)) (p : Pending) :
    Prop where
  mem : K p.key
  location : p.location = hashGen p.key
  positive : 0 < p.value.len
  computed : putLoop p.key p.value p.seen = some p.kv
  length : p.seen.length = tableRowSize
  since : p.since ≤ returned.length
  seen : hashGen p.key = hashGen k → ∀ v, (k,v,Ret.ok) ∈ returned.take p.since →
    ∃ v', (k,v',Ret.ok) ∈ returned ∧ 0 < v'.len ∧ Holds k v' p.seen

/-- A successful set of `k` is in force: the file holds the value of one of them. -/
def InForce (s : System H) (k : Key) : Prop :=
  ∃ v file, (k,v,Ret.ok) ∈ s.returned ∧ 0 < v.len ∧ s.disk = some file ∧
    rowOff (hashGen k)+rowLen ≤ file.length ∧ Holds k v (rowAt file (hashGen k))

structure Inv (K : Key → Prop) (k : Key) (s : System H) : Prop where
  pending : ∀ h p, s.pending h = some p → PendingOk K k s.returned p
  key : ∀ v, (k,v,Ret.ok) ∈ s.returned → K k
  inForce : ∀ v, (k,v,Ret.ok) ∈ s.returned → InForce s k

theorem PendingOk.append {K : Key → Prop} {k : Key} {returned : List (Key × Value × Ret)} {p : Pending}
    (h : PendingOk K k returned p) (e : Key × Value × Ret) : PendingOk K k (returned++[e]) p where
  mem := h.mem
  location := h.location
  positive := h.positive
  computed := h.computed
  length := h.length
  since := h.since.trans (by simp)
  seen hrow v hv := by
    rw [List.take_append_of_le_length h.since] at hv
    obtain ⟨v',hmem,hv'⟩ := h.seen hrow v hv
    exact ⟨v',List.mem_append_left _ hmem,hv'⟩

theorem writeKvItem_whole {f : WriteFaults} (disk : Disk) {kv : List KvItem} (i : ℕ)
    (hkv : kv.length = tableRowSize) (hf : ∀ n, f.write ≠ .short n) :
    writeKvItem f disk kv i = (disk,.fail) ∨
      ∃ file, disk = some file ∧ rowOff i+rowLen ≤ file.length ∧
        writeKvItem f disk kv i = (some (putRow file i kv),.ok) := by
  rcases writeKvItem_cases f disk kv i with hfail | ⟨file,rfl,hfit,hw⟩
  · exact Or.inl hfail
  · cases hwrite : f.write with
    | complete =>
      refine Or.inr ⟨file,rfl,hfit,?_⟩
      rw [hw,hwrite]
      simp [WriteResult.count,take_encodeRow hkv,putRow]
    | error =>
      left
      rw [hw,hwrite]
      simp [WriteResult.count,splice]
    | short n => exact absurd hwrite (hf n)

section Steps

variable {K : Key → Prop} {k : Key} {s t : System H} {h : H}

omit [DecidableEq H] in
theorem Inv.failed (hI : Inv K k s) {pending : H → Option Pending}
    (hp : ∀ h p, pending h = some p → PendingOk K k s.returned p) (key : Key) (value : Value) :
    Inv K k ⟨s.disk,pending,s.returned++[(key,value,.fail)]⟩ := by
  have hmem : ∀ v, (k,v,Ret.ok) ∈ s.returned++[(key,value,Ret.fail)] → (k,v,Ret.ok) ∈ s.returned := by
    intro v hv
    simpa using hv
  refine ⟨fun h p hpend => (hp h p hpend).append _,fun v hv => hI.key v (hmem v hv),fun v hv => ?_⟩
  obtain ⟨v',file,hv',hh⟩ := hI.inForce v (hmem v hv)
  exact ⟨v',file,List.mem_append_left _ hv',hh⟩

omit [DecidableEq H] in
theorem Inv.holds_written (hK : PrefixFree K) (hI : Inv K k s) {file : Bytes} {p : Pending}
    (hpend : PendingOk K k s.returned p) (hcurrent : Current k s p) (hdisk : s.disk = some file)
    (hfit : rowOff (hashGen p.key)+rowLen ≤ file.length) {v : Value} (hkey : p.key ≠ k)
    (hv : (k,v,Ret.ok) ∈ s.returned) :
    ∃ v', (k,v',Ret.ok) ∈ s.returned ∧ 0 < v'.len ∧ rowOff (hashGen k)+rowLen ≤ file.length ∧
      Holds k v' (rowAt (putRow file (hashGen p.key) p.kv) (hashGen k)) := by
  have hkv : p.kv.length = tableRowSize := by rw [putLoop_length hpend.computed,hpend.length]
  by_cases hrow : hashGen p.key = hashGen k
  · obtain ⟨v₀,hv₀⟩ := hcurrent hkey hrow v hv
    obtain ⟨v',hv',hpos,hseen⟩ := hpend.seen hrow v₀ hv₀
    have hfree : ¬ p.key.1.bytes <+: k.1.bytes ∧ ¬ k.1.bytes <+: p.key.1.bytes :=
      ⟨fun hc => hkey (hK p.key k hpend.mem (hI.key v hv) hc),
        fun hc => hkey (hK k p.key (hI.key v hv) hpend.mem hc).symm⟩
    refine ⟨v',hv',hpos,by rwa [← hrow],?_⟩
    rw [← hrow,rowAt_putRow_self hfit hkv]
    exact putLoop_holds_other (Nat.le_of_lt p.key.2) (Nat.le_of_lt k.2) hfree hpend.positive
      hpend.computed hseen
  · obtain ⟨v',file',hv',hpos,hdisk',hfit',hh⟩ := hI.inForce v hv
    obtain rfl : file = file' := Option.some.inj (hdisk.symm.trans hdisk')
    exact ⟨v',hv',hpos,hfit',by rwa [rowAt_putRow_other hrow hfit hfit' hkv]⟩

omit [DecidableEq H] in
theorem Inv.written (hK : PrefixFree K) (hI : Inv K k s) {pending : H → Option Pending}
    (hp : ∀ h p, pending h = some p → PendingOk K k s.returned p) {file : Bytes} {p : Pending}
    (hpend : PendingOk K k s.returned p) (hcurrent : Current k s p) (hdisk : s.disk = some file)
    (hfit : rowOff (hashGen p.key)+rowLen ≤ file.length) :
    Inv K k ⟨some (putRow file (hashGen p.key) p.kv),pending,s.returned++[(p.key,p.value,.ok)]⟩ := by
  have hkv : p.kv.length = tableRowSize := by rw [putLoop_length hpend.computed,hpend.length]
  have hnew : ∀ v, (k,v,Ret.ok) ∈ s.returned++[(p.key,p.value,Ret.ok)] →
      (k,v,Ret.ok) ∈ s.returned ∨ (k = p.key ∧ v = p.value) := by
    intro v hv
    simpa using hv
  refine ⟨fun h q hq => (hp h q hq).append _,fun v hv => ?_,fun v hv => ?_⟩
  · rcases hnew v hv with hold | ⟨rfl,_⟩
    · exact hI.key v hold
    · exact hpend.mem
  · by_cases hkey : p.key = k
    · subst hkey
      refine ⟨p.value,_,by simp,hpend.positive,rfl,by rwa [putRow_length],?_⟩
      rw [rowAt_putRow_self hfit hkv]
      exact putLoop_holds p.key.2 hpend.positive hpend.computed
    · rcases hnew v hv with hold | ⟨he,_⟩
      · obtain ⟨v',hv',hpos,hfit',hh⟩ := hI.holds_written hK hpend hcurrent hdisk hfit hkey hold
        exact ⟨v',_,List.mem_append_left _ hv',hpos,rfl,by rwa [putRow_length],hh⟩
      · exact absurd he.symm hkey

theorem begin_inv {key : Key} {value : Value} {malloc : Bool} {f : ReadFaults} (hI : Inv K k s)
    (hkey : K key) (ht : s.step (.begin h key value malloc f) = some t) : Inv K k t := by
  simp only [System.step] at ht
  split at ht
  · cases ht
  · split at ht
    · cases ht
      exact hI.failed hI.pending key value
    · rename_i i kv hput
      cases ht
      obtain ⟨hi,hv,hcomp⟩ := hashTablePutRow_some hput
      refine ⟨fun h' p hp => ?_,hI.key,hI.inForce⟩
      by_cases hh : h' = h
      · subst hh
        simp only [Function.update_self,Option.some.injEq] at hp
        subst hp
        refine ⟨hkey,hi,hv,hcomp,rowAt_length _ _,le_rfl,fun hrow v hmem => ?_⟩
        rw [List.take_length] at hmem
        obtain ⟨v',file,hv',hpos,hdisk,-,hh⟩ := hI.inForce v hmem
        refine ⟨v',hv',hpos,?_⟩
        change Holds k v' (rowAt (s.disk.getD []) (hashGen key))
        rwa [hdisk,hrow]
      · have hp' : s.pending h' = some p := by simpa [Function.update_of_ne hh] using hp
        exact hI.pending h' p hp'

theorem finish_inv (hK : PrefixFree K) {f : WriteFaults} (hI : Inv K k s)
    (hC : Admissible K k s (.finish h f)) (ht : s.step (.finish h f) = some t) : Inv K k t := by
  simp only [System.step] at ht
  split at ht
  · cases ht
  rename_i p hp
  cases ht
  have hpend := hI.pending h p hp
  have hkv : p.kv.length = tableRowSize := by rw [putLoop_length hpend.computed,hpend.length]
  have hpending : ∀ h' p', Function.update s.pending h none h' = some p' →
      PendingOk K k s.returned p' := by
    intro h' p' hp'
    by_cases hh : h' = h
    · subst hh
      simp at hp'
    · rw [Function.update_of_ne hh] at hp'
      exact hI.pending h' p' hp'
  rcases writeKvItem_whole s.disk p.location hkv hC.1 with hw | ⟨file,hdisk,hfit,hw⟩
  · rw [hw]
    exact hI.failed hpending p.key p.value
  · have hcurrent := hC.2 p hp (by rw [hw])
    rw [hpend.location] at hfit hw
    rw [hpend.location,hw]
    exact hI.written hK hpending hpend hcurrent hdisk hfit

end Steps

/-- In every interleaving in which no set of another key puts back the row of `k` as it was before `k`
was first set, `k` reads the value of one of its sets once it has been set. -/
theorem kv_set_not_lost (K : Key → Prop) (hK : PrefixFree K) (disk : Disk) (k : Key)
    (ls : List (Step H)) (hC : Meets System.step (Admissible K k) (System.opened disk) ls) (s : System H)
    (hs : LabelledRun.exec System.step (System.opened disk) ls = some s) (v : Value)
    (hret : (k,v,Ret.ok) ∈ s.returned) (n : ℤ) (hn : 0 < n) :
    ∃ v', (k,v',Ret.ok) ∈ s.returned ∧
      mapfileKvGet false {} s.disk (some k) (some n) = some (readOut v' n) := by
  have hstep : ∀ (s : System H) l t, Inv K k s → Admissible K k s l → s.step l = some t → Inv K k t := by
    intro s l t hI hl ht
    cases l with
    | begin h key value malloc f => exact begin_inv hI hl ht
    | finish h f => exact finish_inv hK hI hl ht
  have hopen : Inv K k (System.opened (H:=H) disk) :=
    ⟨fun _ _ hp => (by cases hp),fun _ hm => (by cases hm),fun _ hm => (by cases hm)⟩
  have hI := exec_invariant hstep ls hopen hC hs
  obtain ⟨v',file,hv',hpos,hdisk,hfit,p,hhit,hlen,hstored⟩ := hI.inForce v hret
  refine ⟨v',hv',?_⟩
  rw [hdisk,kvGet_ok k hfit hn,getLoop_of_hit hhit (by rw [hlen]; exact clampLen_le v') hn,hstored,
    answer_take hpos hn]

/-- Both halves of one set, with nothing in between, are `mapfile_kv_set`. -/
theorem begin_finish_eq (disk : Disk) (h : H) (key : Key) (value : Value) (f : Faults) {i : ℕ}
    {kv : List KvItem}
    (hput : hashTablePutRow f.malloc f.read disk (some key) (some value) = some (i,kv)) :
    LabelledRun.exec System.step (System.opened disk)
        [.begin h key value f.malloc f.read,.finish h f.write] =
      some ⟨(mapfileKvSet f disk (some key) (some value)).1,fun _ => none,
        [(key,value,(mapfileKvSet f disk (some key) (some value)).2)]⟩ := by
  have hv : ¬ value.len ≤ 0 := by
    have hpos := (hashTablePutRow_some hput).2.1
    omega
  have hset : mapfileKvSet f disk (some key) (some value) = writeKvItem f.write disk kv i := by
    simp [mapfileKvSet,kvSet,hv,hashTablePut,hput]
  rw [hset]
  simp [exec,System.step,System.opened,hput]

section Race

variable {s : System H} {file : Bytes} {h : H} {key : Key} {kv : List KvItem}

theorem begin_ok (hs : s.disk = some file) (hp : s.pending h = none)
    (hfit : rowOff (hashGen key)+rowLen ≤ file.length)
    (hput : putLoop key oneByte (rowAt file (hashGen key)) = some kv) :
    ∃ t, s.step (.begin h key oneByte false {}) = some t ∧ t.disk = some file ∧
      t.returned = s.returned ∧ t.pending = Function.update s.pending h
        (some ⟨key,oneByte,s.returned.length,rowAt file (hashGen key),hashGen key,kv⟩) := by
  have hv : ¬ oneByte.len ≤ 0 := by decide
  have hrow : hashTablePutRow false {} s.disk (some key) (some oneByte) = some (hashGen key,kv) := by
    rw [hs]
    simp [hashTablePutRow,hv,readKvItem_ok hfit,hput]
  refine ⟨⟨s.disk,Function.update s.pending h
    (some ⟨key,oneByte,s.returned.length,rowAt file (hashGen key),hashGen key,kv⟩),s.returned⟩,
    ?_,hs,rfl,rfl⟩
  simp only [System.step,hp,hrow]
  rw [hs]
  rfl

theorem finish_ok {p : Pending} (hs : s.disk = some file) (hp : s.pending h = some p)
    (hfit : rowOff p.location+rowLen ≤ file.length) (hkv : p.kv.length = tableRowSize) :
    ∃ t, s.step (.finish h {}) = some t ∧ t.disk = some (putRow file p.location p.kv) ∧
      t.returned = s.returned++[(p.key,p.value,.ok)] ∧
      t.pending = Function.update s.pending h none := by
  have hw := writeKvItem_ok hfit hkv
  refine ⟨⟨some (putRow file p.location p.kv),Function.update s.pending h none,
    s.returned++[(p.key,p.value,.ok)]⟩,?_,rfl,rfl,rfl⟩
  simp [System.step,hp,hs,hw]

end Race

def halfSet (file : Bytes) (key : Key) (kv : List KvItem) : Pending :=
  ⟨key,oneByte,0,rowAt file (hashGen key),hashGen key,kv⟩

theorem race {file : Bytes} {key₁ key₂ : Key} {kv₁ kv₂ : List KvItem} (hlen : file.length = fileLen)
    (hput₁ : putLoop key₁ oneByte (rowAt file (hashGen key₁)) = some kv₁)
    (hput₂ : putLoop key₂ oneByte (rowAt file (hashGen key₂)) = some kv₂) :
    ∃ s₁ s₂ s₃ s₄ : System Bool,
      (System.opened (some file)).step (.begin false key₁ oneByte false {}) = some s₁ ∧
      s₁.step (.begin true key₂ oneByte false {}) = some s₂ ∧
      s₂.pending false = some (halfSet file key₁ kv₁) ∧ s₂.step (.finish false {}) = some s₃ ∧
      s₃.pending true = some (halfSet file key₂ kv₂) ∧ s₃.step (.finish true {}) = some s₄ ∧
      s₄.disk = some (putRow (putRow file (hashGen key₁) kv₁) (hashGen key₂) kv₂) ∧
      s₄.returned = [(key₁,oneByte,.ok),(key₂,oneByte,.ok)] ∧ s₄.pending false = none := by
  have hkv₁ : kv₁.length = tableRowSize := by rw [putLoop_length hput₁,rowAt_length]
  have hkv₂ : kv₂.length = tableRowSize := by rw [putLoop_length hput₂,rowAt_length]
  obtain ⟨s₁,hs₁,hdisk₁,hret₁,hpend₁⟩ := begin_ok (s:=System.opened (some file)) (h:=false) rfl rfl
    (key_fits hlen key₁) hput₁
  have htrue₁ : s₁.pending true = none := by rw [hpend₁]; rfl
  obtain ⟨s₂,hs₂,hdisk₂,hret₂,hpend₂⟩ := begin_ok hdisk₁ htrue₁ (key_fits hlen key₂) hput₂
  rw [hret₁] at hpend₂
  have hfalse₂ : s₂.pending false = some (halfSet file key₁ kv₁) := by rw [hpend₂,hpend₁]; rfl
  have htrue₂ : s₂.pending true = some (halfSet file key₂ kv₂) := by rw [hpend₂]; rfl
  obtain ⟨s₃,hs₃,hdisk₃,hret₃,hpend₃⟩ := finish_ok hdisk₂ hfalse₂ (key_fits hlen key₁) hkv₁
  have htrue₃ : s₃.pending true = some (halfSet file key₂ kv₂) := by
    rw [hpend₃,Function.update_of_ne (by decide),htrue₂]
  have hfit : rowOff (hashGen key₂)+rowLen ≤ (putRow file (hashGen key₁) kv₁).length := by
    rw [putRow_length]
    exact key_fits hlen key₂
  obtain ⟨s₄,hs₄,hdisk₄,hret₄,hpend₄⟩ := finish_ok hdisk₃ htrue₃ hfit hkv₂
  refine ⟨s₁,s₂,s₃,s₄,hs₁,hs₂,hfalse₂,hs₃,htrue₃,hs₄,hdisk₄,?_,?_⟩
  · rw [hret₄,hret₃,hret₂,hret₁]
    rfl
  · rw [hpend₄,hpend₃]
    rfl

theorem putLoop_fresh (key : Key) :
    putLoop key oneByte (rowAt (List.replicate fileLen 0) (hashGen key)) =
      some [insertItem zeroItem key oneByte,zeroItem] := by
  rw [rowAt_zero (hashGen_lt key),putLoop_zero]

/-- Two handles set two keys of one row; both sets return `MAPFILE_OK`, and the second
write puts back a row without the first key. -/
theorem kv_set_lost : ∃ s : System Bool,
    LabelledRun.exec System.step (System.opened (some (List.replicate fileLen 0)))
      [.begin false keyAB oneByte false {},.begin true keyBA oneByte false {},
        .finish false {},.finish true {}] = some s ∧
    (keyAB,oneByte,Ret.ok) ∈ s.returned ∧ (keyBA,oneByte,Ret.ok) ∈ s.returned ∧
    mapfileKvGet false {} s.disk (some keyAB) (some 1) = none := by
  have hrows : hashGen keyAB = hashGen keyBA := by decide
  obtain ⟨s₁,s₂,s₃,s₄,hs₁,hs₂,-,hs₃,-,hs₄,hdisk,hret,-⟩ :=
    race (by simp) (putLoop_fresh keyAB) (putLoop_fresh keyBA)
  refine ⟨s₄,?_,by simp [hret],by simp [hret],?_⟩
  · exact exec_cons.mpr ⟨s₁,hs₁,exec_cons.mpr ⟨s₂,hs₂,exec_cons.mpr ⟨s₃,hs₃,
      exec_cons.mpr ⟨s₄,hs₄,rfl⟩⟩⟩⟩
  · have hlen : ((List.replicate fileLen (0 : UInt8)).length) = fileLen := List.length_replicate
    generalize List.replicate fileLen (0 : UInt8) = file at hdisk hlen
    have hlive : (insertItem zeroItem keyBA oneByte).Live := insertItem_live _ _ (by decide)
    have hmiss : keyMatches [insertItem zeroItem keyBA oneByte,zeroItem] keyAB = false := by
      refine keyMatches_eq_false _ (by decide) ?_
      rw [insertItem_zero_name oneByte (by decide)]
      decide
    have hfit : rowOff (hashGen keyBA)+rowLen ≤
        (putRow file (hashGen keyBA) [insertItem zeroItem keyAB oneByte,zeroItem]).length := by
      rw [putRow_length]
      exact key_fits hlen keyBA
    rw [hrows] at hdisk
    rw [hdisk,kvGet_ok keyAB (by rwa [putRow_length,hrows]) (by decide),hrows,rowAt_putRow_self hfit rfl]
    simp [getLoop,hlive,hmiss]

/-- Two handles race for one key; then another key of the row is set. -/
def raceRun : List (Step Bool) :=
  [.begin false keyAB oneByte false {},.begin true keyAB oneByte false {},.finish false {},
    .finish true {},.begin false keyBA oneByte false {},.finish false {}]

theorem kv_set_not_lost_race : ∃ s : System Bool,
    LabelledRun.exec System.step (System.opened (some (List.replicate fileLen 0))) raceRun = some s ∧
    (keyBA,oneByte,Ret.ok) ∈ s.returned ∧ ∃ v', (keyAB,v',Ret.ok) ∈ s.returned ∧
      mapfileKvGet false {} s.disk (some keyAB) (some 1) = some (readOut v' 1) := by
  have hrows : hashGen keyBA = hashGen keyAB := by decide
  obtain ⟨s₁,s₂,s₃,s₄,hs₁,hs₂,hp₂,hs₃,hp₃,hs₄,hdisk₄,hret₄,hp₄⟩ :=
    race (by simp) (putLoop_fresh keyAB) (putLoop_fresh keyAB)
  have hlen : (List.replicate fileLen (0 : UInt8)).length = fileLen := List.length_replicate
  obtain ⟨file,hfile,hlen₄,hrow₄⟩ : ∃ file, s₄.disk = some file ∧ file.length = fileLen ∧
      rowAt file (hashGen keyAB) = [insertItem zeroItem keyAB oneByte,zeroItem] := by
    refine ⟨_,hdisk₄,by rw [putRow_length,putRow_length,hlen],rowAt_putRow_self ?_ rfl⟩
    rw [putRow_length]
    exact key_fits hlen keyAB
  have hput : putLoop keyBA oneByte (rowAt file (hashGen keyBA)) =
      some [insertItem zeroItem keyAB oneByte,insertItem zeroItem keyBA oneByte] := by
    rw [hrows,hrow₄]
    decide +kernel
  obtain ⟨s₅,hs₅,hdisk₅,hret₅,hpend₅⟩ := begin_ok hfile hp₄ (key_fits hlen₄ keyBA) hput
  have hp₅ : s₅.pending false = some ⟨keyBA,oneByte,s₄.returned.length,rowAt file (hashGen keyBA),
      hashGen keyBA,[insertItem zeroItem keyAB oneByte,insertItem zeroItem keyBA oneByte]⟩ := by
    rw [hpend₅,Function.update_self]
  obtain ⟨s₆,hs₆,-,hret₆,-⟩ := finish_ok hdisk₅ hp₅ (key_fits hlen₄ keyBA) rfl
  have hrun : LabelledRun.exec System.step (System.opened (some (List.replicate fileLen 0))) raceRun =
      some s₆ :=
    exec_cons.mpr ⟨s₁,hs₁,exec_cons.mpr ⟨s₂,hs₂,exec_cons.mpr ⟨s₃,hs₃,exec_cons.mpr ⟨s₄,hs₄,
      exec_cons.mpr ⟨s₅,hs₅,exec_cons.mpr ⟨s₆,hs₆,rfl⟩⟩⟩⟩⟩⟩
  have hfree : PrefixFree fun k => k = keyAB ∨ k = keyBA := by
    rintro k k' (rfl | rfl) (rfl | rfl) hprefix
    · rfl
    · exact absurd hprefix (by decide)
    · exact absurd hprefix (by decide)
    · rfl
  have hmeets : Meets System.step (Admissible (fun k => k = keyAB ∨ k = keyBA) keyAB)
      (System.opened (some (List.replicate fileLen 0))) raceRun := by
    refine meets_cons (Or.inl rfl) hs₁ (meets_cons (Or.inl rfl) hs₂ (meets_cons ⟨by simp,?_⟩ hs₃
      (meets_cons ⟨by simp,?_⟩ hs₄ (meets_cons (Or.inr rfl) hs₅
        (meets_cons ⟨by simp,?_⟩ hs₆ trivial)))))
    · intro p hp _ hne
      cases hp₂.symm.trans hp
      exact absurd rfl hne
    · intro p hp _ hne
      cases hp₃.symm.trans hp
      exact absurd rfl hne
    · intro p hp _ _ _ v _
      cases hp₅.symm.trans hp
      exact ⟨oneByte,by simp [hret₅,hret₄]⟩
  have hmem : (keyAB,oneByte,Ret.ok) ∈ s₆.returned := by simp [hret₆,hret₅,hret₄]
  exact ⟨s₆,hrun,by simp [hret₆],kv_set_not_lost _ hfree _ keyAB raceRun hmeets s₆ hrun oneByte hmem 1
    (by decide)⟩

end MapfileHandles
end IotBase
