import IotBase.UtHashBuckets

/-! What the macros of `uthash.h` do to a table: it lists its elements in the order in which they
were added, finds exactly the keys that it holds, and never follows a stray pointer. -/
namespace IotBase
namespace UtHashTable
open RawBytes CString BlockHeap DoubleLinks UtHash UtHashBuckets

variable {E : Type} {field : E → Bytes}

/-- The handle of an element has the length and the hash value of its key. -/
structure Hashed (field : E → Bytes) (c : Element E) : Prop where
  short : (keyOf field c.val).length < 2^32
  keylen : c.hh.keylen = UInt32.ofNat (keyOf field c.val).length
  hashv : c.hh.hashv = hashJen (keyOf field c.val)

/-- The table links exactly the elements of `l`, in this order. -/
structure Inv (field : E → Bytes) (s : State E) (l : List ℕ) : Prop where
  head : s.head = l.head?
  app : Seg (appLinks E) s.mem none l none
  hashed : ∀ p ∈ l, ∀ c, s.mem p = some c → Hashed field c
  empty : l = [] → s.tbl = none
  table : l ≠ [] → ∃ t, s.tbl = some t ∧ TableOk s.mem t l ∧ l.getLast? = some t.tail ∧
    t.numItems = UInt32.ofNat l.length

def unlinked (c : Element E) : E × UInt32 × UInt32 := (c.val,c.hh.keylen,c.hh.hashv)

variable {s : State E} {l : List ℕ} {p : ℕ} {c : Element E}

theorem take_keyOf (e : E) : (field e).take (keyOf field e).length = keyOf field e :=
  (List.prefix_iff_eq_take.mp (List.takeWhile_prefix _)).symm

theorem Hashed.keylen_toNat (h : Hashed field c) : c.hh.keylen.toNat = (keyOf field c.val).length := by
  rw [h.keylen]
  exact UInt32.toNat_ofNat_of_lt' h.short

theorem hashed_congr {mem mem' : ℕ → Option (Element E)}
    (hmem : ∀ q, (mem' q).map unlinked = (mem q).map unlinked)
    (h : ∀ p ∈ l, ∀ c, mem p = some c → Hashed field c) :
    ∀ p ∈ l, ∀ c, mem' p = some c → Hashed field c := by
  intro p hp c hc
  have hq := hmem p
  rw [hc,Option.map_some] at hq
  obtain ⟨d,hd,he⟩ := Option.map_eq_some_iff.mp hq.symm
  have hok := h p hp d hd
  obtain ⟨hval,hrest⟩ := Prod.mk.inj he
  obtain ⟨hlen,hhash⟩ := Prod.mk.inj hrest
  refine ⟨?_,?_,?_⟩
  · rw [← hval]
    exact hok.short
  · rw [← hval,← hlen]
    exact hok.keylen
  · rw [← hval,← hhash]
    exact hok.hashv

theorem headTbl_some {h : ℕ} {t : HashTable} (hhead : s.head = some h) (hc : s.mem h = some c)
    (ht : s.tbl = some t) : s.headTbl = some t := by
  simp [State.headTbl,hhead,hc,ht]

theorem Inv.headTbl (h : Inv field s l) (hl : l ≠ []) : s.headTbl = s.tbl := by
  obtain ⟨t,ht,-⟩ := h.table hl
  cases l with
  | nil => exact absurd rfl hl
  | cons q qs =>
    obtain ⟨d,hd⟩ := h.app.alloc List.mem_cons_self
    rw [headTbl_some h.head hd ht,ht]

theorem Inv.alloc (h : Inv field s l) (hp : p ∈ l) : ∃ c, s.mem p = some c := h.app.alloc hp

def linkedPart (field : E → Bytes) (c : Element E) : HashHandle × Bytes := (c.hh,keyOf field c.val)

theorem Inv.congr (h : Inv field s l) {mem' : ℕ → Option (Element E)}
    (hmem : ∀ p ∈ l, (mem' p).map (linkedPart field) = (s.mem p).map (linkedPart field)) :
    Inv field {s with mem := mem'} l where
  head := h.head
  app := h.app.congr fun p hp => by
    have hlinks := congrArg (Option.map fun x : HashHandle × Bytes => (x.1.prev,x.1.next)) (hmem p hp)
    rw [Option.map_map,Option.map_map] at hlinks
    exact hlinks
  hashed p hp c hc := by
    have hpart := hmem p hp
    rw [show mem' p = some c from hc,Option.map_some] at hpart
    obtain ⟨d,hd,he⟩ := Option.map_eq_some_iff.mp hpart.symm
    obtain ⟨hhandle,hkey⟩ := Prod.mk.inj he
    have hok := h.hashed p hp d hd
    refine ⟨?_,?_,?_⟩
    · rw [← hkey]
      exact hok.short
    · rw [← hkey,← hhandle]
      exact hok.keylen
    · rw [← hkey,← hhandle]
      exact hok.hashv
  empty := h.empty
  table hl := by
    obtain ⟨t,ht,hok,htail,hitems⟩ := h.table hl
    refine ⟨t,ht,⟨hok.log2_le,hok.numBuckets,hok.filled.congr fun p hp => ?_⟩,htail,hitems⟩
    have hfields := congrArg (Option.map fun x : HashHandle × Bytes =>
      (x.1.hhPrev,x.1.hhNext,x.1.hashv)) (hmem p hp)
    rw [Option.map_map,Option.map_map] at hfields
    exact hfields

theorem Inv.update_of_notMem (h : Inv field s l) (hp : p ∉ l) (x : Option (Element E)) :
    Inv field {s with mem := Function.update s.mem p x} l :=
  h.congr fun q hq => by rw [Function.update_of_ne fun he : q = p => hp (he ▸ hq)]

theorem Inv.nil (field : E → Bytes) (mem : ℕ → Option (Element E)) : Inv field ⟨mem,none,none⟩ [] where
  head := rfl
  app := trivial
  hashed _ hp := nomatch hp
  empty _ := rfl
  table hl := absurd rfl hl

section Find

theorem findInBkt_spec (field : E → Bytes) (key : Bytes) (keylen hashval : UInt32)
    {mem : ℕ → Option (Element E)} {head : Option ℕ} {chain : List ℕ} {fuel : ℕ}
    (h : Chain (bktLinks E).next mem head chain) (hfuel : chain.length ≤ fuel) :
    hashFindInBkt field mem key keylen hashval fuel head = some (chain.find? fun p =>
      (mem p).any fun c => decide (c.hh.hashv = hashval ∧ c.hh.keylen = keylen ∧
        (field c.val).take keylen.toNat = key.take keylen.toNat)) := by
  induction chain generalizing head fuel with
  | nil =>
    obtain rfl : head = none := h
    rw [hashFindInBkt]
    rfl
  | cons p ps ih =>
    obtain ⟨rfl,c,hc,hrest⟩ := h
    obtain ⟨fuel,rfl⟩ : ∃ k, fuel = k+1 := ⟨fuel-1,by simp only [List.length_cons] at hfuel; omega⟩
    simp only [hashFindInBkt,hc,Option.bind_eq_bind,Option.bind_some]
    split
    · rename_i hmatch
      rw [List.find?_cons_of_pos (by simpa [hc] using hmatch)]
    · rename_i hmatch
      rw [List.find?_cons_of_neg (by simpa [hc] using hmatch)]
      exact ih hrest (Nat.le_of_succ_le_succ hfuel)

theorem Hashed.matches_iff (h : Hashed field c) {findstr : CStr} (hshort : findstr.strlen < 2^32) :
    (c.hh.hashv = hashJen findstr.bytes ∧ c.hh.keylen = UInt32.ofNat findstr.strlen ∧
      (field c.val).take findstr.strlen = findstr.bytes) ↔ keyOf field c.val = findstr.bytes := by
  constructor
  · rintro ⟨-,hlen,hbytes⟩
    have hlength := congrArg UInt32.toNat hlen
    rw [h.keylen_toNat,UInt32.toNat_ofNat_of_lt' hshort] at hlength
    rw [← hbytes,← hlength,take_keyOf]
  · intro hkey
    have hlength : (keyOf field c.val).length = findstr.strlen := by rw [hkey,CStr.strlen]
    refine ⟨by rw [h.hashv,hkey],by rw [h.keylen,hlength],?_⟩
    rw [← hlength,take_keyOf,hkey]

/-- `HASH_FIND_STR` finds an element of the table with exactly that key, if there is one. -/
theorem hashFindStr_spec (h : Inv field s l) {findstr : CStr} (hshort : findstr.strlen < 2^32)
    {fuel : ℕ} (hfuel : l.length ≤ fuel) :
    ∃ out, hashFindStr field fuel s findstr = some out ∧
      (∀ p, out = some p → p ∈ l ∧ ∃ c, s.mem p = some c ∧ keyOf field c.val = findstr.bytes) ∧
      (out = none → ∀ p ∈ l, ∀ c, s.mem p = some c → keyOf field c.val ≠ findstr.bytes) := by
  have hlen : (UInt32.ofNat findstr.strlen).toNat = findstr.strlen := UInt32.toNat_ofNat_of_lt' hshort
  have hwhole : findstr.bytes.take findstr.strlen = findstr.bytes := List.take_length
  cases l with
  | nil =>
    refine ⟨none,?_,?_,?_⟩
    · rw [hashFindStr,h.head]
      rfl
    · rintro p ⟨⟩
    · rintro - p ⟨⟩
  | cons q qs =>
    obtain ⟨t,ht,hok,-,-⟩ := h.table (by simp)
    obtain ⟨b,hb⟩ := hok.filled.get hok.numBuckets_ne (hashJen findstr.bytes)
    obtain ⟨chain,hchain⟩ := hok.filled.bucket _ b hb
    have hlist : chain.length ≤ fuel :=
      (hchain.seg.nodup.subperm fun p hp => ((hchain.mem_iff p).mp hp).1).length_le.trans hfuel
    have hwalk : Chain (bktLinks E).next s.mem b.hhHead chain := by
      rw [hchain.head]
      exact hchain.seg.chain
    have hfind : hashFindStr field fuel s findstr = some (chain.find? fun p => (s.mem p).any fun c =>
        decide (c.hh.hashv = hashJen findstr.bytes ∧ c.hh.keylen = UInt32.ofNat findstr.strlen ∧
          (field c.val).take findstr.strlen = findstr.bytes)) := by
      have hsearch := findInBkt_spec field findstr.bytes (UInt32.ofNat findstr.strlen)
        (hashJen findstr.bytes) hwalk hlist
      rw [hlen,hwhole] at hsearch
      simp only [hashFindStr,h.head,List.head?_cons,hlen,hwhole,h.headTbl (by simp),ht,hb,
        Option.bind_eq_bind,Option.bind_some]
      exact hsearch
    refine ⟨_,hfind,fun p hp => ?_,fun hnone p hp c hc hkey => ?_⟩
    · have hmem := (hchain.mem_iff p).mp (List.mem_of_find?_eq_some hp)
      obtain ⟨c,hc⟩ := h.alloc hmem.1
      have hmatch := List.find?_some hp
      rw [hc,Option.any_some,decide_eq_true_eq,
        (h.hashed p hmem.1 c hc).matches_iff hshort] at hmatch
      exact ⟨hmem.1,c,hc,hmatch⟩
    · have hmatch := (h.hashed p hp c hc).matches_iff hshort |>.mpr hkey
      have hpchain : p ∈ chain := (hchain.mem_iff p).mpr ⟨hp,c,hc,by rw [hmatch.1]⟩
      have hnot := List.find?_eq_none.mp hnone p hpchain
      rw [hc,Option.any_some,decide_eq_true_eq] at hnot
      exact hnot hmatch

end Find

section Add
variable {malloc : ℕ → Bool} {fuel : ℕ}

theorem app_of_relinked {mem mem' : ℕ → Option (Element E)} {l' : List ℕ}
    (h : Seg (appLinks E) mem none l none) (hrel : Relinked (bktLinks E) mem l' mem') :
    Seg (appLinks E) mem' none l none := h.congr fun p _ => hrel.map_eq (fun _ => rfl) p

theorem tableOk_of_relinked {mem mem' : ℕ → Option (Element E)} {t : HashTable} {l' : List ℕ}
    (h : TableOk mem t l) (hrel : Relinked (appLinks E) mem l' mem') : TableOk mem' t l where
  log2_le := h.log2_le
  numBuckets := h.numBuckets
  filled := h.filled.congr fun p _ => hrel.map_eq (fun _ => rfl) p

theorem addToTable_spec (field : E → Bytes) (hmalloc : Bounded malloc) {t : HashTable}
    (hhead : s.head = (l++[p]).head?) (happ : Seg (appLinks E) s.mem none (l++[p]) none)
    (hhashed : ∀ q ∈ l++[p], ∀ c, s.mem q = some c → Hashed field c) (ht : s.tbl = some t)
    (hok : TableOk s.mem t l) (htail : t.tail = p) (hitems : t.numItems = UInt32.ofNat l.length)
    (hc : s.mem p = some c) (hfuel : l.length < fuel) :
    hashAddToTable malloc fuel s c.hh.hashv p = some .exit ∨
    ∃ s', hashAddToTable malloc fuel s c.hh.hashv p = some (.done s') ∧ Inv field s' (l++[p]) ∧
      Relinked (bktLinks E) s.mem (l++[p]) s'.mem := by
  have hp : p ∉ l := fun hp => (List.nodup_append.mp happ.nodup).2.2 p hp p List.mem_cons_self rfl
  have hperm : ∀ q, q ∈ p::l ↔ q ∈ l++[p] := fun q => by simp [or_comm]
  obtain ⟨q,hq⟩ : ∃ q, (l++[p]).head? = some q := by
    cases l <;> exact ⟨_,rfl⟩
  obtain ⟨d,hd⟩ := happ.alloc (List.mem_of_mem_head? hq)
  have htbl : s.headTbl = some t := headTbl_some (hhead.trans hq) hd ht
  have hok' : TableOk s.mem {t with numItems := t.numItems+1} l := hok.of_eq rfl rfl rfl
  simp only [hashAddToTable,htbl,Option.bind_eq_bind,Option.bind_some]
  rcases addToBkt_spec hmalloc hok' (fun q hq => happ.alloc (List.mem_append_left _ hq)) hp hc hfuel
    with hexit | ⟨mem',t',hdone,hok₂,hrel,htail',hitems'⟩
  · left
    rw [hexit]
    rfl
  · right
    rw [hdone]
    have hrel' := hrel.mono fun q hq => (hperm q).mp hq
    refine ⟨⟨mem',s.head,some t'⟩,rfl,⟨hhead,app_of_relinked happ hrel,?_,fun hnil => ?_,fun _ => ?_⟩,hrel'⟩
    · exact hashed_congr (fun q => hrel.map_eq (fun _ => rfl) q) hhashed
    · exact absurd hnil (by simp)
    · refine ⟨t',rfl,⟨hok₂.log2_le,hok₂.numBuckets,hok₂.filled.of_mem_iff hperm⟩,?_,?_⟩
      · rw [List.getLast?_append,htail',htail]
        rfl
      · rw [hitems',List.length_append,UInt32.ofNat_add,hitems]
        rfl

def rehashed (field : E → Bytes) (c : Element E) : Element E :=
  {c with hh := {c.hh with
    hashv := hashJen (keyOf field c.val)
    keylen := UInt32.ofNat (keyOf field c.val).length}}

theorem makeTable_spec (mem : ℕ → Option (Element E)) (malloc : ℕ → Bool) (p : ℕ) :
    hashMakeTable malloc p = .exit ∨ ∃ t, hashMakeTable malloc p = .done t ∧ TableOk mem t [] ∧
      t.tail = p ∧ t.numItems = 0 := by
  rw [hashMakeTable]
  split
  · split
    · exact Or.inr ⟨_,rfl,⟨by change 5 ≤ 31; decide,rfl,zeroBuckets_filled _ _⟩,rfl,rfl⟩
    · exact Or.inl rfl
  · exact Or.inl rfl

theorem addFirst_spec (hmalloc : Bounded malloc) (h : s.head = none) (hc : s.mem p = some c)
    (hshort : (keyOf field c.val).length < 2^32) (hfuel : 0 < fuel) :
    hashAddStr field malloc fuel s p = some .exit ∨
    ∃ s', hashAddStr field malloc fuel s p = some (.done s') ∧ Inv field s' [p] ∧
      ((s'.mem p).map Element.val = some c.val) ∧ ∀ q ≠ p, s'.mem q = s.mem q := by
  have hlen : (UInt32.ofNat (keyOf field c.val).length).toNat = (keyOf field c.val).length :=
    UInt32.toNat_ofNat_of_lt' hshort
  obtain ⟨c₂,hc₂,hadd⟩ : ∃ c₂ : Element E, (c₂.val = c.val ∧ Hashed field c₂ ∧ c₂.hh.next = none ∧
      c₂.hh.prev = none) ∧
      (hashMakeTable malloc p = .exit → hashAddStr field malloc fuel s p = some .exit) ∧
      ∀ t, hashMakeTable malloc p = .done t → hashAddStr field malloc fuel s p = hashAddToTable malloc
        fuel ⟨Function.update s.mem p (some c₂),some p,some t⟩ c₂.hh.hashv p := by
    refine ⟨{rehashed field c with hh := {(rehashed field c).hh with next := none, prev := none}},
      ⟨rfl,⟨hshort,rfl,rfl⟩,rfl,rfl⟩,fun hexit => ?_,fun t ht => ?_⟩
    · simp only [hashAddStr,hc,change_some hc,h,Option.bind_eq_bind,Option.bind_some,
        change_some (Function.update_self _ _ _),Function.update_idem,hexit]
    · simp only [hashAddStr,hc,hlen,take_keyOf,change_some hc,h,Option.bind_eq_bind,Option.bind_some,
        change_some (Function.update_self _ _ _),Function.update_idem,ht]
      rfl
  obtain ⟨hval,hhashed,hnext,hprev⟩ := hc₂
  obtain ⟨hnone,hsome⟩ := hadd
  rcases makeTable_spec (Function.update s.mem p (some c₂)) malloc p with hexit | ⟨t,ht,hok,htail,hitems⟩
  · exact Or.inl (hnone hexit)
  · have hcell : Function.update s.mem p (some c₂) p = some c₂ := Function.update_self _ _ _
    have hone := addToTable_spec (s:=⟨Function.update s.mem p (some c₂),some p,some t⟩) (l:=[])
      field hmalloc rfl ⟨⟨c₂,hcell,hprev,hnext⟩,trivial⟩ (fun q hq d hd => by
        obtain rfl := List.mem_singleton.mp hq
        obtain rfl := Option.some.inj (hcell.symm.trans hd)
        exact hhashed) rfl hok htail hitems hcell hfuel
    rw [hsome t ht]
    rcases hone with hexit | ⟨s',hdone,hinv,hrel⟩
    · exact Or.inl hexit
    · refine Or.inr ⟨s',hdone,hinv,?_,fun q hq => ?_⟩
      · refine (hrel.map_eq (fun _ => rfl) p).trans ?_
        change (Function.update s.mem p (some c₂) p).map Element.val = some c.val
        rw [hcell,Option.map_some,hval]
      · rw [hrel.outside q (mt List.mem_singleton.mp hq)]
        exact Function.update_of_ne hq _ _

theorem addBehind_spec (hmalloc : Bounded malloc) (h : Inv field s l) (hl : l ≠ []) (hp : p ∉ l)
    (hc : s.mem p = some c) (hshort : (keyOf field c.val).length < 2^32) (hfuel : l.length < fuel) :
    hashAddStr field malloc fuel s p = some .exit ∨
    ∃ s', hashAddStr field malloc fuel s p = some (.done s') ∧ Inv field s' (l++[p]) ∧
      (∀ q, (s'.mem q).map Element.val = (s.mem q).map Element.val) ∧
      ∀ q ∉ l++[p], s'.mem q = s.mem q := by
  have hlen : (UInt32.ofNat (keyOf field c.val).length).toNat = (keyOf field c.val).length :=
    UInt32.toNat_ofNat_of_lt' hshort
  obtain ⟨t,ht,hok,htail,hitems⟩ := h.table hl
  obtain ⟨q,hq⟩ : ∃ q, s.head = some q := by
    rw [h.head]
    exact ⟨_,List.head?_eq_some_head hl⟩
  have hqp : q ≠ p := fun he => hp (he ▸ List.mem_of_mem_head? (h.head ▸ hq))
  obtain ⟨d,hd⟩ := h.alloc (List.mem_of_mem_head? (h.head ▸ hq))
  obtain ⟨l',rfl⟩ : ∃ l', l = l'++[t.tail] := ⟨_,(List.dropLast_append_getLast? _ htail).symm⟩
  let mem₁ := Function.update s.mem p (some (rehashed field c))
  have hcell : mem₁ p = some (rehashed field c) := Function.update_self _ _ _
  have hother : ∀ q ≠ p, mem₁ q = s.mem q := fun q hq => Function.update_of_ne hq _ _
  have hsame : ∀ q ∈ l'++[t.tail], mem₁ q = s.mem q := fun q hq =>
    hother q fun he : q = p => hp (he ▸ hq)
  obtain ⟨mem₂,happend,happ,hrel⟩ := append_spec (h.app.congr_cells hsame) hp hcell
  obtain ⟨c₂,hc₂,herase⟩ := hrel.cell hcell
  have hhash : c₂.hh.hashv = hashJen (keyOf field c.val) :=
    congrArg (fun c : Element E => c.hh.hashv) herase
  have hadd : hashAddStr field malloc fuel s p =
      hashAddToTable malloc fuel ⟨mem₂,s.head,some {t with tail := p}⟩ c₂.hh.hashv p := by
    have htbl : State.headTbl {s with mem := mem₁} = some t :=
      headTbl_some hq ((hother q hqp).trans hd) ht
    rw [hhash]
    simp only [hashAddStr,hc,hlen,take_keyOf,change_some hc,hq,Option.bind_eq_bind,Option.bind_some]
    rw [hq] at htbl
    exact (congrArg (Option.bind · _) htbl).trans (congrArg (Option.bind · _) happend)
  have hvals : ∀ q, (mem₂ q).map Element.val = (s.mem q).map Element.val := by
    intro q
    rw [hrel.map_eq (fun _ => rfl) q]
    by_cases he : q = p
    · rw [he,hcell,hc]
      rfl
    · rw [hother q he]
  have hhashed₁ : ∀ q ∈ l'++[t.tail]++[p], ∀ c, mem₁ q = some c → Hashed field c := by
    intro q hq d hd
    rcases List.mem_append.mp hq with hq | hq
    · rw [hsame q hq] at hd
      exact h.hashed q hq d hd
    · obtain rfl := List.mem_singleton.mp hq
      obtain rfl := Option.some.inj (hcell.symm.trans hd)
      exact ⟨hshort,rfl,rfl⟩
  have hok₁ : TableOk mem₁ {t with tail := p} (l'++[t.tail]) :=
    ⟨hok.log2_le,hok.numBuckets,hok.filled.congr fun q hq => by rw [hsame q hq]⟩
  have hhead : s.head = (l'++[t.tail]++[p]).head? := by
    rw [h.head]
    cases l' <;> rfl
  rw [hadd]
  rcases addToTable_spec (s:=⟨mem₂,s.head,some {t with tail := p}⟩) field hmalloc hhead happ
    (hashed_congr (fun q => hrel.map_eq (fun _ => rfl) q) hhashed₁) rfl
    (tableOk_of_relinked hok₁ hrel) rfl hitems hc₂ hfuel with hexit | ⟨s',hdone,hinv,hrel'⟩
  · exact Or.inl hexit
  · refine Or.inr ⟨s',hdone,hinv,fun q => ?_,fun q hq => ?_⟩
    · rw [hrel'.map_eq (fun _ => rfl) q,hvals q]
    · have hqp : q ≠ p := fun he => hq (List.mem_append_right _ (by rw [he]; exact List.mem_cons_self))
      exact (hrel'.outside q hq).trans ((hrel.outside q hq).trans (hother q hqp))

/-- `HASH_ADD_STR` puts an element behind the others, whatever key it has, unless the process ends
for lack of memory. -/
theorem hashAddStr_spec (hmalloc : Bounded malloc) (h : Inv field s l) (hp : p ∉ l)
    (hc : s.mem p = some c) (hshort : (keyOf field c.val).length < 2^32) (hfuel : l.length < fuel) :
    hashAddStr field malloc fuel s p = some .exit ∨
    ∃ s', hashAddStr field malloc fuel s p = some (.done s') ∧ Inv field s' (l++[p]) ∧
      (∀ q, (s'.mem q).map Element.val = (s.mem q).map Element.val) ∧
      ∀ q ∉ l++[p], s'.mem q = s.mem q := by
  cases l with
  | nil =>
    rcases addFirst_spec hmalloc h.head hc hshort hfuel with hexit | ⟨s',hdone,hinv,hval,hframe⟩
    · exact Or.inl hexit
    · refine Or.inr ⟨s',hdone,hinv,fun q => ?_,fun q hq => hframe q (mt List.mem_singleton.mpr hq)⟩
      by_cases he : q = p
      · rw [he,hval,hc,Option.map_some]
      · rw [hframe q he]
  | cons q qs => exact addBehind_spec hmalloc h (by simp) hp hc hshort hfuel

end Add

section Delete

/-- `HASH_DEL` takes an element out and leaves the others in their order; it frees the table with
the last one. -/
theorem hashDel_spec {l₁ l₂ : List ℕ} (h : Inv field s (l₁++p::l₂)) :
    ∃ s', hashDel s p = some s' ∧ Inv field s' (l₁++l₂) ∧
      (∀ q, (s'.mem q).map Element.val = (s.mem q).map Element.val) ∧
      ∀ q ∉ l₁++l₂, s'.mem q = s.mem q := by
  have hne : l₁++p::l₂ ≠ [] := by simp
  have hp : p ∈ l₁++p::l₂ := List.mem_append_right _ List.mem_cons_self
  have hout : p ∉ l₁++l₂ := (List.nodup_cons.mp (List.nodup_middle.mp h.app.nodup)).1
  have hl : ∀ q, q ∈ l₁++l₂ ↔ q ∈ l₁++p::l₂ ∧ q ≠ p := by
    intro q
    have hsub : q ∈ l₁++l₂ → q ≠ p := fun hq he => hout (he ▸ hq)
    rw [List.mem_append] at hsub ⊢
    rw [List.mem_append,List.mem_cons]
    tauto
  obtain ⟨t,ht,hok,htail,hitems⟩ := h.table hne
  obtain ⟨-,⟨c,hc,hprev,hnext⟩,-⟩ := seg_append.mp h.app
  rw [Option.or_none] at hprev hnext
  have hheadTbl : s.headTbl = some t := (h.headTbl hne).trans ht
  by_cases hsole : l₁ = [] ∧ l₂ = []
  · obtain ⟨rfl,rfl⟩ := hsole
    refine ⟨{s with head := none, tbl := none},?_,⟨rfl,trivial,(fun q hq => nomatch hq),fun _ => rfl,
      fun hnil => absurd rfl hnil⟩,fun _ => rfl,fun _ _ => rfl⟩
    simp only [hashDel,hc,hheadTbl,Option.bind_eq_bind,Option.bind_some]
    exact if_pos ⟨hprev,hnext⟩
  · have hrest : l₁++l₂ ≠ [] := fun hnil => hsole (List.append_eq_nil_iff.mp hnil)
    have hlinked : ¬ (c.hh.prev = none ∧ c.hh.next = none) := by
      change ¬ ((appLinks E).prev c = none ∧ (appLinks E).next c = none)
      rw [hprev,hnext,List.getLast?_eq_none_iff,List.head?_eq_none_iff]
      exact hsole
    have htail' : (if p = t.tail then c.hh.prev else some t.tail) = (l₁++l₂).getLast? := by
      rw [List.getLast?_append] at htail ⊢
      cases l₂ with
      | nil =>
        obtain rfl : p = t.tail := Option.some.inj htail
        exact (if_pos rfl).trans hprev
      | cons q qs =>
        have hlast : (q::qs).getLast? = some t.tail := by
          rw [List.getLast?_cons_cons,List.getLast?_cons] at htail
          rw [List.getLast?_cons]
          exact htail
        have hpt : p ≠ t.tail := fun he =>
          hout (List.mem_append_right _ (he ▸ List.mem_of_getLast? hlast))
        rw [if_neg hpt,hlast]
        rfl
    have hhead' : (if c.hh.prev ≠ none then s.head else c.hh.next) = (l₁++l₂).head? := by
      change (if (appLinks E).prev c ≠ none then s.head else (appLinks E).next c) = _
      rw [hprev,hnext,h.head]
      cases l₁ with
      | nil => rfl
      | cons q qs => exact if_pos (by simp [List.getLast?_cons])
    obtain ⟨mem₁,hunlink₁,happ₁,hrel₁⟩ := unlink_spec h.app
    have hok₁ := tableOk_of_relinked hok hrel₁
    have hc₁ : mem₁ p = some c := (hrel₁.outside p hout).trans hc
    obtain ⟨b,mem₂,hb,hunlink₂,hrel₂,hfilled⟩ := hok₁.filled.remove hok₁.numBuckets_ne hp hc₁ hl
    obtain ⟨q,hq⟩ : ∃ q, (l₁++l₂).head? = some q := ⟨_,List.head?_eq_some_head hrest⟩
    obtain ⟨tail,htl⟩ : ∃ tail, (l₁++l₂).getLast? = some tail := ⟨_,List.getLast?_eq_some_getLast hrest⟩
    obtain ⟨d,hd⟩ := happ₁.alloc (List.mem_of_mem_head? hq)
    have hvals : ∀ q, (mem₂ q).map unlinked = (s.mem q).map unlinked := fun q =>
      (hrel₂.map_eq (fun _ => rfl) q).trans (hrel₁.map_eq (fun _ => rfl) q)
    refine ⟨⟨mem₂,some q,some {t with
        buckets := t.buckets.set (hashToBkt c.hh.hashv t.numBuckets)
          ⟨if b.hhHead = some p then c.hh.hhNext else b.hhHead,b.count-1,b.expandMult⟩
        tail := tail
        numItems := t.numItems-1}⟩,?_,⟨hq.symm,app_of_relinked happ₁ hrel₂,
      hashed_congr hvals fun q hq => h.hashed q ((hl q).mp hq).1,fun hnil => absurd hnil hrest,
      fun _ => ⟨_,rfl,⟨hok₁.log2_le,hok₁.numBuckets,hfilled⟩,htl,?_⟩⟩,fun q => ?_,fun q hq => ?_⟩
    · have htbl : State.headTbl ⟨mem₁,some q,some {t with tail := tail}⟩ = some {t with tail := tail} :=
        headTbl_some rfl hd rfl
      simp only [hashDel,hc,hheadTbl,if_neg hlinked,htail',hhead',htl,hq,hunlink₁,htbl,hb,hunlink₂,
        Option.bind_eq_bind,Option.bind_some]
    · change t.numItems-1 = _
      rw [hitems,List.length_append,List.length_append,List.length_cons,← Nat.add_assoc,
        UInt32.ofNat_add]
      exact UInt32.add_sub_cancel _ _
    · exact (hrel₂.map_eq (fun _ => rfl) q).trans (hrel₁.map_eq (fun _ => rfl) q)
    · exact (hrel₂.outside q hq).trans (hrel₁.outside q hq)

end Delete

section Exit
variable {malloc : ℕ → Bool} {fuel : ℕ}

/-- A size that an addition asks for: the table and its buckets for the first element, twice the buckets
else. -/
def Asks (s : State E) (size : ℕ) : Prop :=
  (s.head = none ∧ (size = sizeofTable ∨ size = sizeofBucket*hashInitialNumBuckets.toNat)) ∨
    ∃ t, s.head ≠ none ∧ s.tbl = some t ∧ size = sizeofBucket*t.numBuckets.toNat*2

theorem tbl_of_headTbl {s : State E} {t : HashTable} (h : s.headTbl = some t) : s.tbl = some t := by
  simp only [State.headTbl,Option.bind_eq_bind,Option.bind_eq_some_iff] at h
  obtain ⟨-,-,-,-,h⟩ := h
  exact h

theorem hashAddToBkt_exit {mem : ℕ → Option (Element E)} {t : HashTable} {bkt add : ℕ}
    (h : hashAddToBkt malloc fuel mem t bkt add = some .exit) :
    (∃ b, t.buckets[bkt]? = some b ∧ (b.expandMult+1)*hashBktCapacityThresh ≤ b.count+1) ∧
      malloc (sizeofBucket*t.numBuckets.toNat*2) = false := by
  simp only [hashAddToBkt,Option.bind_eq_bind,Option.bind_eq_some_iff] at h
  obtain ⟨b,hb,mem',-,h⟩ := h
  by_cases hfull : (b.expandMult+1)*hashBktCapacityThresh ≤ b.count+1 ∧ t.noexpand = 0
  · rw [if_pos hfull,hashExpandBuckets] at h
    refine ⟨⟨b,hb,hfull.1⟩,?_⟩
    by_contra hroom
    rw [Bool.not_eq_false] at hroom
    rw [if_pos hroom] at h
    simp only [Option.bind_eq_bind,Option.bind_eq_some_iff] at h
    obtain ⟨m,-,h⟩ := h
    cases h
  · rw [if_neg hfull] at h
    cases h

theorem hashAddToTable_exit {s : State E} {hashv : UInt32} {add : ℕ}
    (h : hashAddToTable malloc fuel s hashv add = some .exit) : ∃ t, s.tbl = some t ∧
      (∃ b ∈ t.buckets, (b.expandMult+1)*hashBktCapacityThresh ≤ b.count+1) ∧
      malloc (sizeofBucket*t.numBuckets.toNat*2) = false := by
  simp only [hashAddToTable,Option.bind_eq_bind,Option.bind_eq_some_iff] at h
  obtain ⟨t,ht,r,hr,h⟩ := h
  have htbl := tbl_of_headTbl ht
  cases r with
  | done r => cases h
  | exit =>
    obtain ⟨⟨b,hb,hfull⟩,hroom⟩ := hashAddToBkt_exit hr
    exact ⟨t,htbl,⟨b,List.mem_of_getElem? hb,hfull⟩,hroom⟩

theorem hashAddStr_exit {s : State E} {add : ℕ}
    (h : hashAddStr field malloc fuel s add = some .exit) : ∃ size, Asks s size ∧ malloc size = false := by
  simp only [hashAddStr,Option.bind_eq_bind,Option.bind_eq_some_iff] at h
  obtain ⟨c,-,mem,-,h⟩ := h
  cases hhead : s.head with
  | some p =>
    simp only [hhead,Option.bind_eq_some_iff] at h
    obtain ⟨t,ht,mem',-,h⟩ := h
    obtain ⟨t',ht',-,hroom⟩ := hashAddToTable_exit h
    have htbl := tbl_of_headTbl ht
    obtain rfl := Option.some.inj ht'
    exact ⟨_,Or.inr ⟨t,by simp [hhead],htbl,rfl⟩,hroom⟩
  | none =>
    simp only [hhead,Option.bind_eq_some_iff] at h
    obtain ⟨mem',-,h⟩ := h
    by_cases htable : malloc sizeofTable = true
    · by_cases hbuckets : malloc (sizeofBucket*hashInitialNumBuckets.toNat) = true
      · rw [hashMakeTable,if_pos htable,if_pos hbuckets] at h
        obtain ⟨t,ht,⟨b,hb,hfull⟩,-⟩ := hashAddToTable_exit h
        obtain rfl := Option.some.inj ht
        rw [List.eq_of_mem_replicate hb] at hfull
        exact absurd hfull (by decide)
      · exact ⟨_,Or.inl ⟨hhead,Or.inr rfl⟩,Bool.eq_false_iff.mpr hbuckets⟩
    · exact ⟨_,Or.inl ⟨hhead,Or.inl rfl⟩,Bool.eq_false_iff.mpr htable⟩

end Exit

end UtHashTable
end IotBase
