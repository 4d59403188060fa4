import IotBase.UtHash

/-! The buckets of a hash table: which elements they hold, and that adding an element and doubling
the number of buckets lose none. -/
namespace IotBase
namespace UtHashBuckets
open RawBytes CString BlockHeap DoubleLinks UtHash

variable {E : Type}

def InBkt (mem : ℕ → Option (Element E)) (n : UInt32) (i p : ℕ) : Prop :=
  ∃ c, mem p = some c ∧ hashToBkt c.hh.hashv n = i

/-- The bucket `i` of `n` links those elements of `l` that belong into it. -/
structure BucketOk (mem : ℕ → Option (Element E)) (n : UInt32) (l : List ℕ) (i : ℕ) (b : HashBucket)
    (chain : List ℕ) : Prop where
  seg : Seg (bktLinks E) mem none chain none
  head : b.hhHead = chain.head?
  count : b.count = UInt32.ofNat chain.length
  mem_iff : ∀ p, p ∈ chain ↔ p ∈ l ∧ InBkt mem n i p

structure Filled (mem : ℕ → Option (Element E)) (bs : List HashBucket) (n : UInt32) (l : List ℕ) :
    Prop where
  length : bs.length = n.toNat
  bucket : ∀ i b, bs[i]? = some b → ∃ chain, BucketOk mem n l i b chain

def bktFields (c : Element E) : Option ℕ × Option ℕ × UInt32 := (c.hh.hhPrev,c.hh.hhNext,c.hh.hashv)

variable {mem mem' : ℕ → Option (Element E)} {n : UInt32} {l l' : List ℕ} {p : ℕ} {c : Element E}

theorem hashToBkt_lt {n : UInt32} (hn : n ≠ 0) (hashv : UInt32) : hashToBkt hashv n < n.toNat := by
  have hpos : 0 < n.toNat := Nat.pos_of_ne_zero fun h => hn (UInt32.toNat_inj.mp h)
  have hpred : (n-1).toNat = n.toNat-1 := by
    have hle : (1 : UInt32) ≤ n := UInt32.le_iff_toNat_le.mpr hpos
    rw [UInt32.toNat_sub_of_le _ _ hle]
    rfl
  have hand : (hashv &&& (n-1)).toNat ≤ (n-1).toNat := by
    rw [UInt32.toNat_and]
    exact Nat.and_le_right
  rw [hashToBkt]
  omega

theorem inBkt_congr (h : (mem' p).map (fun c => c.hh.hashv) = (mem p).map fun c => c.hh.hashv)
    {i : ℕ} : InBkt mem' n i p ↔ InBkt mem n i p := by
  have hashed : ∀ m : ℕ → Option (Element E), InBkt m n i p ↔
      ((m p).map fun c => c.hh.hashv).any fun hashv => decide (hashToBkt hashv n = i) := by
    intro m
    cases hm : m p with
    | none => simp [InBkt,hm]
    | some c => simp [InBkt,hm]
  rw [hashed,hashed,h]

theorem BucketOk.congr {i : ℕ} {b : HashBucket} {chain : List ℕ} (h : BucketOk mem n l i b chain)
    (hmem : ∀ p ∈ l, (mem' p).map bktFields = (mem p).map bktFields) :
    BucketOk mem' n l i b chain where
  seg := by
    refine h.seg.congr fun p hp => ?_
    have hp := congrArg (Option.map fun f => (f.1,f.2.1)) (hmem p ((h.mem_iff p).mp hp).1)
    rw [Option.map_map,Option.map_map] at hp
    exact hp
  head := h.head
  count := h.count
  mem_iff p := by
    rw [h.mem_iff p]
    refine and_congr_right fun hp => (inBkt_congr ?_).symm
    have hp := congrArg (Option.map fun f => f.2.2) (hmem p hp)
    rw [Option.map_map,Option.map_map] at hp
    exact hp

theorem Filled.congr {bs : List HashBucket} (h : Filled mem bs n l)
    (hmem : ∀ p ∈ l, (mem' p).map bktFields = (mem p).map bktFields) : Filled mem' bs n l where
  length := h.length
  bucket i b hb := by
    obtain ⟨chain,hchain⟩ := h.bucket i b hb
    exact ⟨chain,hchain.congr hmem⟩

theorem Filled.of_mem_iff {bs : List HashBucket} (h : Filled mem bs n l) (hl : ∀ p, p ∈ l ↔ p ∈ l') :
    Filled mem bs n l' where
  length := h.length
  bucket i b hb := by
    obtain ⟨chain,hchain⟩ := h.bucket i b hb
    exact ⟨chain,hchain.seg,hchain.head,hchain.count,fun p => by rw [hchain.mem_iff p,hl p]⟩

theorem Filled.get {bs : List HashBucket} (h : Filled mem bs n l) (hn : n ≠ 0) (hashv : UInt32) :
    ∃ b, bs[hashToBkt hashv n]? = some b :=
  ⟨_,List.getElem?_eq_getElem (h.length ▸ hashToBkt_lt hn hashv)⟩

theorem zeroBuckets_filled (mem : ℕ → Option (Element E)) (n : UInt32) :
    Filled mem (zeroBuckets n) n [] where
  length := List.length_replicate
  bucket i b hb := by
    rw [List.eq_of_mem_replicate (List.mem_of_getElem? hb)]
    exact ⟨[],trivial,rfl,rfl,fun p => by simp⟩

theorem Filled.push {bs : List HashBucket} (h : Filled mem bs n l) (hn : n ≠ 0) (hp : p ∉ l)
    (hc : mem p = some c) :
    ∃ b mem', bs[hashToBkt c.hh.hashv n]? = some b ∧
      pushFront (bktLinks E) mem p b.hhHead = some mem' ∧ Relinked (bktLinks E) mem (p::l) mem' ∧
      ∀ mult, Filled mem' (bs.set (hashToBkt c.hh.hashv n) ⟨some p,b.count+1,mult⟩) n (p::l) := by
  obtain ⟨b,hb⟩ := h.get hn c.hh.hashv
  obtain ⟨chain,hchain⟩ := h.bucket _ b hb
  have hpchain : p ∉ chain := fun hmem => hp ((hchain.mem_iff p).mp hmem).1
  obtain ⟨mem',hpush,hseg,hrel⟩ := pushFront_spec hchain.seg hpchain hc
  have hmembers : ∀ q ∈ p::chain, q ∈ p::l := by
    intro q hq
    rcases List.mem_cons.mp hq with rfl | hq
    · exact List.mem_cons_self
    · exact List.mem_cons_of_mem _ ((hchain.mem_iff q).mp hq).1
  refine ⟨b,mem',hb,by rw [hchain.head,hpush],⟨hrel.erase,fun q hq => hrel.outside q fun hq' =>
    hq (hmembers q hq')⟩,fun mult => ⟨by rw [List.length_set,h.length],fun i b' hb' => ?_⟩⟩
  by_cases hi : hashToBkt c.hh.hashv n = i
  · subst hi
    have hlt : hashToBkt c.hh.hashv n < bs.length := (List.getElem?_eq_some_iff.mp hb).1
    rw [List.getElem?_set_self hlt] at hb'
    cases hb'
    refine ⟨p::chain,hseg,rfl,?_,fun q => ?_⟩
    · rw [hchain.count,List.length_cons,UInt32.ofNat_add]
      rfl
    · rw [List.mem_cons,hchain.mem_iff q,inBkt_congr (hrel.map_eq (fun _ => rfl) q),List.mem_cons,or_and_right]
      refine or_congr_left ⟨fun hq => ⟨hq,c,?_,rfl⟩,And.left⟩
      rw [hq,hc]
  · rw [List.getElem?_set_ne hi] at hb'
    obtain ⟨other,hother⟩ := h.bucket i b' hb'
    have hapart : ∀ q ∈ other, q ∉ p::chain := by
      intro q hq hq'
      obtain ⟨hql,d,hd,hdi⟩ := (hother.mem_iff q).mp hq
      rcases List.mem_cons.mp hq' with rfl | hq'
      · exact hp hql
      · obtain ⟨-,d',hd',hdb⟩ := (hchain.mem_iff q).mp hq'
        rw [hd] at hd'
        cases hd'
        exact hi (hdb.symm.trans hdi)
    refine ⟨other,hother.seg.congr_cells fun q hq => hrel.outside q (hapart q hq),hother.head,
      hother.count,fun q => ?_⟩
    rw [hother.mem_iff q,inBkt_congr (hrel.map_eq (fun _ => rfl) q),List.mem_cons]
    refine ⟨fun hq => ⟨Or.inr hq.1,hq.2⟩,fun hq => ⟨hq.1.resolve_left ?_,hq.2⟩⟩
    rintro rfl
    obtain ⟨d,hd,hdi⟩ := hq.2
    rw [hc] at hd
    cases hd
    exact hi hdi

theorem Filled.remove {bs : List HashBucket} (h : Filled mem bs n l) (hn : n ≠ 0) (hp : p ∈ l)
    (hc : mem p = some c) (hl : ∀ q, q ∈ l' ↔ q ∈ l ∧ q ≠ p) :
    ∃ b mem', bs[hashToBkt c.hh.hashv n]? = some b ∧ unlink (bktLinks E) mem p = some mem' ∧
      Relinked (bktLinks E) mem l' mem' ∧
      Filled mem' (bs.set (hashToBkt c.hh.hashv n)
        ⟨if b.hhHead = some p then c.hh.hhNext else b.hhHead,b.count-1,b.expandMult⟩) n l' := by
  obtain ⟨b,hb⟩ := h.get hn c.hh.hashv
  obtain ⟨chain,hchain⟩ := h.bucket _ b hb
  obtain ⟨l₁,l₂,rfl⟩ := List.append_of_mem ((hchain.mem_iff p).mpr ⟨hp,c,hc,rfl⟩)
  obtain ⟨hp₁,hp₂⟩ : p ∉ l₁ ∧ p ∉ l₂ := by
    have hperm := (List.nodup_middle.mp hchain.seg.nodup)
    rw [List.nodup_cons,List.mem_append,not_or] at hperm
    exact hperm.1
  have hchained : ∀ q, q ∈ l₁++l₂ ↔ q ∈ l₁++p::l₂ ∧ q ≠ p := by
    intro q
    rw [List.mem_append,List.mem_append,List.mem_cons]
    constructor
    · rintro (hq | hq)
      · exact ⟨Or.inl hq,fun he => hp₁ (he ▸ hq)⟩
      · exact ⟨Or.inr (Or.inr hq),fun he => hp₂ (he ▸ hq)⟩
    · rintro ⟨hq | rfl | hq,hne⟩
      · exact Or.inl hq
      · exact absurd rfl hne
      · exact Or.inr hq
  obtain ⟨mem',hunlink,hseg,hrel⟩ := unlink_spec hchain.seg
  refine ⟨b,mem',hb,hunlink,⟨hrel.erase,fun q hq => hrel.outside q fun hq' => hq ?_⟩,
    by rw [List.length_set,h.length],fun i b' hb' => ?_⟩
  · obtain ⟨hq',hne⟩ := (hchained q).mp hq'
    exact (hl q).mpr ⟨((hchain.mem_iff q).mp hq').1,hne⟩
  by_cases hi : hashToBkt c.hh.hashv n = i
  · subst hi
    have hlt : hashToBkt c.hh.hashv n < bs.length := (List.getElem?_eq_some_iff.mp hb).1
    rw [List.getElem?_set_self hlt] at hb'
    cases hb'
    refine ⟨l₁++l₂,hseg,?_,?_,fun q => ?_⟩
    · obtain ⟨-,⟨d,hd,-,hnext⟩,-⟩ := seg_append.mp hchain.seg
      obtain rfl : c = d := Option.some.inj (hc.symm.trans hd)
      rw [hchain.head]
      cases l₁ with
      | nil => exact (if_pos rfl).trans (hnext.trans (Option.or_none ..))
      | cons q qs => exact if_neg fun he : some q = some p => hp₁ (Option.some.inj he ▸ List.mem_cons_self)
    · change b.count-1 = _
      rw [hchain.count,List.length_append,List.length_append,List.length_cons,← Nat.add_assoc,
        UInt32.ofNat_add]
      exact UInt32.add_sub_cancel _ _
    · rw [hchained q,hchain.mem_iff q,inBkt_congr (hrel.map_eq (fun _ => rfl) q),hl q]
      exact and_right_comm
  · rw [List.getElem?_set_ne hi] at hb'
    obtain ⟨other,hother⟩ := h.bucket i b' hb'
    have hapart : ∀ q ∈ other, q ∉ l₁++p::l₂ := by
      intro q hq hq'
      obtain ⟨-,d,hd,hdi⟩ := (hother.mem_iff q).mp hq
      obtain ⟨-,d',hd',hdb⟩ := (hchain.mem_iff q).mp hq'
      obtain rfl : d = d' := Option.some.inj (hd.symm.trans hd')
      exact hi (hdb.symm.trans hdi)
    refine ⟨other,hother.seg.congr_cells fun q hq => hrel.outside q fun hq' =>
      hapart q hq ((hchained q).mp hq').1,hother.head,hother.count,fun q => ?_⟩
    rw [hother.mem_iff q,inBkt_congr (hrel.map_eq (fun _ => rfl) q),hl q,and_right_comm]
    refine (and_iff_left_of_imp fun hq he => hi ?_).symm
    obtain ⟨-,d,hd,hdi⟩ := hq
    obtain rfl : c = d := Option.some.inj (hc.symm.trans (he ▸ hd))
    exact hdi

section Expand
variable (idealChainMaxlen : UInt32) {fuel : ℕ}

theorem moveChain_spec (hn : n ≠ 0) {m : Move E} {held rest : List ℕ} {head : Option ℕ}
    (hfilled : Filled m.mem m.newBuckets n held) (hchain : Chain (bktLinks E).next m.mem head rest)
    (hnodup : (rest++held).Nodup) (hfuel : rest.length ≤ fuel) :
    ∃ m', moveChain idealChainMaxlen n fuel head m = some m' ∧
      Filled m'.mem m'.newBuckets n (rest++held) ∧ Relinked (bktLinks E) m.mem (rest++held) m'.mem := by
  induction rest generalizing m held head fuel with
  | nil =>
    obtain rfl : head = none := hchain
    exact ⟨m,by rw [moveChain],hfilled,Relinked.refl _ _ _⟩
  | cons p ps ih =>
    obtain ⟨rfl,c,hc,hrest⟩ := hchain
    obtain ⟨fuel,rfl⟩ : ∃ k, fuel = k+1 := ⟨fuel-1,by simp only [List.length_cons] at hfuel; omega⟩
    rw [List.cons_append,List.nodup_cons,List.mem_append,not_or] at hnodup
    obtain ⟨⟨hps,hheld⟩,hnodup⟩ := hnodup
    obtain ⟨b,mem',hb,hpush,hrel,hset⟩ := hfilled.push hn hheld hc
    have hmiddle : ((ps++(p::held)).Nodup) := List.nodup_middle.mpr
      (List.nodup_cons.mpr ⟨by simp [hps,hheld],hnodup⟩)
    have hrest' : Chain (bktLinks E).next mem' c.hh.hhNext ps := hrest.congr fun q hq => by
      refine hrel.outside q fun hq' => ?_
      rcases List.mem_cons.mp hq' with rfl | hq'
      · exact hps hq
      · exact (List.nodup_append.mp hnodup).2.2 q hq q hq' rfl
    obtain ⟨m',hmove,hfilled',hrel'⟩ := ih (m:=⟨mem',m.newBuckets.set _ ⟨some p,_,_⟩,_⟩) (hset _) hrest'
      hmiddle (Nat.le_of_succ_le_succ hfuel)
    have hperm : ∀ q, q ∈ ps++(p::held) ↔ q ∈ p::ps++held := fun q => by simp [or_left_comm]
    refine ⟨m',?_,hfilled'.of_mem_iff hperm,?_⟩
    · have hcount : (joinCounts idealChainMaxlen m.nonidealItems b).1 = b.count+1 := by
        simp only [joinCounts]
        split <;> rfl
      simp only [moveChain,hc,hb,hpush,Option.bind_eq_bind,Option.bind_some]
      rw [hcount]
      exact hmove
    · refine Relinked.trans (hrel.mono fun q hq => ?_) (hrel'.mono fun q hq => (hperm q).mp hq)
      exact (hperm q).mp (List.mem_append_right _ hq)

theorem moveBuckets_spec (hn : n ≠ 0) {mem₀ : ℕ → Option (Element E)} {bs : List HashBucket}
    {cs : List (List ℕ)} {m : Move E} {held : List ℕ} (hfilled : Filled m.mem m.newBuckets n held)
    (hchains : List.Forall₂ (fun b chain => Chain (bktLinks E).next mem₀ b.hhHead chain) bs cs)
    (hsame : ∀ p ∈ cs.flatten, m.mem p = mem₀ p) (hnodup : (cs.flatten++held).Nodup)
    (hfuel : ∀ chain ∈ cs, chain.length ≤ fuel) :
    ∃ m', moveBuckets fuel idealChainMaxlen n bs m = some m' ∧
      Filled m'.mem m'.newBuckets n (cs.flatten++held) ∧
      Relinked (bktLinks E) m.mem (cs.flatten++held) m'.mem := by
  induction hchains generalizing m held with
  | nil => exact ⟨m,rfl,hfilled,Relinked.refl _ _ _⟩
  | @cons b chain bs cs hchain _ ih =>
    rw [List.flatten_cons] at hsame hnodup ⊢
    have hchain' := hchain.congr fun q hq => hsame q (List.mem_append_left _ hq)
    have hperm : ∀ q, q ∈ cs.flatten++(chain++held) ↔ q ∈ chain++cs.flatten++held := fun q => by
      simp [or_left_comm]
    have hnodup' : (cs.flatten++(chain++held)).Nodup := by
      rw [← List.append_assoc]
      exact (List.perm_append_comm.append_right held).nodup_iff.mp hnodup
    obtain ⟨m₁,hmove,hfilled₁,hrel₁⟩ := moveChain_spec idealChainMaxlen hn hfilled hchain'
      (List.nodup_append.mp hnodup').2.1 (hfuel chain List.mem_cons_self)
    obtain ⟨m₂,hmoves,hfilled₂,hrel₂⟩ := ih hfilled₁ (fun q hq => by
      have hout : q ∉ chain++held := fun hq' => (List.nodup_append.mp hnodup').2.2 q hq q hq' rfl
      rw [hrel₁.outside q hout,hsame q (List.mem_append_right _ hq)]) hnodup'
      fun chain hchain => hfuel chain (List.mem_cons_of_mem _ hchain)
    refine ⟨m₂,?_,hfilled₂.of_mem_iff hperm,?_⟩
    · rw [moveBuckets,hmove]
      exact hmoves
    · exact (hrel₁.mono fun q hq => (hperm q).mp (List.mem_append_right _ hq)).trans
        (hrel₂.mono fun q hq => (hperm q).mp hq)

theorem Filled.chains {bs : List HashBucket} (h : Filled mem bs n l) (hn : n ≠ 0)
    (halloc : ∀ p ∈ l, ∃ c, mem p = some c) :
    ∃ cs, List.Forall₂ (fun b chain => Seg (bktLinks E) mem none chain none ∧
        b.hhHead = chain.head? ∧ b.count = UInt32.ofNat chain.length) bs cs ∧
      cs.flatten.Nodup ∧ (∀ p, p ∈ cs.flatten ↔ p ∈ l) ∧ ∀ chain ∈ cs, chain.length ≤ l.length := by
  have hchain : ∀ i, ∃ chain, ∀ b, bs[i]? = some b → BucketOk mem n l i b chain := by
    intro i
    cases hi : bs[i]? with
    | none => exact ⟨[],fun b hb => nomatch hb⟩
    | some b =>
      obtain ⟨chain,hchain⟩ := h.bucket i b hi
      exact ⟨chain,fun b' hb' => Option.some.inj hb' ▸ hchain⟩
  choose chain hchain using hchain
  have hok : ∀ i (hi : i < bs.length), BucketOk mem n l i bs[i] (chain i) := fun i hi =>
    hchain i bs[i] (List.getElem?_eq_getElem hi)
  refine ⟨(List.range bs.length).map chain,?_,?_,?_,?_⟩
  · refine List.forall₂_iff_get.mpr ⟨by simp,fun i hi _ => ?_⟩
    have hb := hok i hi
    simp only [List.get_eq_getElem,List.getElem_map,List.getElem_range]
    exact ⟨hb.seg,hb.head,hb.count⟩
  · refine List.nodup_flatten.mpr ⟨fun ps hps => ?_,List.pairwise_map.mpr ?_⟩
    · obtain ⟨i,hi,rfl⟩ := List.mem_map.mp hps
      exact (hok i (List.mem_range.mp hi)).seg.nodup
    · refine List.nodup_range.imp_of_mem fun {i j} hi hj hij => List.disjoint_left.mpr ?_
      intro p hpi hpj
      obtain ⟨-,c,hc,hi'⟩ := ((hok i (List.mem_range.mp hi)).mem_iff p).mp hpi
      obtain ⟨-,d,hd,hj'⟩ := ((hok j (List.mem_range.mp hj)).mem_iff p).mp hpj
      obtain rfl : c = d := Option.some.inj (hc.symm.trans hd)
      exact hij (hi'.symm.trans hj')
  · intro p
    constructor
    · intro hp
      obtain ⟨ps,hps,hp⟩ := List.mem_flatten.mp hp
      obtain ⟨i,hi,rfl⟩ := List.mem_map.mp hps
      exact (((hok i (List.mem_range.mp hi)).mem_iff p).mp hp).1
    · intro hp
      obtain ⟨c,hc⟩ := halloc p hp
      have hi : hashToBkt c.hh.hashv n < bs.length := h.length ▸ hashToBkt_lt hn _
      exact List.mem_flatten.mpr ⟨_,List.mem_map.mpr ⟨_,List.mem_range.mpr hi,rfl⟩,
        ((hok _ hi).mem_iff p).mpr ⟨hp,c,hc,rfl⟩⟩
  · intro ps hps
    obtain ⟨i,hi,rfl⟩ := List.mem_map.mp hps
    have hb := hok i (List.mem_range.mp hi)
    exact (hb.seg.nodup.subperm fun p hp => ((hb.mem_iff p).mp hp).1).length_le

end Expand

section Table

/-- No allocation of 64 GiB or more can be had. -/
def Bounded (malloc : ℕ → Bool) : Prop := ∀ size, 2^36 ≤ size → malloc size = false

/-- The table has a power of two of buckets, which hold the elements of `l`. -/
structure TableOk (mem : ℕ → Option (Element E)) (t : HashTable) (l : List ℕ) : Prop where
  log2_le : t.log2NumBuckets.toNat ≤ 31
  numBuckets : t.numBuckets.toNat = 2^t.log2NumBuckets.toNat
  filled : Filled mem t.buckets t.numBuckets l

variable {t : HashTable} {malloc : ℕ → Bool} {fuel : ℕ}

theorem TableOk.numBuckets_ne (h : TableOk mem t l) : t.numBuckets ≠ 0 := by
  intro hzero
  have hpow := h.numBuckets
  rw [hzero] at hpow
  exact absurd hpow (Nat.ne_of_lt (Nat.two_pow_pos _))

theorem TableOk.of_eq {t' : HashTable} (h : TableOk mem t l) (hbuckets : t'.buckets = t.buckets)
    (hnum : t'.numBuckets = t.numBuckets) (hlog : t'.log2NumBuckets = t.log2NumBuckets) :
    TableOk mem t' l where
  log2_le := by
    rw [hlog]
    exact h.log2_le
  numBuckets := by
    rw [hnum,hlog]
    exact h.numBuckets
  filled := by
    rw [hbuckets,hnum]
    exact h.filled

/-- Doubling the number of buckets ends the process or keeps every element. -/
theorem expand_spec (hmalloc : Bounded malloc) (h : TableOk mem t l)
    (halloc : ∀ p ∈ l, ∃ c, mem p = some c) (hfuel : l.length ≤ fuel) :
    hashExpandBuckets malloc fuel mem t = some .exit ∨
    ∃ mem' t', hashExpandBuckets malloc fuel mem t = some (.done (mem',t')) ∧ TableOk mem' t' l ∧
      Relinked (bktLinks E) mem l mem' ∧ t'.tail = t.tail ∧ t'.numItems = t.numItems := by
  by_cases hsize : malloc (sizeofBucket*t.numBuckets.toNat*2) = true
  · right
    have hlog : t.log2NumBuckets.toNat ≤ 30 := by
      by_contra hlog
      have hlast : t.log2NumBuckets.toNat = 31 := by
        have := h.log2_le
        omega
      have hnum := h.numBuckets
      rw [hlast] at hnum
      rw [hmalloc _ (by rw [hnum,sizeofBucket]; decide)] at hsize
      cases hsize
    have hpow : 2^t.log2NumBuckets.toNat ≤ 2^30 := Nat.pow_le_pow_right (by omega) hlog
    have hnum := h.numBuckets
    have hdouble : (t.numBuckets*2).toNat = t.numBuckets.toNat*2 := by
      rw [UInt32.toNat_mul]
      exact Nat.mod_eq_of_lt (by rw [hnum]; change _*2 < 2^32; omega)
    have hsucc : (t.log2NumBuckets+1).toNat = t.log2NumBuckets.toNat+1 := by
      rw [UInt32.toNat_add]
      exact Nat.mod_eq_of_lt (by change _+1 < 2^32; omega)
    have hne : t.numBuckets*2 ≠ 0 := by
      intro hzero
      rw [hzero] at hdouble
      have hpos := Nat.two_pow_pos t.log2NumBuckets.toNat
      change 0 = _ at hdouble
      omega
    obtain ⟨cs,hcs,hnodup,hmem,hshort⟩ := h.filled.chains h.numBuckets_ne halloc
    have hchains : List.Forall₂ (fun b chain => Chain (bktLinks E).next mem b.hhHead chain)
        t.buckets cs := hcs.imp fun b chain hb => by
      rw [hb.2.1]
      exact hb.1.chain
    obtain ⟨m,hmove,hfilled,hrel⟩ := moveBuckets_spec (idealChain t)
      (m:=⟨mem,zeroBuckets (t.numBuckets*2),0⟩) hne (zeroBuckets_filled mem _) hchains
      (fun _ _ => rfl) (by rwa [List.append_nil]) fun chain hchain => (hshort chain hchain).trans hfuel
    rw [List.append_nil] at hfilled hrel
    refine ⟨m.mem,expandedTable t m,?_,⟨?_,?_,hfilled.of_mem_iff hmem⟩,
      hrel.mono fun p hp => (hmem p).mp hp,rfl,rfl⟩
    · rw [hashExpandBuckets,if_pos hsize,hmove]
      rfl
    · change (t.log2NumBuckets+1).toNat ≤ 31
      omega
    · change (t.numBuckets*2).toNat = 2^(t.log2NumBuckets+1).toNat
      rw [hdouble,hsucc,hnum,pow_succ]
  · left
    rw [hashExpandBuckets,if_neg hsize]

theorem addToBkt_spec (hmalloc : Bounded malloc) (h : TableOk mem t l)
    (halloc : ∀ p ∈ l, ∃ c, mem p = some c) (hp : p ∉ l) (hc : mem p = some c)
    (hfuel : l.length < fuel) :
    hashAddToBkt malloc fuel mem t (hashToBkt c.hh.hashv t.numBuckets) p = some .exit ∨
    ∃ mem' t', hashAddToBkt malloc fuel mem t (hashToBkt c.hh.hashv t.numBuckets) p =
        some (.done (mem',t')) ∧ TableOk mem' t' (p::l) ∧ Relinked (bktLinks E) mem (p::l) mem' ∧
      t'.tail = t.tail ∧ t'.numItems = t.numItems := by
  obtain ⟨b,mem₁,hb,hpush,hrel,hset⟩ := h.filled.push h.numBuckets_ne hp hc
  let t₁ : HashTable := {t with
    buckets := t.buckets.set (hashToBkt c.hh.hashv t.numBuckets) ⟨some p,b.count+1,b.expandMult⟩}
  have ht₁ : TableOk mem₁ t₁ (p::l) := ⟨h.log2_le,h.numBuckets,hset b.expandMult⟩
  have halloc₁ : ∀ q ∈ p::l, ∃ c, mem₁ q = some c := by
    intro q hq
    obtain ⟨d,hd⟩ : ∃ d, mem q = some d := by
      rcases List.mem_cons.mp hq with rfl | hq
      · exact ⟨c,hc⟩
      · exact halloc q hq
    obtain ⟨d',hd',-⟩ := hrel.cell hd
    exact ⟨d',hd'⟩
  rw [hashAddToBkt]
  simp only [hb,hpush,Option.bind_eq_bind,Option.bind_some]
  split
  · rcases expand_spec hmalloc ht₁ halloc₁ hfuel with hexit | ⟨mem₂,t₂,hdone,ht₂,hrel₂,htail,hitems⟩
    · exact Or.inl hexit
    · exact Or.inr ⟨mem₂,t₂,hdone,ht₂,hrel.trans hrel₂,htail,hitems⟩
  · exact Or.inr ⟨mem₁,t₁,rfl,ht₁,hrel,rfl,rfl⟩

end Table

end UtHashBuckets
end IotBase
