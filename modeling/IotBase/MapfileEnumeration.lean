import IotBase.MapfileRefinement

/-! Reading the rows one by one with `mapfile_kv_item_get` against looking a key up. -/
namespace IotBase
namespace MapfileEnumeration
open RawBytes CString MapfileItem MapfileStore MapfileFile MapfileRow KeyedHistory LabelledRun
open MapfileRefinement

/-- Slot `j` of the row read at `location` is in use and its NUL-terminated key is `key`. -/
def Shows (abi : Abi) (disk : Disk) (key : CStr) (location j : ℕ) (p : KvItem) : Prop :=
  location < tableColSize ∧ ∃ b, mapfileKvItemGet abi {} disk location = some b ∧
    (decodeRow tableRowSize b)[j]? = some p ∧ p.valueLen ≠ 0 ∧ p.name = key.bytes

/-- A get of `key` succeeds exactly when the enumeration shows the key; then it shows it
once, with the value that the get returns. -/
def Agrees (abi : Abi) (disk : Disk) (key : Key) (n : ℤ) : Prop :=
  ((mapfileKvGet false {} disk (some key) (some n)).isSome ↔
    ∃ location j p, Shows abi disk key location j p) ∧
  ∀ location j p, Shows abi disk key location j p →
    mapfileKvGet false {} disk (some key) (some n) = some (answer (stored p) n) ∧
    ∀ location' j' p', Shows abi disk key location' j' p' → location' = location ∧ j' = j

theorem toSize_small (abi : Abi) {z : ℤ} (h0 : 0 ≤ z) (h1 : z < 2^31) : abi.toSize z = z.toNat := by
  cases abi with
  | ilp32 => rw [Abi.toSize,Abi.sizeBits,Int.emod_eq_of_lt h0 (by omega)]
  | lp64 => rw [Abi.toSize,Abi.sizeBits,Int.emod_eq_of_lt h0 (by omega)]

theorem rowProduct_small (abi : Abi) {i : ℕ} (hi : i ≤ tableColSize) :
    abi.rowProduct i = i*itemMaxLen*tableRowSize := by
  have hc : tableColSize = 384 := rfl
  have hm : itemMaxLen = 228 := rfl
  have hr : tableRowSize = 2 := rfl
  have h₁ : abi.toSize (i : ℤ) = i := by rw [toSize_small abi (by omega) (by omega),Int.toNat_natCast]
  have h₂ : abi.toSize ((i : ℤ)*(228 : ℕ)) = i*228 := by
    rw [toSize_small abi (by omega) (by omega)]
    omega
  have h₃ : abi.toSize (((i*228 : ℕ) : ℤ)*(2 : ℕ)) = i*228*2 := by
    rw [toSize_small abi (by omega) (by omega)]
    omega
  rw [Abi.rowProduct,hm,hr,h₁,h₂,h₃]

theorem mapfileKvItemGet_ok (abi : Abi) {file : Bytes} {i : ℕ} (hi : i < tableColSize)
    (hlen : file.length = fileLen) :
    mapfileKvItemGet abi {} (some file) i = some (slice file (rowOff i) rowLen) := by
  have hfit := row_fits hi
  have hc : tableColSize = 384 := rfl
  have hsize : fileLen = 175104 := rfl
  have hnext : toInt32 ((i : ℤ)+1) = (i+1 : ℕ) := by
    simp only [toInt32,Int.bmod]
    omega
  have hoff : toInt32 (abi.rowProduct i) = rowOff i := by
    rw [rowProduct_small abi (Nat.le_of_lt hi),← rowOff]
    simp only [toInt32,Int.bmod]
    omega
  have hend : abi.rowProduct (toInt32 ((i : ℤ)+1)) = rowOff i+rowLen := by
    rw [hnext,rowProduct_small abi hi,rowOff_succ]
  have h1 : ¬ file.length < rowOff i+rowLen := by omega
  simp [mapfileKvItemGet,readKvItem_,hoff,hend,h1]

theorem shows_iff (abi : Abi) {file : Bytes} (hlen : file.length = fileLen) {key : CStr}
    {location j : ℕ} {p : KvItem} : Shows abi (some file) key location j p ↔
      location < tableColSize ∧ (rowAt file location)[j]? = some p ∧ p.Live ∧ p.name = key.bytes := by
  constructor
  · rintro ⟨hloc,b,hb,hp,hlive,hname⟩
    rw [mapfileKvItemGet_ok abi hloc hlen] at hb
    cases hb
    exact ⟨hloc,hp,hlive,hname⟩
  · rintro ⟨hloc,hp,hlive,hname⟩
    exact ⟨hloc,_,mapfileKvItemGet_ok abi hloc hlen,hp,hlive,hname⟩

theorem rowOk_lookup {i : ℕ} {key : CStr} {row : List KvItem} (hrow : RowOk i row) {j : ℕ} {p : KvItem}
    (hp : row[j]? = some p) (hlive : p.Live) (hname : p.name = key.bytes) :
    lookupRow key row = some (stored p) ∧
      ∀ j' q, row[j']? = some q → q.Live → q.name = key.bytes → j' = j := by
  induction row generalizing j with
  | nil => simp at hp
  | cons r rest ih =>
    rcases hrow with ⟨_,hlater,hrest⟩ | hz
    · have hcross : ∀ {j : ℕ} {q : KvItem}, rest[j]? = some q → q.Live → q.name = key.bytes →
          r.name ≠ key.bytes := by
        intro j q hq hl hn hr
        exact hlater q (List.mem_of_getElem? hq) hl (by rw [hn,hr])
      cases j with
      | zero =>
        cases hp
        refine ⟨by simp [lookupRow,hlive,hname],fun j' q hq hl hn => ?_⟩
        cases j' with
        | zero => rfl
        | succ j' => exact absurd hname (hcross hq hl hn)
      | succ j =>
        have hne := hcross hp hlive hname
        obtain ⟨hlook,huniq⟩ := ih hrest hp
        refine ⟨by simpa [lookupRow,hne] using hlook,fun j' q hq hl hn => ?_⟩
        cases j' with
        | zero =>
          cases hq
          exact absurd hn hne
        | succ j' => rw [huniq j' q hq hl hn]
    · exact absurd hlive (not_live_of_zero hz p (List.mem_of_getElem? hp))

theorem exists_of_lookupRow {key : CStr} {row : List KvItem} {v : Bytes}
    (h : lookupRow key row = some v) :
    ∃ (j : ℕ) (p : KvItem), row[j]? = some p ∧ p.Live ∧ p.name = key.bytes := by
  induction row with
  | nil => simp [lookupRow] at h
  | cons r rest ih =>
    by_cases hr : r.Live ∧ r.name = key.bytes
    · exact ⟨0,r,rfl,hr.1,hr.2⟩
    · rw [lookupRow,if_neg hr] at h
      obtain ⟨j,p,hp,hh⟩ := ih h
      exact ⟨j+1,p,hp,hh⟩

theorem slot_hash {i : ℕ} {row : List KvItem} (hrow : RowOk i row) {p : KvItem} (hp : p ∈ row)
    (hlive : p.Live) {key : CStr} (hname : p.name = key.bytes) : hashGen key = i := by
  induction row with
  | nil => simp at hp
  | cons r rest ih =>
    rcases hrow with ⟨hr,_,hrest⟩ | hz
    · rcases List.mem_cons.mp hp with rfl | hp
      · rw [← hr.hash]
        exact congrArg hashGen (CStr.ext_bytes hname.symm)
      · exact ih hrest hp
    · exact absurd hlive (not_live_of_zero hz p hp)

/-- In a store that refines a map the enumeration shows a key where it is stored by
exact name, once, in its hash row. -/
theorem Refines.shows {s : Run} {file : Bytes} (h : Refines s file) (abi : Abi) (key : Key) :
    (∀ location j p, Shows abi s.disk key location j p →
      lookupRow key (s.row key) = some (stored p) ∧
      ∀ location' j' p', Shows abi s.disk key location' j' p' → location' = location ∧ j' = j) ∧
    (lookupRow key (s.row key) ≠ none → ∃ location j p, Shows abi s.disk key location j p) := by
  simp only [h.disk,shows_iff abi h.length,h.row_eq]
  have hrowOk := h.rows _ (hashGen_lt key)
  constructor
  · rintro location j p ⟨hloc,hp,hlive,hname⟩
    have hl := slot_hash (h.rows _ hloc) (List.mem_of_getElem? hp) hlive hname
    subst hl
    obtain ⟨hlook,huniq⟩ := rowOk_lookup hrowOk hp hlive hname
    refine ⟨hlook,?_⟩
    rintro location' j' p' ⟨hloc',hp',hlive',hname'⟩
    have hl' := slot_hash (h.rows _ hloc') (List.mem_of_getElem? hp') hlive' hname'
    subst hl'
    exact ⟨rfl,huniq j' p' hp' hlive' hname'⟩
  · intro hne
    obtain ⟨v,hv⟩ := Option.ne_none_iff_exists'.mp hne
    obtain ⟨j,p,hp,hlive,hname⟩ := exists_of_lookupRow hv
    exact ⟨_,j,p,hashGen_lt key,hp,hlive,hname⟩

/-- Along a run of directed calls enumeration and lookup agree on exactly those keys whose
search is not stopped by a longer key. -/
theorem kv_item_get_agrees (abi : Abi) (ops : List Op)
    (hops : Meets (fun s op => some (Run.step s op)) Directed fresh ops) (key : Key) (n : ℤ)
    (hn : 0 < n) :
    Agrees abi (ops.foldl Run.step fresh).disk key n ↔
      ExactHit key ((ops.foldl Run.step fresh).row key) := by
  obtain ⟨file,h⟩ := run_refines ops hops
  have hk := Nat.le_of_lt key.2
  have hrow : RowOk (hashGen key) ((ops.foldl Run.step fresh).row key) := h.rowOk key
  obtain ⟨hshows,hexists⟩ := Refines.shows h abi key
  rw [Agrees,h.get key hn]
  constructor
  · rintro ⟨hiff,_⟩
    by_contra hex
    have hnone := lookupRow_of_not_exact hk hrow hex
    have hfound : (searchHit key ((ops.foldl Run.step fresh).row key)).isSome := by
      rw [Option.isSome_iff_ne_none]
      intro hh
      exact hex ((exactHit_iff hk).mpr fun p hp => by simp [hh] at hp)
    obtain ⟨location,j,p,hp⟩ := hiff.mp (by simpa using hfound)
    have hlook := (hshows location j p hp).1
    rw [hnone] at hlook
    cases hlook
  · intro hex
    have hstored := searchHit_stored hk hrow hex
    have hanswer : (searchHit key ((ops.foldl Run.step fresh).row key)).map
        (fun p => answer (stored p) n) =
        (lookupRow key ((ops.foldl Run.step fresh).row key)).map (answer · n) := by
      rw [← hstored,Option.map_map]
      rfl
    rw [hanswer]
    refine ⟨⟨fun hsome => hexists ?_,?_⟩,fun location j p hp => ?_⟩
    · intro hnone
      simp [hnone] at hsome
    · rintro ⟨location,j,p,hp⟩
      simp [(hshows location j p hp).1]
    · obtain ⟨hlook,huniq⟩ := hshows location j p hp
      exact ⟨by rw [hlook]; rfl,huniq⟩

/-- After the deletion of "ab" the enumeration shows "bA" behind the hole, but a get of
"bA" fails. -/
theorem kv_item_get_disagrees :
    ¬ Agrees .lp64 (List.foldl Run.step fresh [.set keyAB oneByte,.set keyBA oneByte,.del keyAB]).disk
      keyBA 1 := by
  obtain ⟨file,hrun,hlen,hrow⟩ := hole_eq
  have hBA : hashGen keyBA = 227 := by decide
  have hfit := key_fits hlen keyBA
  rw [hrun,Agrees,kvGet_ok keyBA hfit (by decide)]
  rintro ⟨hiff,_⟩
  have hshow : Shows .lp64 (some file) keyBA 227 1 (insertItem zeroItem keyBA oneByte) := by
    rw [shows_iff _ hlen,hrow]
    exact ⟨by decide,rfl,insertItem_live _ _ (by decide),insertItem_zero_name oneByte (by decide)⟩
  have hget := hiff.mpr ⟨_,_,_,hshow⟩
  rw [hBA,hrow] at hget
  simp [getLoop] at hget

/-- One slot shows the key that has been set. -/
theorem kv_item_get_agrees_one : ∃ disk location j p,
    (List.foldl Run.step fresh [.set keyAB oneByte]).disk = disk ∧
    Shows .lp64 disk keyAB location j p ∧ answer (stored p) 1 = (1,[1]) ∧
    ∀ location' j' p', Shows .lp64 disk keyAB location' j' p' → location' = location ∧ j' = j := by
  obtain ⟨hiff,hshown⟩ : Agrees _ _ _ _ :=
    (kv_item_get_agrees .lp64 [.set keyAB oneByte] set_keyAB_meets keyAB 1 (by decide)).mpr set_keyAB_exact
  obtain ⟨file,hrun,hlen,hrow⟩ := set_keyAB_eq
  have hget := get_keyAB hlen hrow
  rw [List.foldl_cons,List.foldl_nil,hrun] at hiff hshown ⊢
  obtain ⟨location,j,p,hshow⟩ := hiff.mp (Option.isSome_iff_exists.mpr ⟨_,hget⟩)
  obtain ⟨hvalue,honce⟩ := hshown location j p hshow
  exact ⟨_,location,j,p,rfl,hshow,Option.some.inj (hvalue.symm.trans hget),honce⟩

end MapfileEnumeration
end IotBase
