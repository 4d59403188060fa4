import IotBase.MapfileThreads
import IotBase.MapfileRefinement

/-! Keys of which no two share a row: for these the store is the map that it is for, without exception
and under threads too. -/
namespace IotBase
namespace MapfileSpread
open RawBytes CString MapfileItem MapfileStore MapfileFile MapfileRow MapfileRefinement
open MapfileIsolation MapfileThreads KeyedHistory LabelledRun CriticalSection

/-- The keys are as short as the header asks and no two of them share a row. -/
structure Spread (K : Set CStr) : Prop where
  short : ∀ k ∈ K, k.strlen < itemMaxKeyLen
  inj : Set.InjOn hashGen K

/-- A call on one of the keys in which nothing fails. -/
inductive Plain (K : Set CStr) : Call → Prop
  | set {k : CStr} (hk : k ∈ K) (v : Value) : Plain K (.set {} (some k) (some v))
  | get {k : CStr} (hk : k ∈ K) (n : ℤ) : Plain K (.get false {} (some k) (some n))
  | del {k : CStr} (hk : k ∈ K) : Plain K (.del {} (some k))
  | emp : Plain K (.emp {})

def mapCall (m : CStr → Option Value) : Call → (CStr → Option Value) × Reply
  | .set _ (some k) (some v) =>
    if v.len ≤ 0 then (m,.code .fail) else (Function.update m k (some v),.code .ok)
  | .set _ _ _ => (m,.code .fail)
  | .get _ _ (some k) (some n) => (m,.value (if n ≤ 0 then none else (m k).map (readOut · n)))
  | .get _ _ _ _ => (m,.value none)
  | .del _ (some k) => (Function.update m k none,.code .ok)
  | .del _ none => (m,.code .fail)
  | .emp _ => (fun _ => none,.code .ok)

def Named (K : Set CStr) (row : List KvItem) : Prop := ∀ p ∈ row, p.Live → ∃ k ∈ K, p.name = k.bytes

def Stores (K : Set CStr) (disk : Disk) (m : CStr → Option Value) : Prop :=
  ∃ history file, Refines ⟨disk,history⟩ file ∧ read history = m ∧
    ∀ i < tableColSize, Named K (rowAt file i)

variable {K : Set CStr} {k : CStr} {row : List KvItem} {disk : Disk} {m : CStr → Option Value}

theorem name_eq (hK : Spread K) (hk : k ∈ K) (hrow : RowOk (hashGen k) row) (hnamed : Named K row)
    {p : KvItem} (hp : p ∈ row) (hlive : p.Live) : p.name = k.bytes := by
  obtain ⟨k',hk',hname⟩ := hnamed p hp hlive
  have hhash : hashGen k' = hashGen k := by
    rw [← (hrow.slotOk hp hlive).hash]
    exact congrArg hashGen (CStr.ext_bytes hname).symm
  rw [hname,hK.inj hk' hk hhash]

theorem exactHit (hK : Spread K) (hk : k ∈ K) (hrow : RowOk (hashGen k) row) (hnamed : Named K row) :
    ExactHit k row := by
  rintro pre p post rfl - hlive -
  exact name_eq hK hk hrow hnamed (by simp) hlive

theorem rowOk_after {i : ℕ} {pre post : List KvItem} {p : KvItem} (hrow : RowOk i (pre++p::post))
    (hlive : p.Live) : ∀ q ∈ post, q.Live → ¬ q.name <+: p.name := by
  induction pre with
  | nil =>
    rcases hrow with ⟨-,hlater,-⟩ | hzero
    · exact hlater
    · exact absurd hlive (not_live_of_zero hzero p (by simp))
  | cons r pre ih =>
    rcases hrow with ⟨-,-,hrest⟩ | hzero
    · exact ih hrest
    · exact absurd hlive (not_live_of_zero hzero p (by simp))

theorem rmExact (hK : Spread K) (hk : k ∈ K) (hrow : RowOk (hashGen k) row) (hnamed : Named K row) :
    RmExact k row := by
  rintro pre p post rfl hlive -
  have hname := name_eq hK hk hrow hnamed (p:=p) (by simp) hlive
  refine ⟨hname,fun q hq hq' => ?_⟩
  have hname' := name_eq hK hk hrow hnamed (p:=q) (by simp [hq]) hq'
  exact rowOk_after hrow hlive q hq hq' (by rw [hname,hname'])

theorem putLoop_found (hK : Spread K) (hk : k ∈ K) (hrow : RowOk (hashGen k) row)
    (hnamed : Named K row) (hlen : row ≠ []) (v : Value) : ∃ row', putLoop k v row = some row' := by
  cases row with
  | nil => exact absurd rfl hlen
  | cons p rest =>
    by_cases hlive : p.Live
    · have hname := name_eq hK hk hrow hnamed (p:=p) (by simp) hlive
      have hmatch : keyMatches (p::rest) k = true :=
        (keyMatches_iff rest (Nat.le_of_lt (hK.short k hk))).mpr (by rw [hname])
      exact ⟨updateItem p v::rest,by simp only [putLoop,if_pos hlive,if_pos hmatch]⟩
    · exact ⟨insertItem p k v::rest,by simp only [putLoop,if_neg hlive]⟩

theorem Stores.of_update {history : List (Event CStr Value)} {file : Bytes}
    {e : Event CStr Value} (href : Refines ⟨some (putRow file (hashGen k) row),history++[e]⟩
      (putRow file (hashGen k) row)) (hfile : file.length = fileLen) (hlen : row.length = tableRowSize)
    (hnamed : ∀ i < tableColSize, Named K (rowAt file i)) (hrow : Named K row) :
    Stores K (some (putRow file (hashGen k) row)) (e.apply (read history)) :=
  ⟨_,_,href,read_concat _ _,forall_rows_putRow hfile (hashGen_lt k) hlen hrow fun i hi _ => hnamed i hi⟩

theorem set_stores (hK : Spread K) (h : Stores K disk m) (hk : k ∈ K) (v : Value) :
    Reply.code (mapfileKvSet {} disk (some k) (some v)).2 = (mapCall m (.set {} (some k) (some v))).2 ∧
      Stores K (mapfileKvSet {} disk (some k) (some v)).1
        (mapCall m (.set {} (some k) (some v))).1 := by
  obtain ⟨history,file,href,rfl,hnamed⟩ := id h
  by_cases hv : v.len ≤ 0
  · simp only [mapfileKvSet,kvSet,mapCall,if_pos hv]
    exact ⟨trivial,h⟩
  · have hpos : 0 < v.len := by omega
    have hshort := hK.short k hk
    have hrow := href.rows _ (hashGen_lt k)
    have hname := hnamed _ (hashGen_lt k)
    obtain ⟨row,hput⟩ := putLoop_found hK hk hrow hname
      (List.ne_nil_of_length_pos (by rw [rowAt_length]; decide)) v
    have hlen : row.length = tableRowSize := by rw [putLoop_length hput,rowAt_length]
    obtain ⟨hrow',hlook⟩ := putLoop_spec hshort hpos hrow (exactHit hK hk hrow hname) hput
    obtain rfl : disk = some file := href.disk
    rw [kvSet_some (href.fits (hashGen_lt k)) hpos hput]
    simp only [mapCall,if_neg hv]
    refine ⟨trivial,Stores.of_update (e:=.put k v) ?_ href.length hlen hnamed ?_⟩
    · exact href.putRow ⟨k,hshort⟩ (x:=some v) (fun _ => rfl) hlen hrow' hlook
        fun w hw => Option.some.inj hw ▸ hpos
    · intro q hq hlive
      rcases putLoop_names hshort hrow hput q hq hlive with hq | ⟨r,hr,hrlive,hrq⟩
      · exact ⟨k,hk,hq⟩
      · obtain ⟨k',hk',hk''⟩ := hname r hr hrlive
        exact ⟨k',hk',hrq ▸ hk''⟩

theorem del_stores (hK : Spread K) (h : Stores K disk m) (hk : k ∈ K) :
    (mapfileKvDel {} disk (some k)).2 = .ok ∧
      Stores K (mapfileKvDel {} disk (some k)).1 (Function.update m k none) := by
  obtain ⟨history,file,href,rfl,hnamed⟩ := h
  have hshort := hK.short k hk
  have hrow := href.rows _ (hashGen_lt k)
  have hname := hnamed _ (hashGen_lt k)
  obtain ⟨row,hrm⟩ : ∃ row, rmLoop k (rowAt file (hashGen k)) = row := ⟨_,rfl⟩
  have hlen : row.length = tableRowSize := by rw [← hrm,rmLoop_length,rowAt_length]
  have hspec := rmLoop_spec (Nat.le_of_lt hshort) hrow (rmExact hK hk hrow hname)
  rw [hrm] at hspec
  obtain ⟨hrow',hlook⟩ := hspec
  have hcall : mapfileKvDel {} (some file) (some k) = (some (putRow file (hashGen k) row),.ok) :=
    call_del ⟨k,hshort⟩ (href.fits (hashGen_lt k)) hrm
  obtain rfl : disk = some file := href.disk
  rw [hcall]
  refine ⟨rfl,Stores.of_update (e:=.erase k) ?_ href.length hlen hnamed ?_⟩
  · exact href.putRow ⟨k,hshort⟩ (x:=none) (fun _ => rfl) hlen hrow' hlook fun w hw => by cases hw
  · intro q hq hlive
    rw [← hrm] at hq
    exact hname q (rmLoop_live q hq hlive) hlive

theorem get_stores (hK : Spread K) (h : Stores K disk m) (hk : k ∈ K) (n : ℤ) :
    mapfileKvGet false {} disk (some k) (some n) =
      if n ≤ 0 then none else (m k).map (readOut · n) := by
  obtain ⟨history,file,href,rfl,hnamed⟩ := h
  by_cases hn : n ≤ 0
  · simp only [mapfileKvGet,kvGet,if_pos hn]
  · have hpos : 0 < n := by omega
    have hshort := hK.short k hk
    have hrow := href.rows _ (hashGen_lt k)
    have hexact := exactHit hK hk hrow (hnamed _ (hashGen_lt k))
    have hget := href.get ⟨k,hshort⟩ hpos
    have hlook := href.lookup_answer ⟨k,hshort⟩ hpos
    rw [href.row_eq] at hget hlook
    rw [if_neg hn,← hlook,← searchHit_stored (Nat.le_of_lt hshort) hrow hexact,Option.map_map]
    exact hget

theorem emp_stores (h : Stores K disk m) :
    (mapfileKvEmp {} disk).2 = .ok ∧ Stores K (mapfileKvEmp {} disk).1 fun _ => none := by
  obtain ⟨history,file,href,rfl,hnamed⟩ := h
  have hstep : Refines ⟨(mapfileKvEmp {} disk).1,history++[.clear]⟩ (List.replicate fileLen 0) :=
    step_emp ⟨disk,history⟩
  have hread : read (history++[.clear]) = fun _ => none := read_concat _ _
  refine ⟨rfl,_,_,hstep,hread,fun i hi p hp hlive => ?_⟩
  · rw [rowAt_zero hi] at hp
    rw [List.eq_of_mem_replicate hp] at hlive
    exact absurd hlive zeroItem_not_live

/-- One call on one of the keys is one on the map. -/
theorem call_stores (hK : Spread K) (disk : Disk) (m : CStr → Option Value) (c : Call)
    (h : Stores K disk m) (hc : Plain K c) :
    (c.run disk).2 = (mapCall m c).2 ∧ Stores K (c.run disk).1 (mapCall m c).1 := by
  cases hc with
  | set hk v => exact set_stores hK h hk v
  | get hk n => exact ⟨congrArg Reply.value (get_stores hK h hk n),h⟩
  | del hk =>
    obtain ⟨hret,hstores⟩ := del_stores hK h hk
    exact ⟨congrArg Reply.code hret,hstores⟩
  | emp =>
    obtain ⟨hret,hstores⟩ := emp_stores h
    exact ⟨congrArg Reply.code hret,hstores⟩

theorem fresh_stores (K : Set CStr) : Stores K (mapfileKvOpen {} none).1 fun _ => none := by
  refine ⟨[],_,refines_fresh,rfl,fun i hi p hp hlive => ?_⟩
  rw [rowAt_zero hi] at hp
  rw [List.eq_of_mem_replicate hp] at hlive
  exact absurd hlive zeroItem_not_live

/-- Threads whose keys lie in different rows have the map itself in a fresh file: whatever the
interleaving, the calls answer as those of the map do, made at once in the order in which they finish;
no set finds its row full, and no key is mistaken for one that it starts. -/
theorem threads_share_map {T : Type*} [DecidableEq T] (hK : Spread K) (ls : List (Label T Call))
    (hls : ∀ l ∈ ls, l.Calls (Plain K)) {sys : System T Disk Call Stage Reply}
    (h : exec (System.step handle) (System.init (mapfileKvOpen {} none).1) ls = some sys) :
    ∃ m, Linearized handle (mapfileKvOpen {} none).1 ls sys mapCall (fun _ => none) m := by
  obtain ⟨base,hinv⟩ := explained handle_implements ls h
  have hcalls : ∀ e ∈ sys.history.map Prod.snd, Plain K e.1 := by
    intro e he
    obtain ⟨x,hx,rfl⟩ := List.mem_map.mp he
    exact history_calls hls h x hx
  obtain ⟨m,hm,-⟩ := Replays.simulate (call_stores hK) hinv.replays (fresh_stores K) hcalls
  exact ⟨m,hinv.linearized h hm⟩

/-- The keys "x" and "y". -/
def keyX : CStr := ⟨[120],by decide⟩
def keyY : CStr := ⟨[121],by decide⟩

/-- A thread sets "x" while another waits with a get of the same key and then deletes "y". -/
def twoKeys : List (Label Bool Call) :=
  [.call false (.set {} (some keyX) (some oneByte)),.lock false,
    .call true (.get false {} (some keyX) (some 4)),.micro false,.micro false,.unlock false,.lock true,
    .micro true,.unlock true,.call true (.del {} (some keyY)),.lock true]

theorem spread_twoKeys : Spread {k : CStr | k = keyX ∨ k = keyY} := by
  refine ⟨fun k hk => ?_,fun k hk k' hk' heq => ?_⟩
  · rcases hk with rfl | rfl <;> decide
  · rcases hk with rfl | rfl <;> rcases hk' with rfl | rfl <;>
      first | rfl | exact absurd heq (by decide)

theorem plain_twoKeys : ∀ l ∈ twoKeys, l.Calls (Plain {k : CStr | k = keyX ∨ k = keyY}) := by
  simp only [twoKeys,List.forall_mem_cons,Label.Calls,true_and,and_true,List.not_mem_nil,
    false_implies,implies_true]
  exact ⟨.set (.inl rfl) oneByte,.get (.inl rfl) 4,.del (.inr rfl)⟩

theorem run_twoKeys {row : List KvItem} {location : ℕ}
    (hread : micro disk (.start (.set {} (some keyX) (some oneByte))) =
      (disk,.inl (.write {} row location))) :
    ∃ sys r r', exec (System.step handle) (System.init disk) twoKeys = some sys ∧
      sys.history = [(false,.set {} (some keyX) (some oneByte),r),
        (true,.get false {} (some keyX) (some 4),r')] :=
  ⟨_,_,_,exec_cons.mpr ⟨_,rfl,exec_cons.mpr ⟨_,rfl,exec_cons.mpr ⟨_,rfl,
    exec_cons.mpr ⟨_,step_micro_more rfl hread,rfl⟩⟩⟩⟩,rfl⟩

theorem threads_share_map_twoKeys : ∃ sys,
    exec (System.step handle) (System.init (mapfileKvOpen {} none).1) twoKeys = some sys ∧
    (sys.history.map fun e => (e.1,e.2.2)) = [(false,.code .ok),(true,.value (some (1,[1])))] ∧
    ∃ m, Linearized handle (mapfileKvOpen {} none).1 twoKeys sys mapCall (fun _ => none) m := by
  have hread : micro (mapfileKvOpen {} none).1 (.start (.set {} (some keyX) (some oneByte))) =
      ((mapfileKvOpen {} none).1,
        .inl (.write {} [insertItem zeroItem keyX oneByte,zeroItem] (hashGen keyX))) := by
    have hpos : 0 < oneByte.len := by decide
    rw [open_fresh,micro,startCall_set (f:={}) (hashTablePutRow_zero keyX hpos)]
  obtain ⟨sys,r,r',hrun,hhistory⟩ := run_twoKeys hread
  obtain ⟨m,hm⟩ := threads_share_map spread_twoKeys twoKeys plain_twoKeys hrun
  refine ⟨sys,hrun,?_,m,hm⟩
  have hreplays := hm.replays
  rw [hhistory] at hreplays ⊢
  obtain ⟨hset,hget,-⟩ := hreplays
  rw [← show _ = r from hset,← show _ = r' from hget]
  rfl

end MapfileSpread
end IotBase
