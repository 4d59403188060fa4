import Mathlib.Data.List.Nodup
import Mathlib.Data.List.Basic
import Mathlib.Logic.Function.Basic

/-! Insertion-ordered keyed tables: lists of rows with pairwise distinct keys,
and the same rows kept in heap cells that a list of pointers links. -/
namespace IotBase
namespace OrderedTable

section Rows

variable {E K : Type*} (key : E → K)

def Distinct (l : List E) : Prop := (l.map key).Nodup

variable {key}

theorem map_key_map {f : E → E} (hf : ∀ e, key (f e) = key e) (l : List E) :
    (l.map f).map key = l.map key := by
  rw [List.map_map]
  exact List.map_congr_left fun e _ => hf e

theorem Distinct.concat {l : List E} (h : Distinct key l) {e : E} (he : key e ∉ l.map key) :
    Distinct key (l++[e]) := by
  rw [Distinct,List.map_append,List.map_singleton]
  exact List.nodup_append.mpr ⟨h,List.nodup_singleton _,by
    rintro a ha b hb rfl
    cases List.mem_singleton.mp hb
    exact he ha⟩

variable [DecidableEq K]

def lookup (key : E → K) (k : K) (l : List E) : Option E := l.find? fun e => decide (key e = k)

def modify (key : E → K) (k : K) (f : E → E) (l : List E) : List E :=
  l.map fun e => if key e = k then f e else e

def remove (key : E → K) (k : K) (l : List E) : List E := l.filter fun e => decide (key e ≠ k)

theorem lookup_eq_none {k : K} {l : List E} : lookup key k l = none ↔ k ∉ l.map key := by
  simp [lookup]

theorem mem_of_lookup {k : K} {l : List E} {e : E} (h : lookup key k l = some e) : e ∈ l :=
  List.mem_of_find?_eq_some h

theorem map_key_modify {k : K} {f : E → E} (hf : ∀ e, key (f e) = key e) (l : List E) :
    (modify key k f l).map key = l.map key := by
  refine map_key_map (fun e => ?_) l
  by_cases h : key e = k
  · rw [if_pos h,hf]
  · rw [if_neg h]

section Map

variable {F : Type*} {keyF : F → K} {g : E → F}

theorem lookup_map (hg : ∀ e, keyF (g e) = key e) (k : K) (l : List E) :
    lookup keyF k (l.map g) = (lookup key k l).map g := by
  have hk : (fun e => decide (key e = k)) = (fun x => decide (keyF x = k)) ∘ g := by
    funext e
    rw [Function.comp_apply,hg]
  rw [lookup,lookup,List.find?_map,hk]

theorem modify_map (hg : ∀ e, keyF (g e) = key e) {f : E → E} {f' : F → F}
    (hf : ∀ e, g (f e) = f' (g e)) (k : K) (l : List E) :
    (modify key k f l).map g = modify keyF k f' (l.map g) := by
  rw [modify,modify,List.map_map,List.map_map]
  refine List.map_congr_left fun e _ => ?_
  by_cases h : key e = k
  · simp [hg,h,hf]
  · simp [hg,h]

theorem remove_map (hg : ∀ e, keyF (g e) = key e) (k : K) (l : List E) :
    (OrderedTable.remove key k l).map g = OrderedTable.remove keyF k (l.map g) := by
  have hk : (fun e => decide (key e ≠ k)) = (fun x => decide (keyF x ≠ k)) ∘ g := by
    funext e
    rw [Function.comp_apply,hg]
  rw [OrderedTable.remove,OrderedTable.remove,List.filter_map,hk]

end Map

theorem modify_of_notMem {k : K} {f : E → E} {l : List E} (h : k ∉ l.map key) :
    modify key k f l = l := by
  refine (List.map_congr_left fun e he => if_neg ?_).trans (List.map_id' l)
  rintro rfl
  exact h (List.mem_map_of_mem he)

end Rows

section Cells

variable {E K P : Type*}

/-- The rows in the cells that `order` links, in that order. -/
def rows (heap : P → Option E) (order : List P) : List E := order.filterMap heap

/-- Each linked cell is allocated and linked once, and no two hold the same key. -/
structure Linked (key : E → K) (heap : P → Option E) (order : List P) : Prop where
  alloc : ∀ p ∈ order, ∃ e, heap p = some e
  nodup : order.Nodup
  distinct : Distinct key (rows heap order)

variable {key : E → K} {heap : P → Option E} {order : List P}

theorem Linked.nil (key : E → K) (heap : P → Option E) : Linked key heap [] where
  alloc := fun _ hp => nomatch hp
  nodup := List.nodup_nil
  distinct := List.nodup_nil

theorem rows_concat {p : P} {e : E} (hp : heap p = some e) :
    rows heap (order++[p]) = rows heap order ++ [e] := by
  simp [rows,List.filterMap_append,hp]

theorem Linked.cell_inj (h : Linked key heap order) {p q : P} {e f : E} (hp : p ∈ order)
    (hq : q ∈ order) (he : heap p = some e) (hf : heap q = some f) (hk : key e = key f) :
    p = q := by
  obtain ⟨-,hn,hd⟩ := h
  induction order with
  | nil => cases hp
  | cons r order ih =>
    have notLater : ∀ {a b : P} {x y : E}, heap a = some x → heap b = some y → key x = key y →
        r = a → b ∈ order → False := by
      rintro a b x y ha hb hxy rfl hmem
      rw [Distinct,rows,List.filterMap_cons_some ha,List.map_cons,List.nodup_cons] at hd
      exact hd.1 (hxy ▸ List.mem_map_of_mem (List.mem_filterMap.mpr ⟨b,hmem,hb⟩))
    rcases List.mem_cons.mp hp with hpr | hp
    · rcases List.mem_cons.mp hq with hqr | hq
      · rw [hpr,hqr]
      · exact (notLater he hf hk hpr.symm hq).elim
    · rcases List.mem_cons.mp hq with hqr | hq
      · exact (notLater hf he hk.symm hqr.symm hp).elim
      · refine ih hp hq (List.nodup_cons.mp hn).2 (hd.sublist (List.Sublist.map key ?_))
        exact (List.sublist_cons_self r order).filterMap heap

theorem Linked.concat (h : Linked key heap order) {p : P} {e : E} (hp : p ∉ order)
    (he : heap p = some e) (hk : key e ∉ (rows heap order).map key) :
    Linked key heap (order++[p]) where
  alloc := fun q hq => by
    rcases List.mem_append.mp hq with hq | hq
    · exact h.alloc q hq
    · exact ⟨e,List.mem_singleton.mp hq ▸ he⟩
  nodup := List.nodup_append.mpr ⟨h.nodup,List.nodup_singleton p,by
    rintro a ha b hb rfl
    exact hp (List.mem_singleton.mp hb ▸ ha)⟩
  distinct := by
    rw [rows_concat he]
    exact h.distinct.concat hk

section Search

variable [DecidableEq K]

def findCell (key : E → K) (k : K) (heap : P → Option E) (order : List P) : Option P :=
  order.find? fun p => decide ((heap p).map key = some k)

theorem mem_of_findCell {k : K} {p : P} (h : findCell key k heap order = some p) : p ∈ order :=
  List.mem_of_find?_eq_some h

theorem cell_of_findCell {k : K} {p : P} (h : findCell key k heap order = some p) :
    ∃ e, heap p = some e ∧ key e = k := by
  simpa using List.find?_some h

/-- In whatever order the linked cells are searched, what is missed is in no row. -/
theorem lookup_rows_eq_none {k : K} {chain : List P} (hchain : ∀ p, p ∈ chain ↔ p ∈ order) :
    lookup key k (rows heap order) = none ↔ findCell key k heap chain = none := by
  rw [lookup_eq_none,findCell,List.find?_eq_none]
  constructor
  · intro h p hp hk
    obtain ⟨e,he,rfl⟩ := Option.map_eq_some_iff.mp (of_decide_eq_true hk)
    exact h (List.mem_map_of_mem (List.mem_filterMap.mpr ⟨p,(hchain p).mp hp,he⟩))
  · intro h hmem
    obtain ⟨e,he,rfl⟩ := List.mem_map.mp hmem
    obtain ⟨p,hp,hcell⟩ := List.mem_filterMap.mp he
    exact h p ((hchain p).mpr hp) (decide_eq_true (by rw [hcell,Option.map_some]))

/-- With distinct keys a linked cell is the row that the search of the rows finds. -/
theorem Linked.lookup_cell (h : Linked key heap order) {p : P} {e : E} (hp : p ∈ order)
    (he : heap p = some e) : lookup key (key e) (rows heap order) = some e := by
  cases hl : lookup key (key e) (rows heap order) with
  | none => exact absurd (List.mem_map_of_mem (List.mem_filterMap.mpr ⟨p,hp,he⟩)) (lookup_eq_none.mp hl)
  | some f =>
    obtain ⟨q,hq,hf⟩ := List.mem_filterMap.mp (mem_of_lookup hl)
    have hk : key f = key e := by simpa using List.find?_some hl
    obtain rfl := h.cell_inj hq hp hf he hk
    exact hf.symm.trans he

end Search

section Update

variable [DecidableEq P]

theorem rows_update_unlinked {p : P} (hp : p ∉ order) (x : Option E) :
    rows (Function.update heap p x) order = rows heap order := by
  refine List.filterMap_congr fun q hq => Function.update_of_ne ?_ _ _
  rintro rfl
  exact hp hq

theorem Linked.update_unlinked (h : Linked key heap order) {p : P} (hp : p ∉ order)
    (x : Option E) : Linked key (Function.update heap p x) order where
  alloc := fun q hq => by
    have hqp : q ≠ p := fun heq => hp (heq ▸ hq)
    rw [Function.update_of_ne hqp]
    exact h.alloc q hq
  nodup := h.nodup
  distinct := by
    rw [rows_update_unlinked hp]
    exact h.distinct

theorem Linked.erase (h : Linked key heap order) (p : P) : Linked key heap (order.erase p) where
  alloc := fun q hq => h.alloc q (List.mem_of_mem_erase hq)
  nodup := h.nodup.erase p
  distinct := h.distinct.sublist ((List.erase_sublist.filterMap heap).map key)

variable [DecidableEq K]

theorem Linked.rows_update (h : Linked key heap order) {p : P} {e : E} (hp : p ∈ order)
    (he : heap p = some e) (f : E → E) :
    rows (Function.update heap p (some (f e))) order = modify key (key e) f (rows heap order) := by
  rw [modify,rows,rows,List.map_filterMap]
  refine List.filterMap_congr fun q hq => ?_
  by_cases hqp : q = p
  · rw [hqp,Function.update_self,he,Option.map_some,if_pos rfl]
  · obtain ⟨e',he'⟩ := h.alloc q hq
    have hk : key e' ≠ key e := fun hk => hqp (h.cell_inj hq hp he' he hk)
    rw [Function.update_of_ne hqp,he',Option.map_some,if_neg hk]

theorem Linked.rows_erase (h : Linked key heap order) {p : P} {e : E} (hp : p ∈ order)
    (he : heap p = some e) :
    rows heap (order.erase p) = remove key (key e) (rows heap order) := by
  rw [h.nodup.erase_eq_filter,remove,rows,rows,List.filter_filterMap,List.filterMap_filter]
  refine List.filterMap_congr fun q hq => ?_
  by_cases hqp : q = p
  · simp [hqp,he,Option.filter]
  · obtain ⟨e',he'⟩ := h.alloc q hq
    have hk : key e' ≠ key e := fun hk => hqp (h.cell_inj hq hp he' he hk)
    simp [hqp,he',hk,Option.filter]

theorem Linked.update (h : Linked key heap order) {p : P} {e : E} (hp : p ∈ order)
    (he : heap p = some e) {f : E → E} (hf : ∀ e, key (f e) = key e) :
    Linked key (Function.update heap p (some (f e))) order where
  alloc := fun q hq => by
    by_cases hqp : q = p
    · exact ⟨f e,by rw [hqp,Function.update_self]⟩
    · rw [Function.update_of_ne hqp]
      exact h.alloc q hq
  nodup := h.nodup
  distinct := by
    rw [Distinct,h.rows_update hp he,map_key_modify hf]
    exact h.distinct

end Update

end Cells

end OrderedTable
end IotBase
