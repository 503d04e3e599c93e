import Mathlib.Data.List.Dedup
import TabularParsing.Proofs.Span.Cells
import TabularParsing.Span.Table

/-!
# Span tables are finite maps

As long as the number of cells fits in a word, a table in machine words is the span map of its
dimensions: offsets are exact, so they lie inside the table, no two keys share a cell, and what is
set, read and listed is the same. Once the number of cells is wrapped, neither holds.

## Main definitions

* `SpanTable.Represents`: a table and its span map.
* `SpanTable.MapOf`: what a table holds in which keys were set one after the other.

## Main statements

* `SpanTable.Represents.get?_eq`, `SpanTable.Represents.set`: one call.
* `SpanTable.mapOf_setAll`: all calls.
* `SpanTable.not_mapOf_setAll`: a table whose number of cells is wrapped.
-/
namespace TabularParsing

namespace CellKey

variable {k l : CellKey} {len symbols : UInt64}

theorem constituent_inj : k.constituent = l.constituent ↔ k = l := by
  obtain ⟨first, last, symbol⟩ := k
  obtain ⟨first', last', symbol'⟩ := l
  simp only [constituent, Constituent.mk.injEq, mk.injEq, UInt64.toNat_inj]

theorem valid_iff : k.Valid len symbols ↔ k.constituent.Valid len.toNat symbols.toNat := by
  simp only [Valid, Constituent.Valid, constituent, UInt64.lt_iff_toNat_lt, UInt64.le_iff_toNat_le,
    UInt64.toNat_zero]

/-- By first position, then by last position, then by symbol. -/
def Before (k l : CellKey) : Prop :=
  k.first < l.first ∨
    k.first = l.first ∧ (k.last < l.last ∨ k.last = l.last ∧ k.symbol < l.symbol)

theorem Before.ne (h : k.Before l) : k ≠ l := by
  rintro rfl
  grind [Before]

theorem before_iff : k.Before l ↔ k.constituent.Before l.constituent := by
  simp only [Before, Constituent.Before, constituent, UInt64.lt_iff_toNat_lt, UInt64.toNat_inj]

end CellKey

namespace SpanTable

variable {α : Type}

/-! ## Tables and span maps -/

/-- A table stands for a span map: they have the same dimensions and the same cells, whose number
fits in a word. -/
structure Represents (t : SpanTable α) (m : SpanMap α) : Prop where
  len : m.len = t.len.toNat
  symbols : m.symbols = t.symbols.toNat
  cells : m.cells = t.cells
  fits : t.len.toNat * t.len.toNat * t.symbols.toNat < UInt64.size

theorem represents_empty {len symbols : UInt64}
    (h : len.toNat * len.toNat * symbols.toNat < UInt64.size) :
    (empty len symbols : SpanTable α).Represents (.empty len.toNat symbols.toNat) where
  len := rfl
  symbols := rfl
  cells := by
    have hwords : len * len * symbols = .ofNat (len.toNat * len.toNat * symbols.toNat) := by
      simp only [UInt64.ofNat_mul, UInt64.ofNat_toNat]
    rw [empty, SpanMap.empty, hwords, UInt64.toNat_ofNat_of_lt' h]
  fits := h

namespace Represents

variable {t : SpanTable α} {m : SpanMap α} {k : CellKey}

theorem valid_iff (h : t.Represents m) :
    k.Valid t.len t.symbols ↔ k.constituent.Valid m.len m.symbols := by
  rw [CellKey.valid_iff, h.len, h.symbols]

theorem size_cells (h : t.Represents m) :
    t.cells.size = t.len.toNat * t.len.toNat * t.symbols.toNat := by
  rw [← h.cells, m.size_cells, h.len, h.symbols]

/-- The offset of a key is its place. -/
theorem offset?_eq (h : t.Represents m) (hk : k.Valid t.len t.symbols) :
    t.offset? k = some (.ofNat (k.constituent.place m.len m.symbols)) := by
  obtain ⟨hfirst, hle, -, -⟩ := CellKey.valid_iff.1 hk
  have hfirst : 1 ≤ k.first.toNat := hfirst
  have hlast : 1 ≤ k.last.toNat := Nat.le_trans hfirst hle
  rw [offset?, if_pos hk, h.len, h.symbols, Constituent.place]
  simp only [CellKey.constituent, UInt64.ofNat_add, UInt64.ofNat_mul, UInt64.ofNat_sub hfirst,
    UInt64.ofNat_sub hlast, UInt64.ofNat_toNat]
  rfl

/-- The offset of a key lies inside the table. -/
theorem exists_offset (h : t.Represents m) (hk : k.Valid t.len t.symbols) :
    ∃ i, t.offset? k = some i ∧ i.toNat = k.constituent.place m.len m.symbols ∧
      i.toNat < t.cells.size := by
  have hplace := Constituent.place_lt (h.valid_iff.1 hk)
  rw [← m.size_cells, h.cells] at hplace
  have hword := UInt64.toNat_ofNat_of_lt' (Nat.lt_trans hplace (h.size_cells ▸ h.fits))
  exact ⟨_, h.offset?_eq hk, hword, by rwa [hword]⟩

/-- Reading never fails. -/
theorem get?_eq (h : t.Represents m) (k : CellKey) : t.get? k = .ok (m.get? k.constituent) := by
  by_cases hk : k.Valid t.len t.symbols
  · obtain ⟨i, hi, hplace, hlt⟩ := h.exists_offset hk
    have hcell : m.get? k.constituent = t.cells[i.toNat] := by
      simp only [SpanMap.get?, dif_pos (h.valid_iff.1 hk), ← hplace, h.cells]
    simp only [SpanTable.get?, hi, Array.getElem?_eq_getElem hlt, hcell]
  · rw [SpanTable.get?, offset?, if_neg hk, SpanMap.get?, dif_neg (mt h.valid_iff.2 hk)]

/-- Neither does setting. -/
theorem set (h : t.Represents m) (k : CellKey) (a : α) :
    ∃ t', t.set k a = .ok t' ∧ t'.Represents (m.set k.constituent a) := by
  by_cases hk : k.Valid t.len t.symbols
  · obtain ⟨i, hi, hplace, hlt⟩ := h.exists_offset hk
    have hvalid := h.valid_iff.1 hk
    refine ⟨{ t with cells := t.cells.set i.toNat (some a) hlt }, ?_, ?_⟩
    · simp only [SpanTable.set, hi, dif_pos hlt]
    · refine ⟨(SpanMap.len_set ..).trans h.len, (SpanMap.symbols_set ..).trans h.symbols, ?_,
        h.fits⟩
      simp only [SpanMap.set, dif_pos hvalid, ← hplace, h.cells, Array.setIfInBounds, dif_pos hlt]
  · refine ⟨t, by rw [SpanTable.set, offset?, if_neg hk], ?_⟩
    rwa [SpanMap.set, dif_neg (mt h.valid_iff.2 hk)]

/-- Offsets inside the table are decoded to the keys whose places they are. -/
theorem constituent_keyAt (h : t.Represents m) {i : Nat} (hi : i < t.cells.size) :
    (t.keyAt (.ofNat i)).constituent = .ofPlace m.len m.symbols i := by
  rw [h.size_cells] at hi
  have hword : (UInt64.ofNat i).toNat = i := UInt64.toNat_ofNat_of_lt' (Nat.lt_trans hi h.fits)
  have hspan : i / t.symbols.toNat < t.len.toNat * t.len.toNat :=
    Nat.div_lt_of_lt_mul (Nat.mul_comm _ _ ▸ hi)
  have hfirst : i / t.symbols.toNat / t.len.toNat < t.len.toNat := Nat.div_lt_of_lt_mul hspan
  have hlast : i / t.symbols.toNat % t.len.toNat < t.len.toNat :=
    Nat.mod_lt _ (Nat.zero_lt_of_lt hfirst)
  have hlen := t.len.toNat_lt
  simp only [keyAt, CellKey.constituent, Constituent.ofPlace, h.len, h.symbols, UInt64.toNat_add,
    UInt64.toNat_div, UInt64.toNat_mod, hword, UInt64.toNat_one]
  rw [Nat.mod_eq_of_lt (by omega), Nat.mod_eq_of_lt (by omega)]

/-- Both list the same cells. -/
theorem map_toList (h : t.Represents m) :
    t.toList.map (fun e => (e.1.constituent, e.2)) = m.toList := by
  simp only [SpanTable.toList, SpanMap.toList, List.map_filterMap, h.cells, Option.map_map]
  refine List.filterMap_congr fun p hp => ?_
  have hi : p.2 < t.cells.size := List.snd_lt_of_mem_zipIdx hp
  simp only [Function.comp_def, h.constituent_keyAt hi]

end Represents

/-! ## All keys that were set -/

/-- Sets keys one after the other. -/
def setAll (t : SpanTable α) (sets : List (CellKey × α)) : Except OutOfBounds (SpanTable α) :=
  sets.foldlM (fun t s => t.set s.1 s.2) t

theorem Represents.setAll {t : SpanTable α} {m : SpanMap α} (h : t.Represents m)
    (sets : List (CellKey × α)) :
    ∃ t', t.setAll sets = .ok t' ∧
      t'.Represents (m.setAll (sets.map fun s => (s.1.constituent, s.2))) := by
  induction sets generalizing t m with
  | nil => exact ⟨t, rfl, h⟩
  | cons s sets ih =>
    obtain ⟨u, hu, hstep⟩ := h.set s.1 s.2
    obtain ⟨t', ht', hrun⟩ := ih hstep
    refine ⟨t', ?_, hrun⟩
    rw [SpanTable.setAll, List.foldlM_cons, hu]
    exact ht'

/-- What a table with so many words and symbols holds in which keys were set one after the
other. -/
structure MapOf (t : SpanTable α) (len symbols : UInt64) (sets : List (CellKey × α)) : Prop where
  get?_eq (k : CellKey) :
    t.get? k = .ok (if k.Valid len symbols then lastValue? sets k else none)
  mem_toList (k : CellKey) (a : α) :
    (k, a) ∈ t.toList ↔ k.Valid len symbols ∧ lastValue? sets k = some a
  mem_keys (k : CellKey) :
    k ∈ t.toList.map Prod.fst ↔ k.Valid len symbols ∧ k ∈ sets.map Prod.fst
  nodup_keys : (t.toList.map Prod.fst).Nodup
  ascending : t.toList.Pairwise fun p q => p.1.Before q.1
  /-- A cell that is set is decoded to the key that was set there; there are words and symbols to
  divide by. -/
  decoded {i : Nat} {a : α} : t.cells[i]? = some (some a) → 0 < len ∧ 0 < symbols ∧
    ∃ k : CellKey, k.Valid len symbols ∧ t.offset? k = some (.ofNat i) ∧
      t.keyAt (.ofNat i) = k ∧ lastValue? sets k = some a
  filled_eq : t.filled = (sets.map Prod.fst).dedup.countP fun k => k.Valid len symbols

section Map

variable {t : SpanTable α} {m : SpanMap α} {sets : List (CellKey × α)}

theorem Represents.mem_toList (h : t.Represents m) {k : CellKey} {a : α} :
    (k, a) ∈ t.toList ↔ m.get? k.constituent = some a := by
  rw [← SpanMap.mem_toList, ← h.map_toList, List.mem_map]
  constructor
  · exact fun hmem => ⟨_, hmem, rfl⟩
  · rintro ⟨e, hmem, he⟩
    obtain ⟨hkey, rfl⟩ := Prod.mk.inj he
    exact CellKey.constituent_inj.1 hkey ▸ hmem

theorem Represents.pairwise_toList (h : t.Represents m) :
    t.toList.Pairwise fun p q => p.1.Before q.1 := by
  have hpairs := m.pairwise_toList
  rw [← h.map_toList, List.pairwise_map] at hpairs
  exact hpairs.imp CellKey.before_iff.2

theorem Represents.length_toList (h : t.Represents m) : t.toList.length = t.filled := by
  have hlength := congrArg List.length h.map_toList
  rw [List.length_map, SpanMap.length_toList, SpanMap.size, h.cells] at hlength
  exact hlength

/-- A cell that is set is decoded to its key. -/
theorem Represents.decoded (h : t.Represents m) {i : Nat} {a : α}
    (hi : t.cells[i]? = some (some a)) :
    (t.keyAt (.ofNat i)).Valid t.len t.symbols ∧
      t.offset? (t.keyAt (.ofNat i)) = some (.ofNat i) ∧
      m.get? (t.keyAt (.ofNat i)).constituent = some a := by
  have hkey := h.constituent_keyAt (Array.getElem?_eq_some_iff.1 hi).1
  have hcell : m.cells[i]? = some (some a) := h.cells ▸ hi
  have hvalid := m.valid_of_set i a hcell
  have hplace := Constituent.place_ofPlace m.len m.symbols i
  rw [← hkey] at hvalid hplace
  refine ⟨h.valid_iff.2 hvalid, ?_, SpanMap.get?_eq_some_iff.2 ⟨hvalid, ?_⟩⟩
  · rw [h.offset?_eq (h.valid_iff.2 hvalid), hplace]
  · rw [hplace, hcell]

theorem Represents.mapOf (h : t.Represents m)
    (hget : ∀ k : CellKey, m.get? k.constituent =
      if k.Valid t.len t.symbols then lastValue? sets k else none) :
    t.MapOf t.len t.symbols sets := by
  have hlist (k : CellKey) (a : α) :
      (k, a) ∈ t.toList ↔ k.Valid t.len t.symbols ∧ lastValue? sets k = some a := by
    rw [h.mem_toList, hget]
    split <;> simp_all
  have hkeys (k : CellKey) :
      k ∈ t.toList.map Prod.fst ↔ k.Valid t.len t.symbols ∧ k ∈ sets.map Prod.fst := by
    rw [← isSome_lastValue?_iff sets, Option.isSome_iff_exists, ← exists_and_left]
    simp only [List.mem_map, Prod.exists, exists_and_right, exists_eq_right, hlist]
  have hnodup : (t.toList.map Prod.fst).Nodup :=
    List.pairwise_map.2 (h.pairwise_toList.imp CellKey.Before.ne)
  constructor
  case get?_eq => exact fun k => (h.get?_eq k).trans (congrArg _ (hget k))
  case mem_toList => exact hlist
  case mem_keys => exact hkeys
  case nodup_keys => exact hnodup
  case ascending => exact h.pairwise_toList
  case decoded =>
    intro i a hi
    obtain ⟨hvalid, hoffset, hvalue⟩ := h.decoded hi
    rw [hget, if_pos hvalid] at hvalue
    obtain ⟨hfirst, hle, hlast, hsymbol⟩ := hvalid
    exact ⟨by grind, by grind, _, ⟨hfirst, hle, hlast, hsymbol⟩, hoffset, rfl, hvalue⟩
  case filled_eq =>
    have hperm : (t.toList.map Prod.fst).Perm
        ((sets.map Prod.fst).dedup.filter fun k => k.Valid t.len t.symbols) := by
      refine (List.perm_ext_iff_of_nodup hnodup ((List.nodup_dedup _).filter _)).2 fun k => ?_
      rw [hkeys, List.mem_filter, List.mem_dedup, decide_eq_true_iff, and_comm]
    rw [List.countP_eq_length_filter, ← hperm.length_eq, List.length_map, h.length_toList]

end Map

/-- Keys may be set in any number and order, valid or not, in a table of any dimensions whose cells
can be counted in a word: no call fails. -/
theorem mapOf_setAll (len symbols : UInt64) (sets : List (CellKey × α))
    (hfits : len.toNat * len.toNat * symbols.toNat < UInt64.size) :
    ∃ t, (empty len symbols).setAll sets = .ok t ∧ t.MapOf len symbols sets := by
  obtain ⟨t, ht, h⟩ := (represents_empty (α := α) hfits).setAll sets
  have hlen := h.len.symm.trans (SpanMap.len_setAll ..)
  have hsymbols := h.symbols.symm.trans (SpanMap.symbols_setAll ..)
  obtain rfl : t.len = len := UInt64.toNat_inj.1 hlen
  obtain rfl : t.symbols = symbols := UInt64.toNat_inj.1 hsymbols
  refine ⟨t, ht, h.mapOf fun k => ?_⟩
  rw [SpanMap.get?_setAll, lastValue?_map_key fun _ _ => CellKey.constituent_inj.1]
  simp only [CellKey.valid_iff]

/-- A key that is set twice, and two keys outside a table for three words. -/
def overlapping : List (CellKey × Char) :=
  [(⟨2, 2, 0⟩, 'a'), (⟨1, 3, 1⟩, 'b'), (⟨3, 2, 0⟩, 'c'), (⟨1, 4, 0⟩, 'd'), (⟨2, 2, 0⟩, 'e')]

theorem mapOf_setAll_overlapping :
    (3 : UInt64).toNat * (3 : UInt64).toNat * (2 : UInt64).toNat < UInt64.size ∧
    ∃ t, (empty 3 2).setAll overlapping = .ok t ∧ t.MapOf 3 2 overlapping ∧
      t.toList = [(⟨1, 3, 1⟩, 'b'), (⟨2, 2, 0⟩, 'e')] := by
  have hfits : (3 : UInt64).toNat * (3 : UInt64).toNat * (2 : UInt64).toNat < UInt64.size := by
    decide
  obtain ⟨t, ht, hmap⟩ := mapOf_setAll 3 2 overlapping hfits
  have hlist : ((empty 3 2).setAll overlapping).toOption.map toList =
      some [(⟨1, 3, 1⟩, 'b'), (⟨2, 2, 0⟩, 'e')] := by decide +kernel
  rw [ht] at hlist
  exact ⟨hfits, t, ht, hmap, Option.some.inj hlist⟩

/-- Without the bound the number of cells is wrapped. For two words and `2 ^ 62 + 1` symbols there
are four cells, and a key is found that was never set; for `2 ^ 32` words and one symbol there are
no cells at all. -/
theorem not_mapOf_setAll_wrapped :
    (∃ t, (empty 2 4611686018427387905).setAll [(⟨1, 1, 0⟩, 'a')] = .ok t ∧
      CellKey.Valid ⟨2, 2, 4611686018427387901⟩ 2 4611686018427387905 ∧
      t.get? ⟨2, 2, 4611686018427387901⟩ = .ok (some 'a') ∧
      ¬t.MapOf 2 4611686018427387905 [(⟨1, 1, 0⟩, 'a')]) ∧
    (empty 4294967296 1).setAll [(⟨1, 1, 0⟩, 'a')] = .error ⟨0, 0⟩ := by
  refine ⟨⟨⟨2, 4611686018427387905, #[some 'a', none, none, none]⟩, ?_⟩, ?_⟩
  · have hget : (⟨2, 4611686018427387905, #[some 'a', none, none, none]⟩ : SpanTable Char).get?
        ⟨2, 2, 4611686018427387901⟩ = .ok (some 'a') := by decide +kernel
    refine ⟨by decide +kernel, by decide +kernel, hget, fun h => ?_⟩
    have hnever := h.get?_eq ⟨2, 2, 4611686018427387901⟩
    rw [hget] at hnever
    exact absurd hnever (by decide +kernel)
  · decide +kernel

end SpanTable

end TabularParsing
