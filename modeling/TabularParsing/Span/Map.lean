/-!
# Maps over spans

A dense table of cells addressed by a span of a sentence and a symbol. Positions count from 1 and
both ends belong to the span. Cells whose key lies outside the table are never set; reading one
gives nothing. Dimensions and keys have no bound here; `SpanTable` is the table in machine words.
-/
namespace TabularParsing

structure Constituent where
  first : Nat
  last : Nat
  symbol : Nat
  deriving DecidableEq, Inhabited

namespace Constituent

/-- Whether the key addresses a cell in a table for `len` words and `symbols` symbols. -/
def Valid (k : Constituent) (len symbols : Nat) : Prop :=
  0 < k.first ∧ k.first ≤ k.last ∧ k.last ≤ len ∧ k.symbol < symbols

instance (k : Constituent) (len symbols : Nat) : Decidable (k.Valid len symbols) :=
  inferInstanceAs (Decidable (_ ∧ _ ∧ _ ∧ _))

/-- The place of a valid key among `len * len * symbols` cells. -/
def place (k : Constituent) (len symbols : Nat) : Nat :=
  ((k.first - 1) * len + (k.last - 1)) * symbols + k.symbol

/-- The key whose place this is. -/
def ofPlace (len symbols i : Nat) : Constituent :=
  ⟨i / symbols / len + 1, i / symbols % len + 1, i % symbols⟩

theorem place_lt {k : Constituent} {len symbols : Nat} (h : k.Valid len symbols) :
    k.place len symbols < len * len * symbols := by
  obtain ⟨h1, h2, h3, h4⟩ := h
  have hspan : (k.first - 1) * len + (k.last - 1) + 1 ≤ len * len := by
    calc (k.first - 1) * len + (k.last - 1) + 1
        ≤ (k.first - 1) * len + len := by omega
      _ = (k.first - 1 + 1) * len := by rw [Nat.add_mul, Nat.one_mul]
      _ ≤ len * len := Nat.mul_le_mul_right _ (by omega)
  calc k.place len symbols
      < ((k.first - 1) * len + (k.last - 1)) * symbols + symbols := by unfold place; omega
    _ = ((k.first - 1) * len + (k.last - 1) + 1) * symbols := by rw [Nat.add_mul _ 1, Nat.one_mul]
    _ ≤ len * len * symbols := Nat.mul_le_mul_right _ hspan

theorem ofPlace_place {k : Constituent} {len symbols : Nat} (h : k.Valid len symbols) :
    ofPlace len symbols (k.place len symbols) = k := by
  obtain ⟨h1, h2, h3, h4⟩ := h
  have hs : 0 < symbols := by omega
  have hl : 0 < len := by omega
  have hdiv : k.place len symbols / symbols = (k.first - 1) * len + (k.last - 1) := by
    rw [place, Nat.add_comm, Nat.add_mul_div_right _ _ hs, Nat.div_eq_of_lt h4, Nat.zero_add]
  have hmod : k.place len symbols % symbols = k.symbol := by
    rw [place, Nat.add_comm, Nat.add_mul_mod_self_right, Nat.mod_eq_of_lt h4]
  have hdiv' : ((k.first - 1) * len + (k.last - 1)) / len = k.first - 1 := by
    rw [Nat.add_comm, Nat.add_mul_div_right _ _ hl, Nat.div_eq_of_lt (by omega), Nat.zero_add]
  have hmod' : ((k.first - 1) * len + (k.last - 1)) % len = k.last - 1 := by
    rw [Nat.add_comm, Nat.add_mul_mod_self_right, Nat.mod_eq_of_lt (by omega)]
  cases k
  simp only [ofPlace, hdiv, hmod, hdiv', hmod', mk.injEq, and_true] at *
  omega

theorem place_ofPlace (len symbols i : Nat) :
    (ofPlace len symbols i).place len symbols = i := by
  simp only [ofPlace, place, Nat.add_sub_cancel]
  rw [Nat.mul_comm (i / symbols / len), Nat.div_add_mod, Nat.mul_comm, Nat.div_add_mod]

end Constituent

structure SpanMap (α : Type) where
  len : Nat
  symbols : Nat
  cells : Array (Option α)
  size_cells : cells.size = len * len * symbols
  /-- Only cells with a valid key are ever set. -/
  valid_of_set : ∀ (i : Nat) (a : α), cells[i]? = some (some a) →
    (Constituent.ofPlace len symbols i).Valid len symbols

namespace SpanMap

variable {α : Type}

def empty (len symbols : Nat) : SpanMap α where
  len := len
  symbols := symbols
  cells := Array.replicate (len * len * symbols) none
  size_cells := by simp
  valid_of_set i a h := by simp [Array.getElem?_replicate] at h

def get? (t : SpanMap α) (k : Constituent) : Option α :=
  if h : k.Valid t.len t.symbols then
    have : k.place t.len t.symbols < t.cells.size := t.size_cells ▸ Constituent.place_lt h
    t.cells[k.place t.len t.symbols]
  else none

def contains (t : SpanMap α) (k : Constituent) : Bool := (t.get? k).isSome

/-- Stores a value in a cell; a key outside the table changes nothing. -/
def set (t : SpanMap α) (k : Constituent) (a : α) : SpanMap α :=
  if hk : k.Valid t.len t.symbols then
    { len := t.len
      symbols := t.symbols
      cells := t.cells.setIfInBounds (k.place t.len t.symbols) (some a)
      size_cells := by simp [t.size_cells]
      valid_of_set := fun i b h => by
        rw [Array.getElem?_setIfInBounds] at h
        split at h
        · rename_i hi
          rw [← hi, Constituent.ofPlace_place hk]
          exact hk
        · exact t.valid_of_set i b h }
  else t

/-- The cells that are set, ordered by first position, then last position, then symbol. -/
def toList (t : SpanMap α) : List (Constituent × α) :=
  t.cells.toList.zipIdx.filterMap fun p =>
    p.1.map fun a => (Constituent.ofPlace t.len t.symbols p.2, a)

/-- How many cells are set. -/
def size (t : SpanMap α) : Nat := t.cells.toList.countP Option.isSome

theorem get?_empty (len symbols : Nat) (k : Constituent) :
    (empty len symbols : SpanMap α).get? k = none := by
  unfold get? empty
  split <;> simp

@[simp] theorem len_set (t : SpanMap α) (k : Constituent) (a : α) : (t.set k a).len = t.len := by
  unfold set; split <;> rfl

@[simp] theorem symbols_set (t : SpanMap α) (k : Constituent) (a : α) :
    (t.set k a).symbols = t.symbols := by
  unfold set; split <;> rfl

theorem place_inj {len symbols : Nat} {k l : Constituent} (hk : k.Valid len symbols)
    (hl : l.Valid len symbols) : k.place len symbols = l.place len symbols ↔ k = l :=
  ⟨fun h => by
    rw [← Constituent.ofPlace_place hk, ← Constituent.ofPlace_place hl, h], fun h => h ▸ rfl⟩

theorem get?_set (t : SpanMap α) (k l : Constituent) (a : α) :
    (t.set k a).get? l = if k = l ∧ k.Valid t.len t.symbols then some a else t.get? l := by
  by_cases hk : k.Valid t.len t.symbols
  · by_cases hl : l.Valid t.len t.symbols
    · have hlt : l.place t.len t.symbols < t.cells.size := t.size_cells ▸ Constituent.place_lt hl
      simp only [get?, set, hk, hl, dif_pos, and_true]
      rw [Array.getElem_setIfInBounds hlt]
      simp only [place_inj hk hl]
    · have : k ≠ l := fun h => hl (h ▸ hk)
      simp [get?, set, hk, hl, this]
  · simp [set, hk]

theorem valid_of_get? {t : SpanMap α} {k : Constituent} {a : α} (h : t.get? k = some a) :
    k.Valid t.len t.symbols := by
  unfold get? at h
  split at h
  · assumption
  · cases h

theorem get?_eq_some_iff {t : SpanMap α} {k : Constituent} {a : α} :
    t.get? k = some a ↔
      k.Valid t.len t.symbols ∧ t.cells[k.place t.len t.symbols]? = some (some a) := by
  by_cases hk : k.Valid t.len t.symbols
  · have hlt : k.place t.len t.symbols < t.cells.size := t.size_cells ▸ Constituent.place_lt hk
    simp [get?, hk, hlt]
  · simp [get?, hk]

/-- The list of a map holds what the map holds. -/
theorem mem_toList {t : SpanMap α} {k : Constituent} {a : α} :
    (k, a) ∈ t.toList ↔ t.get? k = some a := by
  simp only [toList, List.mem_filterMap, get?_eq_some_iff]
  constructor
  · rintro ⟨⟨cell, i⟩, hi, h⟩
    rw [List.mem_zipIdx_iff_getElem?, Array.getElem?_toList] at hi
    obtain ⟨b, rfl, hb⟩ := Option.map_eq_some_iff.1 h
    obtain ⟨rfl, rfl⟩ := Prod.mk.inj hb
    exact ⟨t.valid_of_set i b hi, by rw [Constituent.place_ofPlace]; exact hi⟩
  · rintro ⟨hk, h⟩
    refine ⟨(some a, k.place t.len t.symbols), ?_, ?_⟩
    · rw [List.mem_zipIdx_iff_getElem?, Array.getElem?_toList]
      exact h
    · simp [Constituent.ofPlace_place hk]

end SpanMap

end TabularParsing
