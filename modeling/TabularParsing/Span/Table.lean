import TabularParsing.Span.Map

/-!
# Span tables in machine words

The table that a span map stands for. Its dimensions, keys and offsets are words of 64 bits, so the
number of its cells and the offset of a key are taken modulo `2 ^ 64`. A key inside the dimensions
is looked up at its offset, wherever that lies; a cell that is not there is a fault.
-/
namespace TabularParsing

/-- The key of a cell: the first and the last position of a span, counted from 1, and a symbol. -/
structure CellKey where
  first : UInt64
  last : UInt64
  symbol : UInt64
  deriving DecidableEq, Inhabited

/-- A cell that is not there: the offset and the number of cells. -/
structure OutOfBounds where
  offset : UInt64
  size : Nat
  deriving DecidableEq, Inhabited

structure SpanTable (α : Type) where
  len : UInt64
  symbols : UInt64
  cells : Array (Option α)
  deriving DecidableEq

namespace CellKey

/-- Whether a table for `len` words and `symbols` symbols takes the key. -/
def Valid (k : CellKey) (len symbols : UInt64) : Prop :=
  0 < k.first ∧ k.first ≤ k.last ∧ k.last ≤ len ∧ k.symbol < symbols

instance (k : CellKey) (len symbols : UInt64) : Decidable (k.Valid len symbols) :=
  inferInstanceAs (Decidable (_ ∧ _ ∧ _ ∧ _))

/-- The key in numbers without a bound. -/
def constituent (k : CellKey) : Constituent := ⟨k.first.toNat, k.last.toNat, k.symbol.toNat⟩

end CellKey

namespace SpanTable

variable {α : Type}

def empty (len symbols : UInt64) : SpanTable α :=
  ⟨len, symbols, Array.replicate (len * len * symbols).toNat none⟩

def isEmpty (t : SpanTable α) : Bool := t.len == 0

/-- The offset of a key; none for a key that the table does not take. -/
def offset? (t : SpanTable α) (k : CellKey) : Option UInt64 :=
  if k.Valid t.len t.symbols then
    some (((k.first - 1) * t.len + (k.last - 1)) * t.symbols + k.symbol)
  else none

def get? (t : SpanTable α) (k : CellKey) : Except OutOfBounds (Option α) :=
  match t.offset? k with
  | none => .ok none
  | some i =>
    match t.cells[i.toNat]? with
    | some cell => .ok cell
    | none => .error ⟨i, t.cells.size⟩

def contains (t : SpanTable α) (k : CellKey) : Except OutOfBounds Bool :=
  (t.get? k).map Option.isSome

/-- Stores a value in a cell; a key that the table does not take changes nothing. -/
def set (t : SpanTable α) (k : CellKey) (a : α) : Except OutOfBounds (SpanTable α) :=
  match t.offset? k with
  | none => .ok t
  | some i =>
    if h : i.toNat < t.cells.size then .ok { t with cells := t.cells.set i.toNat (some a) h }
    else .error ⟨i, t.cells.size⟩

/-- How many cells are set. -/
def filled (t : SpanTable α) : Nat := t.cells.toList.countP Option.isSome

/-- The key that an offset is decoded to. -/
def keyAt (t : SpanTable α) (i : UInt64) : CellKey :=
  ⟨i / t.symbols / t.len + 1, i / t.symbols % t.len + 1, i % t.symbols⟩

/-- The cells that are set, in the order of their offsets. -/
def toList (t : SpanTable α) : List (CellKey × α) :=
  t.cells.toList.zipIdx.filterMap fun p => p.1.map fun a => (t.keyAt (.ofNat p.2), a)

end SpanTable

end TabularParsing
