import TabularParsing.Span.Chart
import TabularParsing.Tree.Basic

/-!
# Trees from span charts

The tree below a cell follows backpointers. A path that visits more cells than the table has never
ends, so following is cut off there.
-/
namespace TabularParsing

/-- How to read a backpointer and a weight off a cell. -/
structure CellView (α W : Type) where
  origin : α → Backpointer
  weight : α → W

namespace SpanMap

variable {α W : Type}

/-- What a backpointer puts below a node: the word at a position, counted from 1, or two trees. -/
def childTrees (tokens : List String) (subtree : Constituent → Option (Tree W)) :
    Backpointer → Option (List (Tree W))
  | .leaf 0 => none
  | .leaf (position + 1) =>
    tokens[position]?.map fun word => [.leaf word ⟨position, position + 1⟩]
  | .split left right => do return [← subtree left, ← subtree right]

/-- The tree below a cell, following at most `n` backpointers in a row. -/
def treeWithin (view : CellView α W) (symbols tokens : List String) (t : SpanMap α) :
    Nat → Constituent → Option (Tree W)
  | 0, _ => none
  | n + 1, k => do
    let cell ← t.get? k
    let symbol ← symbols[k.symbol]?
    let children ← childTrees tokens (treeWithin view symbols tokens t n) (view.origin cell)
    return .node symbol (view.weight cell) ⟨k.first - 1, k.last⟩ children

/-- The derivation of a cell: none if the cell is not set. -/
def tree (view : CellView α W) (g : Grammar) (tokens : List String) (t : SpanMap α)
    (k : Constituent) : Option (Tree W) :=
  t.treeWithin view g.nonterminals tokens (t.cells.size + 1) k

end SpanMap

end TabularParsing
