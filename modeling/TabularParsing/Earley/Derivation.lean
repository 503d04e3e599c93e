import TabularParsing.Earley.Agenda
import TabularParsing.Tree.Basic

/-!
# Trees from charts of items

The tree of an item has a leaf for every word before the dot and a tree for every completed item
below it. An item that lies on the path from the root already is left out, so that charts with
cycles have trees too.
-/
namespace TabularParsing.Earley

variable {W : Type}

/-- The trees below an item. Productions that are words of the input cover one position; every
other production takes the next of the completed items. -/
def childTrees (c : Chart W) (isCategory : String → Bool) (path : List Nat)
    (subtree : Nat → Except Fault (Tree W)) :
    List Production → List Nat → Nat → Except Fault (List (Tree W))
  | [], _, _ => .ok []
  | p :: ps, places, position =>
    if p.isTerminal && !isCategory p.symbol then do
      let rest ← childTrees c isCategory path subtree ps places (position + 1)
      return .leaf p.symbol ⟨position, position + 1⟩ :: rest
    else
      match places with
      | [] => .ok []
      | place :: places => do
        let child ← c.item place
        if place ∈ path then childTrees c isCategory path subtree ps places child.stop
        else
          let t ← subtree place
          let rest ← childTrees c isCategory path subtree ps places child.stop
          return t :: rest

/-- The tree of an item below a path of items, at most `n` items deep. -/
def treeWithin (c : Chart W) (isCategory : String → Bool) :
    Nat → List Nat → Nat → Except Fault (Tree W)
  | 0, _, _ => .error .outOfSteps
  | n + 1, path, place => do
    let i ← c.item place
    if i.dotted.rule.productions.length < i.dotted.dot then .error .dotAtEnd
    else
      let children ← childTrees c isCategory (place :: path)
        (treeWithin c isCategory n (place :: path))
        (i.dotted.rule.productions.take i.dotted.dot) i.children i.origin
      return .node i.symbol i.weight ⟨i.origin, i.stop⟩ children

/-- The tree of an item. A path repeats no item, so it is never cut off. -/
def Chart.tree (c : Chart W) (g : WeightedGrammar W) (place : Nat) : Except Fault (Tree W) :=
  treeWithin c g.isCategory (c.items.size + 1) [] place

end TabularParsing.Earley
