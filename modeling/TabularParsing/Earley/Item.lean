import TabularParsing.WeightedRule

/-!
# Items

An item is a rule with a dot in its right-hand side: what stands before the dot covers the input
from the item's origin to its current position. How it was found, the completed items below it and
its weight describe the best derivation of it so far and are no part of its identity.
-/
namespace TabularParsing.Earley

structure DottedRule (W : Type) where
  rule : WeightedRule W
  /-- How many productions stand before the dot. -/
  dot : Nat

namespace DottedRule

variable {W : Type}

def ofRule (r : WeightedRule W) : DottedRule W := ⟨r, 0⟩

def isActive (d : DottedRule W) : Bool := d.dot < d.rule.productions.length

/-- The production behind the dot. -/
def next? (d : DottedRule W) : Option Production := d.rule.productions[d.dot]?

/-- The dot moved over one production. -/
def advance (d : DottedRule W) : DottedRule W := ⟨d.rule, d.dot + 1⟩

def same (d e : DottedRule W) : Bool := d.rule.same e.rule && d.dot == e.dot

theorem isActive_iff {d : DottedRule W} : d.isActive = true ↔ d.next?.isSome = true := by
  simp [isActive, next?]

theorem isActive_eq_false_iff {d : DottedRule W} : d.isActive = false ↔ d.next? = none := by
  simp [isActive, next?]

/-- What stands before the dot after it moved. -/
theorem take_advance {d : DottedRule W} {p : Production} (h : d.next? = some p) :
    d.advance.rule.productions.take d.advance.dot = d.rule.productions.take d.dot ++ [p] := by
  have hget : d.rule.productions[d.dot]? = some p := h
  simp only [advance, List.take_add_one, hget, Option.toList_some]

end DottedRule

/-- The operation that put an item into a chart. -/
inductive Operation where
  | prediction
  | scan
  | completion
  /-- The first item of a parse. -/
  | initial
  deriving DecidableEq, Inhabited

structure Item (W : Type) where
  dotted : DottedRule W
  origin : Nat
  stop : Nat
  operation : Operation
  /-- The completed items below the symbols before the dot, as places in the chart's arena. Words
  have none. -/
  children : List Nat
  weight : W
  /-- Whether the item belongs to the goal rule of the parse rather than to the grammar. -/
  forGoal : Bool

namespace Item

variable {W : Type}

def symbol (i : Item W) : String := i.dotted.rule.symbol

def isComplete (i : Item W) : Bool := !i.dotted.isActive

/-- Same dotted rule over the same part of the input. -/
def sameEdge (i j : Item W) : Bool :=
  i.dotted.same j.dotted && i.origin == j.origin && i.stop == j.stop

/-- The items that merge in a chart: root items only with root items. -/
def merges (i j : Item W) : Bool := i.sameEdge j && i.forGoal == j.forGoal

end Item

end TabularParsing.Earley
