import TabularParsing.Earley.Derivation
import TabularParsing.Text.Blank

/-!
# Parsing a sentence

A sentence is accepted if its last state holds the completed goal rule. That item carries the
weight of the best derivation and leads to its tree.
-/
namespace TabularParsing.Earley

/-- A finished chart with what it was made from. -/
structure Parse (W : Type) where
  grammar : WeightedGrammar W
  /-- How many words the sentence has. -/
  length : Nat
  chart : Chart W

namespace Parse

variable {W : Type}

/-- Nothing parsed yet. -/
def idle (g : WeightedGrammar W) : Parse W := ⟨g, 0, ⟨#[], #[]⟩⟩

/-- Parses a list of words with at most `limit` turns for each state. -/
def ofTokens [One W] [Mul W] [LT W] [DecidableLT W] (limit : Nat) (g : WeightedGrammar W)
    (tokens : List String) : Except Fault (Parse W) :=
  (fillChart limit g tokens).map fun c => ⟨g, tokens.length, c⟩

def ofSentence [One W] [Mul W] [LT W] [DecidableLT W] (limit : Nat) (g : WeightedGrammar W)
    (sentence : String) : Except Fault (Parse W) :=
  ofTokens limit g (Text.words sentence)

/-- Whether an item is the goal rule, completed over the input from its start. -/
def isGoal (i : Item W) : Bool := i.forGoal && i.isComplete && i.origin == 0

/-- The places of the completed goal items. There is one at most, as they merge. -/
def goals (p : Parse W) : List Nat :=
  (p.chart.states[p.length]?.getD #[]).toList.filter fun place =>
    p.chart.items[place]?.any isGoal

def accepts (p : Parse W) : Bool := !p.goals.isEmpty

def goal? (p : Parse W) : Option (Item W) :=
  p.goals.head? >>= fun place => p.chart.items[place]?

/-- The weight of the best derivation, zero if there is none. -/
def probability [Zero W] (p : Parse W) : W :=
  match p.goal? with
  | some i => i.weight
  | none => 0

/-- The tree of the best derivation, none if there is none. -/
def tree? (p : Parse W) : Except Fault (Option (Tree W)) :=
  match p.goal? >>= fun i => i.children.head? with
  | some place => (p.chart.tree p.grammar place).map some
  | none => .ok none

end Parse

end TabularParsing.Earley
