import TabularParsing.Grammar.Basic

/-!
# Weights of rules

A table of weights; a rule that it does not hold has weight zero.
-/
namespace TabularParsing

/-- The sum of a list from left to right, begun with its first member. -/
def sumOf {W : Type} [Zero W] [Add W] : List W → W
  | [] => 0
  | w :: ws => ws.foldl (· + ·) w

/-- Whether a sum lies farther from one than a tolerance. -/
def offOne {W : Type} [One W] [Sub W] [LT W] [DecidableLT W] (tolerance sum : W) : Bool :=
  tolerance < sum - 1 || tolerance < 1 - sum

structure RuleWeights (W : Type) where
  entries : Std.TreeMap Rule W

namespace RuleWeights

variable {W : Type}

def empty : RuleWeights W := ⟨∅⟩

def get? (t : RuleWeights W) (r : Rule) : Option W := t.entries[r]?

def get [Zero W] (t : RuleWeights W) (r : Rule) : W := (t.get? r).getD 0

def insert (t : RuleWeights W) (r : Rule) (w : W) : RuleWeights W := ⟨t.entries.insert r w⟩

def size (t : RuleWeights W) : Nat := t.entries.size

/-- The entries in the order of their rules. -/
def toList (t : RuleWeights W) : List (Rule × W) := t.entries.toList

/-- The table of a list of entries; of two for one rule the later counts. -/
def ofList (es : List (Rule × W)) : RuleWeights W := es.foldl (fun t e => t.insert e.1 e.2) empty

/-- Weight one for every rule of a grammar. -/
def ones [One W] (g : Grammar) : RuleWeights W := ofList (g.sortedRules.map fun r => (r, 1))

/-- The rules of the table that are not rules of the grammar, in order. -/
def strayRules (t : RuleWeights W) (g : Grammar) : List Rule :=
  (t.toList.map Prod.fst).filter fun r => !g.contains r

/-- The nonterminals whose alternatives do not weigh one in all, within the tolerance, each with
the sum. -/
def unnormalized [Zero W] [One W] [Add W] [Sub W] [LT W] [DecidableLT W]
    (t : RuleWeights W) (g : Grammar) (tolerance : W) : List (String × W) :=
  (g.nonterminals.map fun s => (s, sumOf ((g.alternatives s).map t.get))).filter
    fun p => offOne tolerance p.2

/-- Same rules and equal weights. -/
def same [BEq W] (t u : RuleWeights W) : Bool := t.toList == u.toList

@[simp] theorem get?_empty (r : Rule) : (empty : RuleWeights W).get? r = none := by
  simp [empty, get?]

@[simp] theorem get?_insert (t : RuleWeights W) (r s : Rule) (w : W) :
    (t.insert r w).get? s = if r = s then some w else t.get? s := by
  simp [insert, get?, Std.TreeMap.getElem?_insert]

end RuleWeights

end TabularParsing
