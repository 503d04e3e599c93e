import TabularParsing.Text.Uppercase

/-!
# Weighted context-free rules

The right-hand side is a list of productions: terminals are consumed, nonterminals are expanded.
The weight is no part of a rule's identity.
-/
namespace TabularParsing

inductive Production where
  | terminal (symbol : String)
  | nonterminal (symbol : String)
  deriving DecidableEq, Inhabited

namespace Production

/-- A symbol that starts with an uppercase letter is a nonterminal. -/
def ofSymbol (symbol : String) : Production :=
  if Text.startsUppercase symbol then .nonterminal symbol else .terminal symbol

def symbol : Production → String
  | .terminal s => s
  | .nonterminal s => s

def isTerminal : Production → Bool
  | .terminal _ => true
  | .nonterminal _ => false

def isNonterminal (p : Production) : Bool := !p.isTerminal

@[simp] theorem symbol_ofSymbol (s : String) : (ofSymbol s).symbol = s := by
  unfold ofSymbol; split <;> rfl

/-- Productions that their spelling tells apart are kept. -/
theorem map_ofSymbol {ps : List Production} (h : ∀ p ∈ ps, p = ofSymbol p.symbol) :
    (ps.map symbol).map ofSymbol = ps := by
  rw [List.map_map]
  exact (List.map_congr_left fun p hp => (h p hp).symm).trans (List.map_id _)

end Production

structure WeightedRule (W : Type) where
  symbol : String
  productions : List Production
  weight : W

namespace WeightedRule

variable {W : Type}

/-- Same symbol and same right-hand side, whatever the weights. -/
def same (r s : WeightedRule W) : Bool :=
  r.symbol == s.symbol && r.productions == s.productions

theorem same_iff {r s : WeightedRule W} :
    r.same s = true ↔ r.symbol = s.symbol ∧ r.productions = s.productions := by
  simp [same]

def text (r : WeightedRule W) : String :=
  r.productions.foldl (fun t p => t ++ " " ++ p.symbol) (r.symbol ++ " ->")

end WeightedRule

end TabularParsing
