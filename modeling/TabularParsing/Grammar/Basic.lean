import TabularParsing.Grammar.Tables

/-!
# Grammars in Chomsky normal form

A grammar is made of a non-empty list of rules, later copies dropped. Word rules and pair rules, the
nonterminals, the alternatives of a symbol and the indices used by span charts are read off the
tables that were filled when it was made.
-/
namespace TabularParsing

structure Grammar where
  /-- The rules that the grammar was made of. They say what the grammar means; what runs reads the
  tables. -/
  source : List Rule
  source_ne_nil : source ≠ []
  tables : Grammar.Tables
  tables_eq : tables = .ofRules source

namespace Grammar

/-- The grammar of some rules. -/
def make (rules : List Rule) (h : rules ≠ []) : Grammar := ⟨rules, h, .ofRules rules, rfl⟩

/-- The grammar of a list of rules; none for an empty list. -/
def ofRules? (rules : List Rule) : Option Grammar :=
  if h : rules = [] then none else some (make rules h)

/-- The rules in the order in which they first occurred. -/
def rules (g : Grammar) : List Rule := g.source.eraseDups

def wordRules (g : Grammar) : List Rule := g.tables.words.toList
def pairRules (g : Grammar) : List Rule := g.tables.pairs.toList

/-- All rules, word rules first. -/
def sortedRules (g : Grammar) : List Rule := g.wordRules ++ g.pairRules

/-- The left-hand sides in order of first appearance. -/
def nonterminals (g : Grammar) : List String := g.tables.nonterminals.toList

/-- The rules of a symbol: its word rules, then its pair rules. -/
def alternatives (g : Grammar) (symbol : String) : List Rule :=
  (g.tables.alternatives.getD symbol #[]).toList

def index? (g : Grammar) (symbol : String) : Option Nat := g.tables.index[symbol]?

def isNonterminal (g : Grammar) (symbol : String) : Bool := g.tables.index.contains symbol

def contains (g : Grammar) (r : Rule) : Bool := (g.alternatives r.lhs).contains r

/-- The indices of each pair rule, in the order of `pairRules`. -/
def pairIndices (g : Grammar) : List (Option PairIndices) := g.tables.pairIndices.toList

end Grammar

end TabularParsing
