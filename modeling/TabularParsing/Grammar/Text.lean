import TabularParsing.Format.Line
import TabularParsing.Grammar.Basic

/-!
# Grammars as text

One rule a line; printing goes through the nonterminals in order and lists the alternatives of
each.
-/
namespace TabularParsing.Grammar

def ofRules (rules : List Rule) : Except FormatError Grammar :=
  match ofRules? rules with
  | some g => .ok g
  | none => .error FormatFault.emptyGrammar.unplaced

def ofText (text : String) : Except FormatError Grammar := do
  ofRules (← Format.readRules text)

/-- The rules in the order in which they are printed. -/
def printedRules (g : Grammar) : List Rule := g.nonterminals.flatMap g.alternatives

def text (g : Grammar) : String :=
  String.join (g.printedRules.map fun r => r.text ++ "\n")

end TabularParsing.Grammar
