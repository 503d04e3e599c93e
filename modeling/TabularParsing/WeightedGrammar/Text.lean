import TabularParsing.Decimal.Style
import TabularParsing.Format.Line
import TabularParsing.WeightedGrammar.Basic

/-!
# Weighted grammars as text

A line whose left-hand side starts with an uppercase letter is a rule; any other line lists one
word in a category. Printing sorts by symbol.
-/
namespace TabularParsing.WeightedGrammar

/-- The start symbol of a grammar that names none. -/
def standardStart : String := "S"

/-- Adds what one line says; faults are those of that line. -/
def addEntry (g : WeightedGrammar Float) (line : Nat) (e : Format.WeightedEntry) :
    Except FormatError (WeightedGrammar Float) :=
  if Text.startsUppercase e.lhs then
    (g.addSymbols e.lhs e.symbols e.weight).mapError fun f => ⟨line, f.fault⟩
  else
    match e.symbols with
    | [word] => .ok (g.listWord e.lhs word e.weight)
    | symbols => .error ⟨line, .badArity symbols.length⟩

def ofText (text : String) : Except FormatError (WeightedGrammar Float) := do
  let entries ← Format.readWeightedRules text
  let g ← entries.foldlM (fun g e => g.addEntry e.1 e.2) (empty standardStart)
  if g.rules.isEmpty then .error FormatFault.emptyGrammar.unplaced else return g

def text (g : WeightedGrammar Float) : String :=
  String.join (g.allRules.map fun r => r.text ++ " " ++ Decimal.plain r.weight ++ "\n") ++
    String.join (g.allWords.map fun (c, w, p) =>
      c ++ " -> " ++ w ++ " " ++ Decimal.plain p ++ "\n")

end TabularParsing.WeightedGrammar
