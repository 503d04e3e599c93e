import TabularParsing.Decimal.Style
import TabularParsing.ScoredParse
import TabularParsing.Span.Table

/-!
# Span charts as text

One line a cell, with its key and how it came about; best scores stand in front of it.
-/
namespace TabularParsing

/-- Scores in a chart: whole numbers show `.0`, and powers of ten are used below `1e-4` and from
`1e16` on. -/
def scoreStyle : Decimal.Style := ⟨.up, fun e => -4 ≤ e && e < 16, true, false⟩

def Constituent.text (k : Constituent) : String :=
  "CellKey \x7b start: " ++ toString k.first ++ ", end: " ++ toString k.last ++ ", symbol: " ++
    toString k.symbol ++ " \x7d"

def Backpointer.text : Backpointer → String
  | leaf position => "Leaf(" ++ toString position ++ ")"
  | split left right => "Split(" ++ left.text ++ ", " ++ right.text ++ ")"

def BestCell.text (c : BestCell Float) : String :=
  "(" ++ scoreStyle.render c.score ++ ", " ++ c.origin.text ++ ")"

def cellLine (k : Constituent) (cell : String) : String :=
  "  (" ++ toString k.first ++ ", " ++ toString k.last ++ ", #" ++ toString k.symbol ++ "): " ++
    cell ++ "\n"

def SpanMap.text {α : Type} (cellText : α → String) (t : SpanMap α) : String :=
  String.join (t.toList.map fun (k, a) => cellLine k (cellText a))

def SpanTable.text {α : Type} (cellText : α → String) (t : SpanTable α) : String :=
  String.join (t.toList.map fun (k, a) => cellLine k.constituent (cellText a))

end TabularParsing
