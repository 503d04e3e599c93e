import TabularParsing.Decimal.Style
import TabularParsing.Format.Line
import TabularParsing.RuleWeights.Basic

/-!
# Weights of rules as text

One rule with its weight a line, sorted by rule.
-/
namespace TabularParsing.RuleWeights

def ofText (text : String) : Except FormatError (RuleWeights Float) :=
  (Format.readWeights text).map ofList

def text (t : RuleWeights Float) : String :=
  String.join (t.toList.map fun e => e.1.text ++ " " ++ Decimal.plain e.2 ++ "\n")

end TabularParsing.RuleWeights
