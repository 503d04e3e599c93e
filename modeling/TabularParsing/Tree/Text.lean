import TabularParsing.Decimal.Fixed
import TabularParsing.Text.Lines
import TabularParsing.Tree.Basic

/-!
# Trees as text

A node shows its extent, symbol and weight in parentheses. A single child follows on the same line
in parentheses of its own; several stand below, each line indented by two.
-/
namespace TabularParsing

def Extent.text (e : Extent) : String := toString e.start ++ ".." ++ toString e.stop

namespace Tree

/-- The lines of a text, each on a new line and indented by two. -/
def indented (s : String) : String := String.join ((Text.lines s).map fun l => "\n  " ++ l)

/-- The extent, the symbol and the weight with six places. -/
def headText (symbol : String) (weight : Float) (extent : Extent) : String :=
  extent.text ++ ": " ++ symbol ++ " (" ++ Decimal.fixed 6 weight ++ ")"

mutual

def text : Tree Float → String
  | leaf w e => e.text ++ ": " ++ w
  | node s p e cs => "(" ++ headText s p e ++ childrenText cs ++ ")"

def childrenText : List (Tree Float) → String
  | [] => ""
  | [t] => " (" ++ text t ++ ")"
  | t :: ts => indented (text t) ++ indentedAll ts

def indentedAll : List (Tree Float) → String
  | [] => ""
  | t :: ts => indented (text t) ++ indentedAll ts

end

end Tree

end TabularParsing
