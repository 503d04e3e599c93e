import TabularParsing.Decimal.Fixed
import TabularParsing.Earley.Chart

/-!
# Charts of items as text

State by state, an item a line: its part of the input, the rule with its dot, the operation and the
weight with six places.
-/
namespace TabularParsing.Earley

/-- The productions of a rule with the dot among them. -/
def DottedRule.text {W : Type} (d : DottedRule W) : String :=
  let body := d.rule.productions.zipIdx.map fun (p, n) =>
    (if n = d.dot then " ・" else "") ++ " " ++ p.symbol
  d.rule.symbol ++ " →" ++ String.join body ++ if d.isActive then "" else " ・"

def Operation.text : Operation → String
  | prediction => "PREDICTOR"
  | scan => "SCANNER"
  | completion => "COMPLETOR"
  | initial => "DUMMY"

def Item.text (i : Item Float) : String :=
  toString i.origin ++ ".." ++ toString i.stop ++ ": " ++ i.dotted.text ++ "  [" ++
    i.operation.text ++ " " ++ Decimal.fixed 6 i.weight ++ "]"

def Chart.stateText (c : Chart Float) (s : Array Nat) : String :=
  String.join (s.toList.map fun place =>
    match c.items[place]? with
    | some i => "  " ++ i.text ++ "\n"
    | none => "")

def Chart.text (c : Chart Float) : String :=
  String.join (c.states.toList.zipIdx.map fun (s, k) =>
    "State " ++ toString k ++ ":\n" ++ c.stateText s)

end TabularParsing.Earley
