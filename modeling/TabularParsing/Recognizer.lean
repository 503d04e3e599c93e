import TabularParsing.Span.Derivation
import TabularParsing.Text.Blank

/-!
# Recognition

A set cell says that its symbol derives its span. The first proof found is kept: at the earliest
split, by the earliest rule.
-/
namespace TabularParsing

/-- Keeps the first backpointer of a cell. -/
def firstProof : CellPolicy Backpointer Unit where
  leaf _ position := some (.leaf position)
  split _ left _ right _ := some (.split left right)
  beats _ _ := false

/-- Every cell of a recognition chart weighs one. -/
def proofView {W : Type} [One W] : CellView Backpointer W := ⟨id, fun _ => 1⟩

namespace Grammar

def proofChart (g : Grammar) (tokens : List String) : SpanMap Backpointer :=
  g.chart firstProof (fun _ => ()) tokens

/-- Whether the tokens derive from the start symbol. -/
def recognizes (g : Grammar) (start : String) (tokens : List String) : Bool :=
  match g.index? start with
  | none => false
  | some s => (g.proofChart tokens).contains ⟨1, tokens.length, s⟩

/-- The first derivation found, every node weighing one. -/
def firstTree {W : Type} [One W] (g : Grammar) (start : String) (tokens : List String) :
    Option (Tree W) := do
  let s ← g.index? start
  (g.proofChart tokens).tree proofView g tokens ⟨1, tokens.length, s⟩

def recognizesSentence (g : Grammar) (sentence start : String) : Bool :=
  g.recognizes start (Text.words sentence)

end Grammar

end TabularParsing
