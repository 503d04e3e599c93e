import TabularParsing.Decimal.Numeral
import TabularParsing.Format.Error
import TabularParsing.Rule
import TabularParsing.Text.Lines

/-!
# Lines of a grammar text

One line holds one entry `lhs -> symbols`, with a weight at the end where the format has one.
-/
namespace TabularParsing.Format

/-- The left-hand side and the tokens on the right of a line. -/
structure Entry where
  lhs : String
  tokens : List String
  deriving DecidableEq

def readEntry (line : List Char) : Except FormatFault Entry :=
  match Text.splitArrow line with
  | none => .error .missingArrow
  | some (left, right) =>
    let lhs := Text.trimmed left
    if (Text.wordsOf lhs).length = 1 then
      .ok ⟨String.ofList lhs, (Text.wordsOf right).map String.ofList⟩
    else .error (.badLhs (String.ofList lhs))

/-- A token that reads as a number from 0 to 1. -/
def readProbability (token : String) : Except FormatFault Float :=
  match Decimal.read? token with
  | some p => if 0.0 ≤ p ∧ p ≤ 1.0 then .ok p else .error (.badProbability token)
  | none => .error (.badProbability token)

def ruleOfTokens (lhs : String) : List String → Except FormatFault Rule
  | [w] => .ok (.word lhs w)
  | [left, right] => .ok (.pair lhs left right)
  | tokens => .error (.badArity tokens.length)

/-- `lhs -> w` or `lhs -> left right`. -/
def readRule (line : List Char) : Except FormatFault Rule := do
  let e ← readEntry line
  ruleOfTokens e.lhs e.tokens

/-- The last token and those before it. -/
def splitLast (tokens : List String) : Option (List String × String) :=
  tokens.getLast?.map fun t => (tokens.dropLast, t)

/-- A rule with its weight at the end. -/
def readWeight (line : List Char) : Except FormatFault (Rule × Float) := do
  let e ← readEntry line
  match splitLast e.tokens with
  | none => .error .emptyRhs
  | some (symbols, token) =>
    let p ← readProbability token
    return (← ruleOfTokens e.lhs symbols, p)

/-- A general rule or lexicon entry with its weight. -/
structure WeightedEntry where
  lhs : String
  symbols : List String
  weight : Float

/-- The symbols and the weight: a last token that reads as a number is the weight, which is 1
otherwise. -/
def splitWeight (tokens : List String) : Except FormatFault (List String × Float) :=
  match splitLast tokens with
  | none => .ok ([], 1.0)
  | some (symbols, token) =>
    if (Decimal.read? token).isSome then (readProbability token).map fun p => (symbols, p)
    else .ok (tokens, 1.0)

def readWeighted (line : List Char) : Except FormatFault WeightedEntry := do
  let e ← readEntry line
  let (symbols, p) ← splitWeight e.tokens
  if symbols.isEmpty then .error .emptyRhs else return ⟨e.lhs, symbols, p⟩

/-- Reads every line that holds content; the first fault is reported with its line. -/
def readLines {α : Type} (read : List Char → Except FormatFault α) (text : String) :
    Except FormatError (List (Nat × α)) :=
  (Text.filledLines text.toList).mapM fun p =>
    match read p.2 with
    | .ok a => .ok (p.1, a)
    | .error f => .error ⟨p.1, f⟩

def readRules (text : String) : Except FormatError (List Rule) :=
  (readLines readRule text).map fun es => es.map Prod.snd

def readWeights (text : String) : Except FormatError (List (Rule × Float)) :=
  (readLines readWeight text).map fun es => es.map Prod.snd

/-- The weighted entries with their line numbers. -/
def readWeightedRules (text : String) : Except FormatError (List (Nat × WeightedEntry)) :=
  readLines readWeighted text

end TabularParsing.Format
