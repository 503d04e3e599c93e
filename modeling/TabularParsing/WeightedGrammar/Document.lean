import TabularParsing.Json.Number
import TabularParsing.Json.Printer
import TabularParsing.WeightedGrammar.Text

/-!
# Grammar documents

A document defines symbols either by alternatives or by words, and gives probabilities to either.
It is read from and written as a JSON object with the fields `define_rules` and `probabilities`.
-/
namespace TabularParsing

inductive Definition where
  | alternatives (rhss : List (List String))
  | words (words : List String)

/-- The probability of an alternative, bare or in a list of its own. -/
inductive AlternativeWeight (W : Type) where
  | bare (w : W)
  | wrapped (ws : List W)

inductive Probabilities (W : Type) where
  | perAlternative (ws : List (AlternativeWeight W))
  | perWord (ws : Std.TreeMap String W)

structure Document (W : Type) where
  definitions : Std.TreeMap String Definition
  probabilities : Std.TreeMap String (Probabilities W)

variable {W : Type}

/-- The first of a wrapped list counts, an empty one stands for zero. -/
def AlternativeWeight.value [Zero W] : AlternativeWeight W → W
  | bare w => w
  | wrapped ws => ws.head?.getD 0

namespace Document

/-- The weights of alternatives; none if the symbol's probabilities are given by word. -/
def alternativeWeights? [Zero W] : Option (Probabilities W) → Option (List W)
  | some (.perAlternative ws) => some (ws.map AlternativeWeight.value)
  | some (.perWord _) => none
  | none => some []

/-- The weights of words; none if the symbol's probabilities are a list that is not empty. -/
def wordWeights? : Option (Probabilities W) → Option (Std.TreeMap String W)
  | some (.perWord ws) => some ws
  | some (.perAlternative []) => some ∅
  | some (.perAlternative _) => none
  | none => some ∅

/-- Adds one symbol's definition; what has no probability weighs zero. -/
def addDefinition [Zero W] (g : WeightedGrammar W) (symbol : String)
    (probabilities : Option (Probabilities W)) :
    Definition → Except FormatError (WeightedGrammar W)
  | .alternatives rhss =>
    match alternativeWeights? probabilities with
    | none => .error (FormatFault.mismatch symbol).unplaced
    | some ws =>
      rhss.zipIdx.foldlM (fun g p => g.addSymbols symbol p.1 (ws[p.2]?.getD 0)) g
  | .words words =>
    match wordWeights? probabilities with
    | none => .error (FormatFault.mismatch symbol).unplaced
    | some ws => .ok (words.foldl (fun g w => g.listWord symbol w (ws[w]?.getD 0)) g)

/-- The grammar that a document describes. -/
def toGrammar [Zero W] (d : Document W) (start : String) :
    Except FormatError (WeightedGrammar W) :=
  d.definitions.toList.foldlM (fun g e => addDefinition g e.1 d.probabilities[e.1]? e.2)
    (.empty start)

/-- The document of a grammar. A symbol with both rules and words keeps its words. -/
def ofGrammar (g : WeightedGrammar W) : Document W :=
  let ruled : Document W := ⟨∅, ∅⟩
  let ruled := g.rules.toList.foldl (fun d e =>
    ⟨d.definitions.insert e.1
        (.alternatives (e.2.map fun r => r.productions.map Production.symbol)),
      d.probabilities.insert e.1 (.perAlternative (e.2.map fun r => .bare r.weight))⟩) ruled
  g.lexicon.toList.foldl (fun d e =>
    ⟨d.definitions.insert e.1 (.words e.2.keys), d.probabilities.insert e.1 (.perWord e.2)⟩) ruled

/-! ### JSON -/

/-- A map of the fields; of two fields with one key the later counts. -/
def mapOf? {α : Type} (value? : Json → Option α) (j : Json) : Option (Std.TreeMap String α) := do
  let fields ← j.fields?
  let fields ← fields.mapM fun f => (value? f.2).map fun a => (f.1, a)
  return fields.foldl (fun m f => m.insert f.1 f.2) ∅

def strings? (j : Json) : Option (List String) := j.items? >>= fun js => js.mapM Json.text?

/-- Lists of strings are alternatives, an empty list too; other lists of strings are words. -/
def definition? (j : Json) : Option Definition :=
  ((j.items? >>= fun js => js.mapM strings?).map .alternatives).or ((strings? j).map .words)

def numbers? (j : Json) : Option (List Float) := j.items? >>= fun js => js.mapM Json.number?

def alternativeWeight? (j : Json) : Option (AlternativeWeight Float) :=
  (j.number?.map .bare).or ((numbers? j).map .wrapped)

def probabilities? (j : Json) : Option (Probabilities Float) :=
  ((j.items? >>= fun js => js.mapM alternativeWeight?).map .perAlternative).or
    ((mapOf? Json.number? j).map .perWord)

/-- The only field with this key. -/
def uniqueField? (key : String) (fields : List (String × Json)) : Option Json :=
  match fields.filter fun f => f.1 == key with
  | [f] => some f.2
  | _ => none

/-- The two parts of a document: a list of both, or two fields among others that do not matter. -/
def parts? : Json → Option (Json × Json)
  | .array [definitions, probabilities] => some (definitions, probabilities)
  | j => do
    let fields ← j.fields?
    return (← uniqueField? "define_rules" fields, ← uniqueField? "probabilities" fields)

def ofJson? (j : Json) : Option (Document Float) := do
  let (definitions, probabilities) ← parts? j
  return ⟨← mapOf? definition? definitions, ← mapOf? probabilities? probabilities⟩

def listOf {α : Type} (f : α → Json) (as : List α) : Json := .array (as.map f)

def objectOf {α : Type} (f : α → Json) (m : Std.TreeMap String α) : Json :=
  .object (m.toList.map fun e => (some e.1, f e.2))

def definitionJson : Definition → Json
  | .alternatives rhss => listOf (listOf Json.ofText) rhss
  | .words words => listOf Json.ofText words

def weightJson : AlternativeWeight Float → Json
  | .bare w => Json.ofFloat w
  | .wrapped ws => listOf Json.ofFloat ws

def probabilitiesJson : Probabilities Float → Json
  | .perAlternative ws => listOf weightJson ws
  | .perWord ws => objectOf Json.ofFloat ws

def toJson (d : Document Float) : Json :=
  .object [(some "define_rules", objectOf definitionJson d.definitions),
    (some "probabilities", objectOf probabilitiesJson d.probabilities)]

end Document

namespace WeightedGrammar

def ofJson (text : String) : Except FormatError (WeightedGrammar Float) :=
  match Json.read? text.toList >>= Document.ofJson? with
  | some d => d.toGrammar standardStart
  | none => .error FormatFault.unreadable.unplaced

def json (g : WeightedGrammar Float) : String := (Document.ofGrammar g).toJson.print

end WeightedGrammar

end TabularParsing
