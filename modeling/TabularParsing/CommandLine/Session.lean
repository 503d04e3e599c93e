import TabularParsing.CommandLine.FileTree
import TabularParsing.CommandLine.Options
import TabularParsing.Earley.Parse
import TabularParsing.Earley.Text
import TabularParsing.Span.Text
import TabularParsing.Tree.Text
import TabularParsing.RuleWeights.StickBreaking
import TabularParsing.RuleWeights.Text
import TabularParsing.Grammar.Text
import TabularParsing.WeightedGrammar.Document

/-!
# Sessions

A session holds a loaded grammar. It answers one sentence at a time, or generates sentences. A
whole run is a function of its arguments, the files it can read and its input.
-/
namespace TabularParsing

/-- The extension of a file name: what follows the last point of its last component, unless that
point comes first. -/
def extension? (path : String) : Option String :=
  let name := (path.toList.reverse.takeWhile (· != '/')).reverse
  let ending := (name.reverse.takeWhile (· != '.')).reverse
  if ending.length + 1 < name.length then some (String.ofList ending) else none

/-- The content of a file as a weighted grammar: a document if the file ends in `.json`. -/
def WeightedGrammar.ofFile (path content : String) : Except FormatError (WeightedGrammar Float) :=
  if extension? path = some "json" then ofJson content else ofText content

namespace CommandLine

inductive Session where
  | spans (g : Grammar) (weights : RuleWeights Float)
  | items (g : WeightedGrammar Float)

/-- What was read from the files that the options name. -/
structure Contents where
  grammar : Except FileFault String
  weights : Option (Except FileFault String)

/-- Reads the files that the options name, the grammar first, and answers the input that is left. -/
def Contents.read (p : Place) (o : Options) (input : String) : Contents × String :=
  let (grammar, input) := p.read o.grammarFile input
  match o.weightFile with
  | none => (⟨grammar, none⟩, input)
  | some path =>
    let (weights, input) := p.read path input
    (⟨grammar, some weights⟩, input)

/-- Makes something of what was read. -/
def parsed {α : Type} (content : Except FileFault String)
    (parse : String → Except FormatError α) : Except Failure α :=
  match content with
  | .error fault => .error (.file fault)
  | .ok content => (parse content).mapError .format

/-- Weights from a file, or random ones if there is none. -/
def loadWeights (g : Grammar) (source : WordSource) :
    Option (Except FileFault String) → Except Failure (RuleWeights Float × WordSource)
  | some content => (parsed content RuleWeights.ofText).map fun t => (t, source)
  | none => .ok ((RuleWeights.byStickBreaking WordSource.drawFloat g source).getD (.ones g, source))

/-- Loads what the options name. -/
def Session.load (o : Options) (source : WordSource) (contents : Contents) :
    Except Failure (Session × WordSource) :=
  if o.itemCharts then do
    let g ← parsed contents.grammar (WeightedGrammar.ofFile o.grammarFile)
    return (.items (g.startAt o.start), source)
  else do
    let g ← parsed contents.grammar Grammar.ofText
    let (weights, source) ← loadWeights g source contents.weights
    return (.spans g weights, source)

/-- How many turns a state of an item chart may take. -/
def turnLimit : Nat := 1000000000000

def chartBlock (shown : Bool) (chart : String) : String :=
  if shown then "chart:\n" ++ chart ++ "\n\n" else ""

def treeBlock : Option (Tree Float) → String
  | some t => t.text ++ "\n"
  | none => ""

def answerSpans (g : Grammar) (weights : RuleWeights Float) (o : Options) (sentence : String) :
    String :=
  let p := g.scored naturalScale weights (Text.words sentence)
  chartBlock o.showChart (p.chart.text BestCell.text) ++
    "parsable: " ++ toString (g.recognizesSentence sentence o.start) ++ "\n" ++
    "log probability: " ++ Decimal.plain (p.score naturalScale g o.start) ++ "\n" ++
    treeBlock (p.bestDerivation naturalScale g o.start) ++ "\n"

def answerItems (g : WeightedGrammar Float) (o : Options) (sentence : String) :
    Except Earley.Fault String := do
  let p ← Earley.Parse.ofSentence turnLimit g sentence
  let tree ← p.tree?
  return chartBlock o.showChart p.chart.text ++
    "accepted: " ++ toString p.accepts ++ "\n" ++
    "probability: " ++ Decimal.plain p.probability ++ "\n" ++
    treeBlock tree ++ "\n"

/-- What is printed for a sentence. -/
def Session.answer (o : Options) (sentence : String) : Session → Except Failure String
  | spans g weights => .ok (answerSpans g weights o sentence)
  | items g => (answerItems g o sentence).mapError .parse

def prompt : String := "> "

/-- The answers to lines of input, each behind a prompt, and the prompt that meets the end. -/
def Session.converse (o : Options) (s : Session) : List String → List String × Option Failure
  | [] => ([prompt], none)
  | line :: lines =>
    match s.answer o (Text.trim line) with
    | .error f => ([prompt], some f)
    | .ok answer =>
      let (rest, f) := s.converse o lines
      (prompt :: answer :: rest, f)

/-- This many random sentences, a line each. -/
def generateLines (g : Grammar) (weights : RuleWeights Float) (start : String) :
    Nat → WordSource → List String × Option Failure
  | 0, _ => ([], none)
  | n + 1, source =>
    match g.randomSentence WordSource.drawFloat weights start source with
    | (.error e, _) => ([], some (.sampling e))
    | (.ok sentence, source) =>
      let (rest, f) := generateLines g weights start n source
      ((sentence ++ "\n") :: rest, f)

/-- What a run prints to both channels, and its exit code. -/
structure Outcome where
  exit : Nat
  stdout : String
  stderr : String
  deriving DecidableEq

def Outcome.ofArgumentError (e : ArgumentError) : Outcome := ⟨255, "", e.message ++ "\n"⟩

def helpOutcome : Outcome := ⟨0, usage ++ "\n", ""⟩

def Outcome.ofFailure (stdout : String) (f : Failure) : Outcome :=
  ⟨1, stdout, "Error: " ++ f.report ++ "\n"⟩

/-- The outcome of a run that printed these texts. -/
def Outcome.ofOutput (output : List String × Option Failure) : Outcome :=
  match output.2 with
  | none => ⟨0, String.join output.1, ""⟩
  | some f => .ofFailure (String.join output.1) f

/-- The texts that a loaded session prints for its input. -/
def Session.output (o : Options) (source : WordSource) (input : String) :
    Session → List String × Option Failure
  | spans g weights =>
    match o.sentences with
    | some n => generateLines g weights o.start n source
    | none => (spans g weights).converse o (Text.lines input)
  | items g => (items g).converse o (Text.lines input)

/-- A whole run at a place. -/
def run (p : Place) (source : WordSource) (args : List String) (input : String) : Outcome :=
  match Request.ofArguments args with
  | .error e => .ofArgumentError e
  | .ok .help => helpOutcome
  | .ok (.run o) =>
    let (contents, input) := Contents.read p o input
    match Session.load o source contents with
    | .error f => .ofFailure "" f
    | .ok (s, source) => .ofOutput (s.output o source input)

end CommandLine

end TabularParsing
