import TabularParsing.Decimal.Numeral
import TabularParsing.WeightedGrammar.Text

/-!
# Options of the command line

Arguments are read from the left and the first faulty one is reported. Asking for help ends the
reading at once; a later option replaces an earlier one of its kind.
-/
namespace TabularParsing.CommandLine

structure Options where
  grammarFile : String
  weightFile : Option String
  /-- Parse with charts of items, which take weighted grammars, rather than with span charts. -/
  itemCharts : Bool
  showChart : Bool
  /-- How many sentences to generate instead of parsing. -/
  sentences : Option Nat
  start : String
  deriving DecidableEq

inductive Request where
  | help
  | run (options : Options)
  deriving DecidableEq

inductive ArgumentError where
  | missingWeights
  | missingStart
  | badCount
  | surplus
  /-- Weights or generation asked for together with charts of items. -/
  | spanChartsOnly
  | missingGrammar
  deriving DecidableEq

def programName : String := "chartparse"

def usage : String :=
  "Usage: " ++ programName ++ " GRAMMAR [options]\n\n" ++
  "GRAMMAR is a CNF rule file, or with --earley a weighted grammar (.json or text).\n\n" ++
  "Options:\n" ++
  "  -h, --help              Print this message\n" ++
  "  -w, --weights FILE      Rule weights for the CNF grammar (defaults to random weights)\n" ++
  "  -e, --earley            Parse with the Earley parser instead of CYK\n" ++
  "  -c, --chart             Print the parse chart (defaults to not printing)\n" ++
  "  -g, --generate N        Print N generated sentences and exit\n" ++
  "  -s, --start SYMBOL      Start symbol (defaults to " ++
    WeightedGrammar.standardStart ++ ")\n\n" ++
  "Log output is controlled by RUST_LOG, e.g. RUST_LOG=chartparse=debug"

def ArgumentError.reason : ArgumentError → String
  | missingWeights => "missing weights file"
  | missingStart => "missing start symbol"
  | badCount => "expected a sentence count"
  | surplus => "invalid arguments"
  | spanChartsOnly => "--weights and --generate only apply to CNF grammars"
  | missingGrammar => "missing filename"

def ArgumentError.message (e : ArgumentError) : String :=
  "argument error: " ++ e.reason ++ ".\n\n" ++ usage

/-- A count below `2 ^ 64` in decimal digits, with an optional plus sign. -/
def count? (s : String) : Option Nat :=
  let digits := match s.toList with
    | '+' :: cs => cs
    | cs => cs
  if digits.isEmpty || !digits.all Decimal.isDigit then none
  else
    let n := Decimal.natOfDigits digits
    if n < 0x10000000000000000 then some n else none

/-- The options read so far; the grammar's name may still be missing. -/
structure Draft where
  grammarFile : Option String
  weightFile : Option String
  itemCharts : Bool
  showChart : Bool
  sentences : Option Nat
  start : String

def Draft.initial : Draft := ⟨none, none, false, false, none, WeightedGrammar.standardStart⟩

/-- The options of a whole argument list. -/
def Draft.finish (d : Draft) : Except ArgumentError Options :=
  if d.itemCharts && (d.weightFile.isSome || d.sentences.isSome) then .error .spanChartsOnly
  else
    match d.grammarFile with
    | some file =>
      .ok ⟨file, d.weightFile, d.itemCharts, d.showChart, d.sentences, d.start⟩
    | none => .error .missingGrammar

def Draft.read (d : Draft) : List String → Except ArgumentError Request
  | [] => d.finish.map .run
  | arg :: rest =>
    if arg = "-h" ∨ arg = "--help" then .ok .help
    else if arg = "-e" ∨ arg = "--earley" then Draft.read { d with itemCharts := true } rest
    else if arg = "-c" ∨ arg = "--chart" then Draft.read { d with showChart := true } rest
    else if arg = "-w" ∨ arg = "--weights" then
      match rest with
      | file :: rest => Draft.read { d with weightFile := some file } rest
      | [] => .error .missingWeights
    else if arg = "-s" ∨ arg = "--start" then
      match rest with
      | symbol :: rest => Draft.read { d with start := symbol } rest
      | [] => .error .missingStart
    else if arg = "-g" ∨ arg = "--generate" then
      match rest with
      | n :: rest =>
        match count? n with
        | some n => Draft.read { d with sentences := some n } rest
        | none => .error .badCount
      | [] => .error .badCount
    else if d.grammarFile.isNone then Draft.read { d with grammarFile := some arg } rest
    else .error .surplus

/-- What an argument list asks for. -/
def Request.ofArguments (args : List String) : Except ArgumentError Request :=
  Draft.initial.read args

end TabularParsing.CommandLine
