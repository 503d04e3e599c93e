/-!
# Faults in grammar texts and documents

Lines count from 1; line 0 stands for a fault of the text as a whole.
-/
namespace TabularParsing

inductive FormatFault where
  | missingArrow
  | badLhs (lhs : String)
  | badArity (count : Nat)
  | emptyRhs
  | badProbability (token : String)
  | emptyGrammar
  /-- The probabilities of a symbol do not fit the way a document defines it. -/
  | mismatch (symbol : String)
  /-- A text that is no grammar document. -/
  | unreadable
  deriving DecidableEq, Inhabited

structure FormatError where
  line : Nat
  fault : FormatFault
  deriving DecidableEq, Inhabited

/-- What is wrong with a document whose probabilities do not fit. -/
def mismatchDetail (symbol : String) : String :=
  "probabilities for `" ++ symbol ++ "` don't match its definition"

def unreadableDetail : String := "expected an object with define_rules and probabilities"

def FormatFault.message : FormatFault → String
  | missingArrow => "missing `->` separator"
  | badLhs lhs => "left-hand side must be a single symbol, got `" ++ lhs ++ "`"
  | badArity count => "right-hand side must have 1 or 2 symbols, got " ++ toString count
  | emptyRhs => "empty right-hand side"
  | badProbability token => "couldn't parse probability `" ++ token ++ "`"
  | emptyGrammar => "empty ruleset"
  | mismatch symbol => "bad grammar document: " ++ mismatchDetail symbol
  | unreadable => "bad grammar document: " ++ unreadableDetail

def FormatError.message (e : FormatError) : String :=
  "line " ++ toString e.line ++ ": " ++ e.fault.message

/-- A fault of the text as a whole. -/
def FormatFault.unplaced (f : FormatFault) : FormatError := ⟨0, f⟩

end TabularParsing
