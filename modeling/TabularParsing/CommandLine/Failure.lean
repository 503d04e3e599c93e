import TabularParsing.Earley.Chart
import TabularParsing.Format.Error
import TabularParsing.Sampling
import TabularParsing.Text.Quoted

/-!
# Failures of a run

What ends a run early, in the form in which it is reported.
-/
namespace TabularParsing

namespace CommandLine

inductive FileFault where
  | notFound
  | directory
  /-- A path that goes on behind a file. -/
  | notDirectory
  | nameTooLong
  | noDevice
  | denied
  /-- A file whose bytes are no UTF-8. -/
  | garbled
  deriving DecidableEq, Inhabited

/-- A fault that the operating system numbers. -/
def systemReport (code : Nat) (kind message : String) : String :=
  "Os \x7b code: " ++ toString code ++ ", kind: " ++ kind ++ ", message: " ++
    Text.quoted message ++ " \x7d"

def FileFault.report : FileFault → String
  | notFound => systemReport 2 "NotFound" "No such file or directory"
  | directory => systemReport 21 "IsADirectory" "Is a directory"
  | notDirectory => systemReport 20 "NotADirectory" "Not a directory"
  | nameTooLong => systemReport 36 "InvalidFilename" "File name too long"
  | noDevice => systemReport 6 "Uncategorized" "No such device or address"
  | denied => systemReport 13 "PermissionDenied" "Permission denied"
  | garbled =>
    "Error \x7b kind: InvalidData, message: \"stream did not contain valid UTF-8\" \x7d"

/-- A constructor applied to a text. -/
def applied (name argument : String) : String := name ++ "(" ++ argument ++ ")"

end CommandLine

def FormatFault.report : FormatFault → String
  | missingArrow => "MissingArrow"
  | badLhs lhs => CommandLine.applied "BadLhs" (Text.quoted lhs)
  | badArity count => CommandLine.applied "BadArity" (toString count)
  | emptyRhs => "EmptyRhs"
  | badProbability token => CommandLine.applied "BadProbability" (Text.quoted token)
  | emptyGrammar => "EmptyGrammar"
  | mismatch symbol => CommandLine.applied "Json" (Text.quoted (mismatchDetail symbol))
  | unreadable => CommandLine.applied "Json" (Text.quoted unreadableDetail)

def FormatError.report (e : FormatError) : String :=
  "FormatError \x7b line: " ++ toString e.line ++ ", kind: " ++ e.fault.report ++ " \x7d"

def SamplingError.report : SamplingError → String
  | noAlternatives symbol => CommandLine.applied "NoAlternatives" (Text.quoted symbol)
  | depthExceeded limit => CommandLine.applied "DepthExceeded" (toString limit)
  | undrawable symbol => CommandLine.applied "Undrawable" (Text.quoted symbol)

namespace CommandLine

inductive Failure where
  | file (fault : FileFault)
  | format (e : FormatError)
  | sampling (e : SamplingError)
  /-- A parse that was cut off. -/
  | parse (fault : Earley.Fault)

def Failure.report : Failure → String
  | file fault => fault.report
  | format e => e.report
  | sampling e => e.report
  | parse _ => "Unfinished"

end CommandLine

end TabularParsing
