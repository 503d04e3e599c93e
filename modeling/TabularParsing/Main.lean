import TabularParsing.CommandLine.Session

/-!
# The program

Reads files and standard input and prints what the session says, a sentence at a time.
-/
namespace TabularParsing.CommandLine

/-- Why a file could not be read. Number 21 comes from reading a directory; a path that goes on
behind a file is refused before that. -/
def faultOf : IO.Error → FileFault
  | .permissionDenied .. => .denied
  | .noFileOrDirectory .. => .notFound
  | .noSuchThing .. => .notFound
  | .inappropriateType _ code _ => if code = 21 then .directory else .notDirectory
  | .invalidArgument .. => .nameTooLong
  | _ => .garbled

/-- The content of a file, or why it cannot be read. -/
def readFile (path : String) : IO (Except FileFault String) := do
  try return .ok (← IO.FS.readFile path)
  catch e => return .error (faultOf e)

/-- Reads the files that the options name, the grammar first. -/
def readContents (o : Options) : IO Contents := do
  let grammar ← readFile o.grammarFile
  match o.weightFile with
  | none => return ⟨grammar, none⟩
  | some path => return ⟨grammar, some (← readFile path)⟩

def fail (f : Failure) : IO UInt32 := do
  IO.eprintln ("Error: " ++ f.report)
  return 1

/-- Answers lines until the input ends. -/
partial def converse (o : Options) (s : Session) : IO UInt32 := do
  let out ← IO.getStdout
  out.putStr prompt
  out.flush
  let line ← (← IO.getStdin).getLine
  if line.isEmpty then return 0
  match s.answer o (Text.trim line) with
  | .error f => fail f
  | .ok answer =>
    out.putStr answer
    converse o s

def runSession (o : Options) (source : WordSource) (s : Session) : IO UInt32 := do
  match s, o.sentences with
  | .spans g weights, some n =>
    let (lines, failure) := generateLines g weights o.start n source
    IO.print (String.join lines)
    match failure with
    | some f => fail f
    | none => return 0
  | s, _ => converse o s

def runRequest : Request → IO UInt32
  | .help => do
    IO.println usage
    return 0
  | .run o => do
    let contents ← readContents o
    let seed ← IO.rand 0 0xFFFFFFFFFFFFFFFF
    match Session.load o ⟨.mixed (UInt64.ofNat seed), 0⟩ contents with
    | .error f => fail f
    | .ok (s, source) => runSession o source s

end TabularParsing.CommandLine

def main (args : List String) : IO UInt32 :=
  match TabularParsing.CommandLine.Request.ofArguments args with
  | .error e => do
    IO.eprintln e.message
    return 255
  | .ok request => TabularParsing.CommandLine.runRequest request
