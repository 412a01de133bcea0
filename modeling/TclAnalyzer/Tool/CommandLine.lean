import TclAnalyzer.Tool.Report

/-!
# The command line tool

`main` of the analyzer: the loop over the arguments, the script that they name, and the report on it.
-/

namespace TclAnalyzer

/-! ## The tests of the parser -/

/-- A row of the table of `TestQualifiedName`. -/
structure NameTest where
  lexeme : Str
  expect : QualifiedName
  path : Str
  absPath : Str

def NameTest.passes (test : NameTest) : Bool :=
  let qn := splitName test.lexeme
  qn = test.expect ∧ qn.path = test.path ∧ (qn.absPath []).path = test.absPath

/-- A row of the table of `TestOffsetToLineByte`. -/
structure OffsetTest where
  file : SourceFile
  offset : Nat
  pos : LinePos

def OffsetTest.passes (test : OffsetTest) : Bool :=
  match offsetToLineByte test.file test.offset with
  | .ok pos => pos = test.pos
  | .error _ => false

def nameTests : List NameTest :=
  [⟨bytes "::", ⟨some [], [], true⟩, bytes "::", bytes "::"⟩,
    ⟨[], ⟨some [], [], true⟩, bytes "::", bytes "::"⟩,
    ⟨bytes "Test", ⟨none, bytes "Test", false⟩, bytes "Test", bytes "::Test"⟩,
    ⟨bytes "::Test", ⟨some [], bytes "Test", true⟩, bytes "::Test", bytes "::Test"⟩,
    ⟨bytes "Test::Sub", ⟨some (bytes "Test"), bytes "Sub", false⟩, bytes "Test::Sub",
      bytes "::Test::Sub"⟩,
    ⟨bytes "::Test::Sub", ⟨some (bytes "::Test"), bytes "Sub", true⟩, bytes "::Test::Sub",
      bytes "::Test::Sub"⟩]

def offsetTests : List OffsetTest :=
  let file (contents : String) := makeSourceFile (bytes "test") (bytes contents)
  [⟨file "this is some text", 0, ⟨0, 0⟩⟩, ⟨file "", 0, ⟨0, 0⟩⟩, ⟨file "1\n2\n3\n4", 0, ⟨0, 0⟩⟩,
    ⟨file "1\n2\n3\n4", 1, ⟨0, 1⟩⟩, ⟨file "1\n2\n3\n4", 2, ⟨1, 0⟩⟩, ⟨file "1\n2\n3\n4", 3, ⟨1, 1⟩⟩,
    ⟨file "1\n2\n3\n4", 4, ⟨2, 0⟩⟩, ⟨file "1\n2\n3\n4", 5, ⟨2, 1⟩⟩,
    ⟨file "aaaa\nbbbb\ncccc", 8, ⟨1, 3⟩⟩]

/-- `Parser::Test::Run`, which aborts at a test that fails. `TestWord` checks nothing. -/
def runTests : Except Fault Unit :=
  if nameTests.all NameTest.passes ∧ offsetTests.all OffsetTest.passes then return ()
  else throw .assertion

/-! ## `main` -/

/-- What `main` finds around it: the bytes on its standard input, and of each file that it can open
the contents. No file has the empty name. -/
structure Environment where
  stdin : Str
  file : Str → Option Str
  file_nil : file [] = none

/-- The exit status, and what is written to `std::cout` and `std::cerr`. -/
structure Outcome where
  status : Nat
  out : Str
  err : Str
  deriving DecidableEq, Repr

def Outcome.fails (err : Str) : Outcome := { status := 1, out := [], err }

/-- The loop over the arguments, up to an exit or to the end with the file to analyse. `stdin` is what
is left to read. Behind the last argument stands a null pointer. -/
def parseArguments (env : Environment) (stdin : Str) (mainFile : SourceFile) :
    List Str → Except Fault (Outcome ⊕ SourceFile)
  | [] => return .inr mainFile
  | arg :: args =>
    if arg = bytes "--test" then do
      runTests
      return .inl { status := 0, out := [], err := [] }
    else if arg = bytes "--file" then
      match args with
      | [] => throw .undefined
      | path :: args =>
        if path = bytes "-" then
          parseArguments env [] (makeSourceFile (bytes "stdin") stdin) args
        else
          match env.file path with
          | none => return .inl (.fails (bytes "Unable to read file: " ++ path ++ [newline]))
          | some contents => parseArguments env stdin (makeSourceFile path contents) args
    else if arg = bytes "--string" then
      match args with
      | [] => throw .undefined
      | text :: args => parseArguments env stdin (makeSourceFile (bytes "cmdline") text) args
    else return .inl (.fails (bytes "Unrecognised argument: " ++ arg ++ [newline]))

/-- A `SourceFile` without a value. -/
def SourceFile.none : SourceFile := { fileName := [], contents := [], newlines := [] }

/-- `main` from the script on. -/
def analyze (interp : TclInterp) (mainFile : SourceFile) : Except Fault Outcome := do
  let context : ParseContext := { file := mainFile, curNs := [] }
  let script ← parseScript interp context { data := 0, bytes := context.file.contents }
  let result ← buildNew script
  let out ← printIndex result.index
  return { status := 0, out, err := [] }

/-- `main`; the arguments are those after the name of the program. -/
def analyzerMain (interp : TclInterp) (env : Environment) (args : List Str) :
    Except Fault Outcome := do
  match ← parseArguments env env.stdin .none args with
  | .inl outcome => return outcome
  | .inr mainFile =>
    if mainFile.fileName = [] then return .fails (bytes "No script supplied\n")
    else analyze interp mainFile

/-! ## Command lines -/

/-- A script named on the command line. -/
inductive Source where
  | stdin
  | file (path : Str)
  | string (text : Str)
  deriving DecidableEq, Repr

def Source.arguments : Source → List Str
  | .stdin => [bytes "--file", bytes "-"]
  | .file path => [bytes "--file", path]
  | .string text => [bytes "--string", text]

/-- The script and what it leaves of the standard input. -/
def Source.load (env : Environment) (stdin : Str) : Source → Option (SourceFile × Str)
  | .stdin => some (makeSourceFile (bytes "stdin") stdin, [])
  | .file path =>
    if path = bytes "-" then none
    else (env.file path).map fun contents => (makeSourceFile path contents, stdin)
  | .string text => some (makeSourceFile (bytes "cmdline") text, stdin)

/-- The scripts can be read one after the other; the last one, or else the first file, is the file to
analyse. -/
inductive Loads (env : Environment) :
    (stdin : Str) → SourceFile → List Source → (left : Str) → SourceFile → Prop
  | nil {stdin : Str} {file : SourceFile} : Loads env stdin file [] stdin file
  | cons {stdin next left : Str} {file file' last : SourceFile} {source : Source}
    {sources : List Source} : source.load env stdin = some (file', next) →
    Loads env next file' sources left last → Loads env stdin file (source :: sources) left last

/-- What the command line comes to: scripts that can be read, and then what ends the loop. -/
inductive CommandLine (interp : TclInterp) (env : Environment) : List Str → Except Fault Outcome → Prop
  /-- Only the last script is analysed. -/
  | analyze {sources : List Source} {source : Source} {left : Str} {file : SourceFile} :
    Loads env env.stdin .none (sources ++ [source]) left file →
    CommandLine interp env ((sources ++ [source]).flatMap Source.arguments) (analyze interp file)
  | nothing : CommandLine interp env [] (.ok (.fails (bytes "No script supplied\n")))
  | test {sources : List Source} {left : Str} {file : SourceFile} {rest : List Str} :
    Loads env env.stdin .none sources left file →
    CommandLine interp env (sources.flatMap Source.arguments ++ bytes "--test" :: rest)
      (.ok { status := 0, out := [], err := [] })
  | unreadable {sources : List Source} {left : Str} {file : SourceFile} {path : Str}
    {rest : List Str} : Loads env env.stdin .none sources left file → path ≠ bytes "-" →
    env.file path = none →
    CommandLine interp env (sources.flatMap Source.arguments ++ bytes "--file" :: path :: rest)
      (.ok (.fails (bytes "Unable to read file: " ++ path ++ [newline])))
  | unrecognised {sources : List Source} {left : Str} {file : SourceFile} {arg : Str}
    {rest : List Str} : Loads env env.stdin .none sources left file →
    arg ∉ ["--test", "--file", "--string"].map bytes →
    CommandLine interp env (sources.flatMap Source.arguments ++ arg :: rest)
      (.ok (.fails (bytes "Unrecognised argument: " ++ arg ++ [newline])))
  /-- The argument of an option is missing. -/
  | missing {sources : List Source} {left : Str} {file : SourceFile} {option : Str} :
    Loads env env.stdin .none sources left file → option ∈ ["--file", "--string"].map bytes →
    CommandLine interp env (sources.flatMap Source.arguments ++ [option]) (.error .undefined)

end TclAnalyzer
