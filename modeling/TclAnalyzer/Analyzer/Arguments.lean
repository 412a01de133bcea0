import TclAnalyzer.Analyzer.Index

/-!
# Arguments of a proc

What the text of the arguments says, by the elements that `TclFindElement` finds in it, and what a
registered proc says.
-/

namespace TclAnalyzer

/-! ## Views -/

/-- The end of a view. -/
def StringView.last (text : StringView) : Nat := text.data + text.bytes.length

/-- The view points into the contents of the file. -/
def StringView.PointsInto (text : StringView) (file : SourceFile) : Prop :=
  text = file.view text.data text.bytes.length

/-! ## Tcl lists -/

/-- The text is a list with these elements: `TclFindElement` finds one after the other, each in what
is left of the text, and then the end of the text. -/
inductive ListElements (interp : TclInterp) (file : SourceFile) : (list length : Nat) →
    List StringView → Prop
  | last {list length : Nat} {found : ListElement} :
    interp.findElement (file.view list length) = some found → list ≤ found.next →
    found.next ≤ list + length → found.element = list + length →
    ListElements interp file list length []
  | element {list length : Nat} {found : ListElement} {rest : List StringView} :
    interp.findElement (file.view list length) = some found → list ≤ found.element →
    found.element < list + length → found.element + found.size ≤ found.next → list < found.next →
    found.next ≤ list + length →
    ListElements interp file found.next (list + length - found.next) rest →
    ListElements interp file list length (file.view found.element found.size :: rest)

/-- The loop of `WordToList` splits what is left of the text into these elements. -/
inductive SplitsFrom (interp : TclInterp) (file : SourceFile) (last : Nat) : (list length : Nat) →
    List ListElement → Prop
  | finish {list length : Nat} {found : ListElement} :
    interp.findElement (file.view list length) = some found → last ≤ found.element →
    SplitsFrom interp file last list length []
  | element {list length : Nat} {found : ListElement} {rest : List ListElement} :
    interp.findElement (file.view list length) = some found → found.element < last →
    SplitsFrom interp file last found.next (length - (found.next - list)) rest →
    SplitsFrom interp file last list length (found :: rest)

def SplitsInto (interp : TclInterp) (file : SourceFile) (text : StringView) :
    List ListElement → Prop :=
  SplitsFrom interp file (text.data + text.bytes.length) text.data text.bytes.length

def ListElement.text (found : ListElement) (file : SourceFile) : StringView :=
  file.view found.element found.size

/-- The word that `WordToList` makes of an element. -/
structure ListElement.Makes (found : ListElement) (file : SourceFile) (word : Word) : Prop where
  text : word.text = found.text file
  location : makeSourceLocation file found.element = .ok word.location
  type : word.type = .TEXT
  data : word.data = .nothing

/-- The text is a list of arguments with a specifier that has no elements, such as a pair of braces. A
list of one element is not looked into. -/
def EmptySpecifier (interp : TclInterp) (file : SourceFile) (text : StringView) : Prop :=
  ∃ elements, SplitsInto interp file text elements ∧ elements.length ≠ 1 ∧
    ∃ found ∈ elements, SplitsInto interp file (found.text file) []

/-- An element of the list of arguments, with its own elements: a name, or a name and a default. -/
structure Specifier where
  text : StringView
  elements : List StringView

def Specifier.name (spec : Specifier) : Str :=
  match spec.elements with
  | [] => []
  | first :: _ => first.bytes

def Specifier.isName (spec : Specifier) : Bool := spec.elements.length = 1

def Specifier.hasDefault (spec : Specifier) : Bool := spec.elements.length = 2

/-- The text of the word is a list of these specifiers. -/
structure ArgumentList (interp : TclInterp) (file : SourceFile) (word : Word)
    (specs : List Specifier) : Prop where
  list : ListElements interp file word.text.data word.text.bytes.length (specs.map Specifier.text)
  specifier : ∀ spec ∈ specs,
    ListElements interp file spec.text.data spec.text.bytes.length spec.elements ∧
      (spec.isName = true ∨ spec.hasDefault = true)

/-- The last specifier is the name `args` without a default. -/
def endsInArgs (specs : List Specifier) : Bool :=
  specs.getLast?.any fun spec => spec.isName ∧ spec.name = bytes "args"

/-! ## Registered procs -/

/-- An element of a vector that is not there, and an alternative that a word does not hold. -/
def badReads : List Fault := [.undefined, .badVariantAccess]

/-- The names of the variables that are the arguments of the proc. -/
def argumentNames (index : Index) (proc : Proc) : Except Fault (List Str) :=
  proc.arguments.mapM fun id => do return (← index.vars.get id).name

/-- The proc has the arguments that the specifiers say. -/
structure CountsArguments (index : Index) (proc : Proc) (specs : List Specifier) : Prop where
  names : argumentNames index proc = .ok (specs.map Specifier.name)
  optionalArgs : proc.optionalArgs = specs.countP Specifier.hasDefault
  isVariadic : proc.isVariadic = endsInArgs specs
  requiredArgs : proc.requiredArgs + (if endsInArgs specs then 1 else 0) =
    specs.countP Specifier.isName

end TclAnalyzer
