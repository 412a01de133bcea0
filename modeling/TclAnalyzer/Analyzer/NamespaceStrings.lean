import TclAnalyzer.Analyzer.Sites

/-!
# Namespaces as strings

`ParseCommand` tracks the namespace as a string, `IndexScript` as an id. The string for the namespace
at a path is `pathString`; what `FindNamespace` reads off a string is `Names`.
-/

namespace TclAnalyzer

/-- The string for the namespace at a path: a separator before each component. -/
def pathString (path : Path) : Str := path.flatMap (separator ++ ·)

/-- No two colons follow each other. -/
def SeparatorFree (s : Str) : Prop := s.IsChain fun c d => ¬(c = colon ∧ d = colon)

/-- `NamespaceParts` throws on three colons with no separator behind the first two, and on nothing
else. -/
def HasParts (name : Str) : Prop :=
  ∀ rest, name = colon :: colon :: colon :: rest → separator <:+: colon :: rest

/-- `FindNamespace` takes the string for this path. -/
def Names (ns : Str) (path : Path) : Prop :=
  (splitName ns).absolute = true ∧ (splitName ns).parts = .ok path

/-- The last component is not empty and starts with no colon, and none before the last two ends with
one. `SplitName` and `SplitPath` read other paths in a different way than they were put together. -/
def readable (path : Path) : Prop :=
  (∀ last ∈ path.getLast?, last ≠ [] ∧ last.head? ≠ some colon) ∧
    ∀ component ∈ path.dropLast.dropLast, component.getLast? ≠ some colon

instance (path : Path) : Decidable (readable path) := by
  unfold readable
  infer_instance

/-- The word is there and is literal text. -/
def Call.isText (call : Call) (k : Nat) : Bool := call.words[k]?.any fun w => w.type = .TEXT

/-- What a command that opens a namespace has to be for the string to follow the path: its name is
literal and, for `namespace eval`, relative; a name with a separator that is relative is used in the
global namespace only; and the path of the namespace it opens can be read back. -/
def Call.opensReadable (call : Call) (path : Path) : Prop :=
  match call.type with
  | .NAMESPACE_EVAL =>
    let qn := splitName (call.wordText 2)
    call.isText 2 ∧ ¬qn.absolute ∧ (qn.ns = none ∨ path = []) ∧ readable (evalPath path call)
  | .PROC =>
    let qn := splitName (call.wordText 1)
    (call.namesProcIn path ∨ call.isText 1 ∧ (qn.absolute ∨ path = [])) ∧
      readable (procPath path call)
  | _ => True

instance (call : Call) (path : Path) : Decidable (call.opensReadable path) := by
  unfold Call.opensReadable
  split <;> infer_instance

end TclAnalyzer
