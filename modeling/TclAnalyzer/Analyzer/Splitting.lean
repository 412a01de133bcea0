import TclAnalyzer.Analyzer.NamespaceStrings
import TclAnalyzer.Analyzer.Operations

/-!
# Names and paths from both ends

`SplitName` cuts a name from the right and `SplitPath` a path from the left. What the components of a
name are by the one and by the other, and what names are put together from.
-/

namespace TclAnalyzer

/-! ## Splitting from the left -/

/-- Without the leading component when that is empty. -/
def dropEmptyHead : List Str → List Str
  | [] :: parts => parts
  | parts => parts

/-- Without the trailing component when that is empty. -/
def dropEmptyLast (parts : List Str) : List Str :=
  if parts.getLast? = some [] then parts.dropLast else parts

/-- The components of a name by `SplitPath`, without the empty one before the separator of an absolute
name and the empty one after a separator at the end. -/
def trimmedPath (s : Str) : List Str :=
  let parts := splitPath s
  let parts := if (splitName s).absolute then dropEmptyHead parts else parts
  if separator <:+ s then dropEmptyLast parts else parts

/-- The components of a name are defined, and they are those of the path. -/
def SplitsAgree (s : Str) : Prop :=
  (∃ nsParts, (splitName s).namespaceParts = .ok nsParts) ∧ (splitName s).parts = .ok (trimmedPath s)

/-- In every index that can come up, a proc can be defined under the name and a command of that name
can be looked up, from every namespace. -/
def SafeToIndex (s : Str) : Prop :=
  ∀ operations index ns, Run Operation.Step makeIndex operations index → index.HasNamespace ns →
    (∃ resolved, resolveNamespace index (splitName s) ns = .ok resolved) ∧
      ∃ found, findProc index ns s = .ok found

/-- The run of colons that the last separator is part of has an even length. -/
def LastRunEven (s : Str) : Prop :=
  ∀ before n after, s = before ++ List.replicate n colon ++ after → before.getLast? ≠ some colon →
    after.head? ≠ some colon → SeparatorFree after → 2 ≤ n → n % 2 = 0

/-! ## Names put together -/

/-- Components that are not empty and have no colon in them. -/
def Plain (components : List Str) : Prop := ∀ component ∈ components, component ≠ [] ∧ colon ∉ component

instance (components : List Str) : Decidable (Plain components) := by
  unfold Plain
  infer_instance

/-- The name of these components. -/
def nameOf (absolute : Bool) (components : List Str) : Str :=
  (if absolute then separator else []) ++ separator.intercalate components

/-- The name of these components, taken from the namespace `current`. -/
def enter (current : Str) (absolute : Bool) (components : List Str) : QualifiedName :=
  (splitName (nameOf absolute components)).absPath current

/-- The path of a name is that of its components behind those of the current path, or alone when the
name is absolute, and its namespace is the same path without the last component. -/
def Composes (cur : Path) (absolute : Bool) (components : List Str) : Prop :=
  let qn := enter (pathString cur) absolute components
  let expected := if absolute then components else cur ++ components
  (splitName qn.path).parts = .ok expected ∧
    (splitName qn.namespacePath).parts = .ok expected.dropLast

/-- To enter a name and then another one in it is to enter both at once. -/
def EntersBoth (cur : Path) (absolute : Bool) (outer inner : List Str) : Prop :=
  (enter (enter (pathString cur) absolute outer).path false inner).path =
    (enter (pathString cur) absolute (outer ++ inner)).path

/-- The empty path and `::` are the same namespace to start from. -/
def RootsAgree (absolute : Bool) (components : List Str) : Prop :=
  (splitName (enter [] absolute components).path).parts =
    (splitName (enter separator absolute components).path).parts

end TclAnalyzer
