import TclAnalyzer.Analyzer.Lookup
import TclAnalyzer.Analyzer.NamespaceStrings
import TclAnalyzer.Analyzer.SortedTables
import TclAnalyzer.Lsp.Comms

/-!
# The report

What the command line tool prints of an index: the namespaces, and the procs with the references to
them, in the order of the indexes by name.
-/

namespace TclAnalyzer

/-! ## Printing -/

/-- `operator<<` of a `ReferenceType`. -/
def ReferenceType.print : ReferenceType → Str
  | .USAGE => bytes "Usage"
  | .DEFINITION => bytes "Definition"
  | .DECLARAION => bytes "Declaration"

/-- `operator<<` of a `SourceLocation`, which counts from 1. -/
def SourceLocation.print (location : SourceLocation) : Str :=
  location.fileName ++ [colon] ++ decimal (location.line + 1) ++ [colon] ++
    decimal (location.column + 1)

/-- The line of a reference to a proc of this name. -/
def referenceLine (name : Str) (r : Reference) : Str :=
  bytes "  " ++ r.type.print ++ bytes " Ref: " ++ name ++ bytes " at " ++ r.location.print ++ [newline]

def namespaceLine (name : Str) : Str := bytes "Namespace: " ++ name ++ [newline]

def procLine (name : Str) : Str := bytes "Proc: " ++ name ++ [newline]

/-- The loop over the namespaces. -/
def printNamespaces (index : Index) : List (Str × Nat) → Except Fault Str
  | [] => return []
  | (_, id) :: entries => do
    let n ← index.namespaces.get id
    let name ← getPrintName index n.name n.parentNamespace
    let rest ← printNamespaces index entries
    return namespaceLine name ++ rest

/-- The loop over the references to a proc. -/
def printReferences (index : Index) : List Nat → Except Fault Str
  | [] => return []
  | pos :: range => do
    let r ← nth index.procs.references pos
    let p ← index.procs.get r.id
    let name ← getPrintName index p.name (some p.parentNamespace)
    let rest ← printReferences index range
    return referenceLine name r ++ rest

/-- The loop over the procs. -/
def printProcs (index : Index) : List (Str × Nat) → Except Fault Str
  | [] => return []
  | (_, id) :: entries => do
    let p ← index.procs.get id
    let name ← getPrintName index p.name (some p.parentNamespace)
    let references ← printReferences index (index.procs.refsByID.equalRange id)
    let rest ← printProcs index entries
    return procLine name ++ references ++ rest

def printIndex (index : Index) : Except Fault Str := do
  let namespaces ← printNamespaces index index.namespaces.sorted.byName.entries
  let procs ← printProcs index index.procs.sorted.byName.entries
  return namespaces ++ procs

/-! ## What is listed -/

/-- The namespaces with their paths, and the procs with the paths of their namespaces. -/
structure Report where
  namespaces : List (Path × Namespace)
  procs : List (Path × Proc)

/-- A proc and its references, all under its full name. -/
def procText (index : Index) (path : Path) (p : Proc) : Str :=
  let name := pathString (path ++ [p.name])
  procLine name ++ (index.procs.refsOf p.id).flatMap (referenceLine name)

def Report.text (report : Report) (index : Index) : Str :=
  (report.namespaces.flatMap fun e => namespaceLine (pathString e.1)) ++
    report.procs.flatMap fun e => procText index e.1 e.2

/-- Every namespace, every proc and every reference is listed once. Namespaces and procs come by name
and then in the order of creation, and the references to a proc with its definition first. -/
structure Report.Lists (report : Report) (index : Index) : Prop where
  namespaces : (report.namespaces.map Prod.snd).Perm index.namespaces.table
  namespacePaths : ∀ e ∈ report.namespaces, index.atPath e.1 = some e.2.id
  namespaceOrder : report.namespaces.Pairwise fun a b =>
    a.2.name < b.2.name ∨ a.2.name = b.2.name ∧ a.2.id < b.2.id
  procs : (report.procs.map Prod.snd).Perm index.procs.table
  procPaths : ∀ e ∈ report.procs, index.atPath e.1 = some e.2.parentNamespace
  procOrder : report.procs.Pairwise fun a b =>
    a.2.name < b.2.name ∨ a.2.name = b.2.name ∧ a.2.id < b.2.id
  references : (report.procs.flatMap fun e => index.procs.refsOf e.2.id).Perm index.procs.references
  definitions : ∀ e ∈ report.procs, ∃ definition usages,
    index.procs.refsOf e.2.id = definition :: usages ∧ definition.type = .DEFINITION ∧
      ∀ r ∈ usages, r.type = .USAGE

end TclAnalyzer
