import TclAnalyzer.Analyzer.Proofs.NamespaceProofs

/-!
# What a lookup is for

Nearest enclosing lookup, stated over paths: a name is looked up in the namespace it is used in, then
in the one around it, and so on out to the global namespace. Also the invariant of an index, the same
lookup over the rows of the tables, and which of several procs of one name a call can mean.
-/

namespace TclAnalyzer

/-- The invariant of an index: sound tables, a tree of namespaces, procs in existing namespaces,
references to existing procs, and for each proc one definition that comes before all usages. -/
structure Index.WF (index : Index) : Prop where
  namespaces : index.NamespacesWF
  procs : index.procs.WF
  parents : ∀ p ∈ index.procs.table, index.tree.Valid p.parentNamespace
  referenced : ∀ r ∈ index.procs.references, 1 ≤ r.id ∧ r.id ≤ index.procs.table.length
  definitions : ∀ p ∈ index.procs.table, ∃ location usages,
    index.procs.refsOf p.id = { location, id := p.id, type := .DEFINITION } :: usages ∧
      ∀ r ∈ usages, r.type = .USAGE

/-- The procs with this name in the namespace at `path`, in the order of their ids. -/
def Index.procsIn (index : Index) (path : List Str) (name : Str) : List Proc :=
  index.procs.table.filter fun p => p.name = name ∧ index.atPath path = some p.parentNamespace

/-- A namespace and those around it, nearest first. -/
def enclosing (path : List Str) : List (List Str) := path.inits.reverse

/-- The paths of the namespaces in which a name used at `path` is looked up, in this order. -/
def candidates (path : List Str) (qn : QualifiedName) (parts : List Str) : List (List Str) :=
  if qn.absolute then [parts] else (enclosing path).map (· ++ parts)

/-- The first of the lists that is not empty, or the empty list. -/
def firstNonempty {α : Type} : List (List α) → List α
  | [] => []
  | l :: ls => if l.isEmpty then firstNonempty ls else l

/-- The procs that a command name means in the namespace at `path`. -/
def Index.nearest (index : Index) (path : List Str) (cmdName : Str) : List Proc :=
  match (splitName cmdName).namespaceParts with
  | .ok parts => firstNonempty ((candidates path (splitName cmdName) parts).map fun target =>
      index.procsIn target (splitName cmdName).name)
  | .error _ => []

/-! ## The namespaces a lookup goes through -/

/-- A namespace, its parent, the parent of that one and so on up to the global namespace. -/
inductive Index.Around (index : Index) : Nat → List Nat → Prop
  | global : index.Around index.globalNamespaceId [index.globalNamespaceId]
  | inner {ns parent : Nat} {row : Namespace} {outer : List Nat} :
    index.namespaces.get ns = .ok row → row.parentNamespace = some parent →
    index.Around parent outer → index.Around ns (ns :: outer)

/-- The namespaces from which a name that is used in `ns` is followed, in this order. -/
inductive Index.Starts (index : Index) (ns : Nat) : (absolute : Bool) → List Nat → Prop
  | absolute : index.Starts ns true [index.globalNamespaceId]
  | relative {starts : List Nat} : index.Around ns starts → index.Starts ns false starts

/-- The procs of this name in the namespace to which the parts lead from `start`. -/
def Index.procsFrom (index : Index) (parts : List Str) (name : Str) (start : Nat) : List Proc :=
  index.procs.table.filter fun p =>
    p.name = name ∧ index.tree.walk start parts = some p.parentNamespace

/-- `procs` are those procs from the nearest start that has any. -/
def Index.FromNearest (index : Index) (parts : List Str) (name : Str) (starts : List Nat)
    (procs : List Proc) : Prop :=
  ∃ before nearest after, starts = before ++ nearest :: after ∧
    (∀ start ∈ before, index.procsFrom parts name start = []) ∧
    procs = index.procsFrom parts name nearest ∧
    (procs = [] → ∀ start ∈ starts, index.procsFrom parts name start = [])

/-- The parts lead to a namespace that exists from each start, up to the nearest with such procs. -/
def Index.Settled (index : Index) (parts : List Str) (name : Str) : List Nat → Prop
  | [] => True
  | start :: outer => (index.tree.walk start parts).isSome ∧
      (index.procsFrom parts name start = [] → index.Settled parts name outer)

/-! ## Overloaded procs -/

/-- The proc can be called with this many arguments. -/
def Proc.Accepts (numArgs : Nat) (proc : Proc) : Prop :=
  (proc.requiredArgs ≤ numArgs ∧ numArgs ≤ proc.requiredArgs + proc.optionalArgs) ∨
    (proc.requiredArgs ≤ numArgs ∧ proc.isVariadic = true)

/-- The proc requires this many arguments. -/
def Proc.Exact (numArgs : Nat) (proc : Proc) : Prop := proc.requiredArgs = numArgs

instance (numArgs : Nat) : DecidablePred (Proc.Accepts numArgs) := fun proc => by
  unfold Proc.Accepts
  infer_instance

instance (numArgs : Nat) : DecidablePred (Proc.Exact numArgs) := fun proc => by
  unfold Proc.Exact
  infer_instance

/-- If one of the candidates is exact for the call, then so is the one selected. -/
def ExactWins (procs : List Proc) (call : Call) (numArgs : Nat) : Prop :=
  (∃ p ∈ procs, p.Exact numArgs) →
    ∃ q, bestFitProcToCall procs call = some q ∧ q.Exact numArgs

/-- If the first candidate is exact, then so is another one, or no other one accepts the call. -/
def FirstSafe (procs : List Proc) (numArgs : Nat) : Prop :=
  ∀ first rest, procs = first :: rest → first.Exact numArgs →
    (∃ p ∈ rest, p.Exact numArgs) ∨ ∀ p ∈ rest, ¬ p.Accepts numArgs

end TclAnalyzer
