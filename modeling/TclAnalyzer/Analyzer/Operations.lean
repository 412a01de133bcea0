import TclAnalyzer.Analyzer.Sites
import TclAnalyzer.Data.Runs

/-!
# Using an index

The operations that change an index, in any order and on any script, and the indexes that can come of
that.
-/

namespace TclAnalyzer

/-- A call of one of the functions that take the index by reference. -/
inductive Operation where
  | scanScript (context : ScanContext) (script : Script)
  | indexScript (context : ScanContext) (script : Script)
  | resolveNamespace (qn : QualifiedName) (ns : Nat)
  | findProc (ns : Nat) (cmdName : Str)

/-- A namespace of the index. -/
def Index.HasNamespace (index : Index) (ns : Nat) : Prop := ∃ n, index.namespaces.get ns = .ok n

/-- The arguments of the call name existing namespaces only. -/
def Operation.NamesExisting (index : Index) : Operation → Prop
  | scanScript context _ | indexScript context _ =>
    context.nsPath ≠ [] ∧ ∀ ns ∈ context.nsPath, index.HasNamespace ns
  | resolveNamespace _ ns | findProc ns _ => index.HasNamespace ns

/-- The index after the call. -/
def Operation.perform (index : Index) : Operation → Except Fault Index
  | scanScript context script => do
    let st ← TclAnalyzer.scanScript { index, visits := [] } context [] script
    return st.index
  | indexScript context script => do
    let st ← TclAnalyzer.indexScript { index, visits := [] } context [] script
    return st.index
  | resolveNamespace qn ns => do
    let (_, index) ← TclAnalyzer.resolveNamespace index qn ns
    return index
  | findProc ns cmdName => do
    let (_, index) ← TclAnalyzer.findProc index ns cmdName
    return index

/-- A call that completes. -/
def Operation.Step (index : Index) (operation : Operation) (index' : Index) : Prop :=
  operation.NamesExisting index ∧ operation.perform index = .ok index'

/-- What the rest of the analyzer relies on, in terms of the rows of the tables. -/
structure Index.Sound (index : Index) : Prop where
  root : ∃ n, index.namespaces.get index.globalNamespaceId = .ok n ∧ n.parentNamespace = none
  /-- Every other namespace has a parent with a smaller id, which lists it once. -/
  parent : ∀ id n, index.namespaces.get id = .ok n → id ≠ index.globalNamespaceId →
    ∃ p parent, n.parentNamespace = some p ∧ p < id ∧ index.namespaces.get p = .ok parent ∧
      parent.childNamespaces.count id = 1
  /-- No other namespace lists it. -/
  child : ∀ p parent id, index.namespaces.get p = .ok parent → id ∈ parent.childNamespaces →
    ∃ n, index.namespaces.get id = .ok n ∧ n.parentNamespace = some p
  siblings : ∀ p parent i j n m, index.namespaces.get p = .ok parent →
    i ∈ parent.childNamespaces → j ∈ parent.childNamespaces → index.namespaces.get i = .ok n →
    index.namespaces.get j = .ok m → n.name = m.name → i = j
  parents : ∀ p ∈ index.procs.table, index.HasNamespace p.parentNamespace
  /-- In the order of `refsByID`, one definition comes before all usages. -/
  definitions : ∀ p ∈ index.procs.table, ∃ definition usages,
    index.procs.refsOf p.id = definition :: usages ∧ definition.type = .DEFINITION ∧
      ∀ r ∈ usages, r.type = .USAGE
  /-- `FindProc` ends, with procs or with an exception. -/
  findProc : ∀ ns cmdName, index.HasNamespace ns → findProc index ns cmdName ≠ .error .diverges
  /-- `GetPrintName` ends for procs and namespaces. -/
  getPrintName : ∀ name ns, index.HasNamespace ns →
    ∃ printName, getPrintName index name (some ns) = .ok printName

/-- The procs in the scopes of the namespaces are those with the namespace as their parent. -/
structure Index.ScopesAgree (index : Index) : Prop where
  owned : ∀ p ∈ index.procs.table, ∀ ns n, index.namespaces.get ns = .ok n →
    (p.id ∈ n.scope.procs ↔ p.parentNamespace = ns)
  once : ∀ p ∈ index.procs.table, ∀ ns n, index.namespaces.get ns = .ok n →
    p.parentNamespace = ns → n.scope.procs.count p.id = 1
  valid : ∀ ns n, index.namespaces.get ns = .ok n → ∀ id ∈ n.scope.procs,
    ∃ p, index.procs.get id = .ok p

/-- The operation is a scan that reaches a `proc` command. -/
def Operation.ScansProc : Operation → Prop
  | scanScript _ script => ∃ site ∈ script.scanSites, site.call.type = .PROC
  | _ => False

end TclAnalyzer
