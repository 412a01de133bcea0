import TclAnalyzer.Analyzer.Splitting

/-!
# Registering and printing

Indexes that come of naming namespaces and procs one by one, and what it means that the names printed
for them can be looked up again.
-/

namespace TclAnalyzer

/-- A call of `ResolveNamespace` or `AddProcToIndex`. -/
inductive Registration where
  | resolveNamespace (qn : QualifiedName) (ns : Nat)
  | addProcToIndex (ns : Nat) (words : List Word)

namespace Registration

/-- The namespace that the name is resolved from. -/
def ns : Registration → Nat
  | resolveNamespace _ ns | addProcToIndex ns _ => ns

/-- The components of the name are not empty and have no colon in them. -/
def PlainName : Registration → Prop
  | resolveNamespace qn _ => ∃ parts, qn.namespaceParts = .ok parts ∧ Plain parts
  | addProcToIndex _ words => ∃ nameWord nsParts, words[1]? = some nameWord ∧
      (splitName nameWord.text.bytes).namespaceParts = .ok nsParts ∧
      Plain (nsParts ++ [(splitName nameWord.text.bytes).name])

/-- The index after the call. -/
def perform (index : Index) : Registration → Except Fault Index
  | resolveNamespace qn ns => do
    let (_, index) ← TclAnalyzer.resolveNamespace index qn ns
    return index
  | addProcToIndex ns words => TclAnalyzer.addProcToIndex index ns words

/-- A call that completes, with a plain name and from an existing namespace. -/
def Step (index : Index) (registration : Registration) (index' : Index) : Prop :=
  registration.PlainName ∧ index.HasNamespace registration.ns ∧
    registration.perform index = .ok index'

end Registration

/-- What is printed for an entity is looked up as that entity. -/
structure Index.PrintsBack (index : Index) : Prop where
  namespaces : ∀ ns n, index.namespaces.get ns = .ok n → ∃ printName,
    getPrintName index n.name n.parentNamespace = .ok printName ∧
      findNamespace index printName = .ok (some ns)
  distinct : ∀ ns ns' n n' printName, index.namespaces.get ns = .ok n →
    index.namespaces.get ns' = .ok n' →
    getPrintName index n.name n.parentNamespace = .ok printName →
    getPrintName index n'.name n'.parentNamespace = .ok printName → ns = ns'
  procs : ∀ p ∈ index.procs.table, ∃ printName procs index',
    getPrintName index p.name (some p.parentNamespace) = .ok printName ∧
      findProc index index.globalNamespaceId printName = .ok (procs, index') ∧ p ∈ procs

end TclAnalyzer
