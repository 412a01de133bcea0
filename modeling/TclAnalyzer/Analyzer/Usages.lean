import TclAnalyzer.Analyzer.Lookup
import TclAnalyzer.Analyzer.Sites

/-!
# The usages of a script

What the references of the index should record: the calls anywhere in the tree whose names mean a
proc. Also what a script alone says about this, without an index.
-/

namespace TclAnalyzer

/-! ## Against an index -/

/-- The procs that `FindProc` returns for a call in the namespace at `path`, without the index it
returns; none where that namespace does not exist or the lookup fails. -/
def Index.found (index : Index) (path : Path) (call : Call) : List Proc :=
  match index.atPath path, call.words[0]? with
  | some ns, some cmdWord =>
    match findProc index ns cmdWord.text.bytes with
    | .ok (procs, _) => procs
    | .error _ => []
  | _, _ => []

/-- All calls of a script, with the namespace that `IndexScript` has on top for the script or word
around the call. The flag says whether it reaches the call. -/
def Script.allSites (script : Script) : List (Site (Path × Bool)) :=
  sitesScript indexPass.everywhere ([], true) [] script

/-- The calls of the tree that use a proc of the index. -/
def Script.usingSites (script : Script) (index : Index) : List (Site (Path × Bool)) :=
  script.allSites.filter fun site =>
    site.call.type = .USER ∧ index.found site.scope.1 site.call ≠ []

/-- The reference is located at the command word of the call and names one of the procs found. -/
structure RecordedAs (index : Index) (site : Site (Path × Bool)) (r : Reference) : Prop where
  location : (site.call.words[0]?).map Word.location = some r.location
  proc : ∃ p ∈ index.found site.scope.1 site.call, p.id = r.id

def Index.usages (index : Index) : List Reference :=
  index.procs.references.filter fun r => r.type = .USAGE

/-- One-to-one: the calls that use a proc can be put in the order of the usages recorded. -/
def UsagesMatchCalls (script : Script) (index : Index) : Prop :=
  ∃ sites, sites.Perm (script.usingSites index) ∧
    List.Forall₂ (RecordedAs index) sites index.usages

/-- No two procs have the same namespace and name. -/
def Index.DistinctProcs (index : Index) : Prop :=
  ∀ p ∈ index.procs.table, ∀ q ∈ index.procs.table,
    p.name = q.name → p.parentNamespace = q.parentNamespace → p = q

instance (index : Index) : Decidable index.DistinctProcs := by
  unfold Index.DistinctProcs
  infer_instance

/-- The procs, each as the path of its namespace and its name. -/
def Index.procPaths (index : Index) : Set (Path × Str) :=
  {path | ∃ p ∈ index.procs.table, index.atPath path.1 = some p.parentNamespace ∧ p.name = path.2}

/-- The usages, each as its location and the location of the definition of the proc it refers to. -/
def Index.usagePairs (index : Index) : Set (SourceLocation × SourceLocation) :=
  {pair | ∃ u ∈ index.procs.references, ∃ d ∈ index.procs.references,
    u.type = .USAGE ∧ d.type = .DEFINITION ∧ u.id = d.id ∧ pair = (u.location, d.location)}

/-! ## Against the definitions of the script -/

/-- The namespaces, nearest first, where a call in the namespace at `path` finds a proc of its name
among these definitions. -/
def resolvedIn (definitions : List (Path × Str)) (path : Path) (call : Call) : List Path :=
  let qn := splitName (call.wordText 0)
  match qn.namespaceParts with
  | .ok parts =>
    (candidates path qn parts).filter fun target => (target, qn.name) ∈ definitions
  | .error _ => []

/-- A call anywhere in the tree whose command name means a proc of the script. -/
def Site.usesProc (site : Site (Path × Bool)) (script : Script) : Prop :=
  site.call.type = .USER ∧ site.call.words ≠ [] ∧
    resolvedIn script.definitions site.scope.1 site.call ≠ []

instance (site : Site (Path × Bool)) (script : Script) : Decidable (site.usesProc script) := by
  unfold Site.usesProc
  infer_instance

end TclAnalyzer
