import TclAnalyzer.Analyzer.Lookup
import TclAnalyzer.Analyzer.NamespaceStrings

/-!
# Names put together at run time

`proc` and `namespace eval` with a variable or a command in the name. `ParseCommand` keeps to the
namespace around such a command, while the passes of the indexer take the text of the word, with the
`$` or the brackets in it, for the name.
-/

namespace TclAnalyzer

/-- A `proc` or `namespace eval` whose name is not literal text. -/
def Call.namedAtRunTime (call : Call) : Bool :=
  match call.type with
  | .PROC => ¬call.isText 1
  | .NAMESPACE_EVAL => ¬call.isText 2
  | _ => false

/-- Where the text of the name leads from the namespace at `path`. -/
def Call.namePath (call : Call) (path : Path) : Path :=
  if call.type = .NAMESPACE_EVAL then evalPath path call else procPath path call

/-- The inner call is in the body of the outer one, with none of the visits between the two. -/
def Visit.InBody (visits : List Visit) (outer inner : Visit) : Prop :=
  outer.pos ++ [3] <+: inner.pos ∧
    ∀ v ∈ visits, outer.pos ++ [3] <+: v.pos → v.pos <+: inner.pos → v.pos = inner.pos

instance (visits : List Visit) (outer inner : Visit) :
    Decidable (Visit.InBody visits outer inner) := by
  unfold Visit.InBody
  infer_instance

/-- The body of the command stays in the namespace around it, for the parser and for the pass that
made the visits, and the text of its name leads to no other namespace of the index. -/
structure Index.KeepsAround (index : Index) (visits : List Visit) (v : Visit) : Prop where
  body : ∀ inner ∈ visits, Visit.InBody visits v inner →
    inner.call.ns = v.call.ns ∧ inner.ns = v.ns
  namespaces : ∀ path ns, index.atPath path = some v.ns →
    index.atPath (v.call.namePath path) = some ns → ns = v.ns

/-- Names put together at run time create nothing: the procs are those of the `proc` commands with a
literal name, and a command named at run time opens no namespace. -/
structure BuildResult.LiteralOnly (result : BuildResult) : Prop where
  procs : result.index.procs.table.map Proc.name =
    (result.scanned.filter fun v => v.call.type = .PROC ∧ v.call.isText 1).map fun v =>
      (splitName (v.call.wordText 1)).name
  scanned : ∀ v ∈ result.scanned, v.call.namedAtRunTime →
    result.index.KeepsAround result.scanned v
  indexed : ∀ v ∈ result.indexed, v.call.namedAtRunTime →
    result.index.KeepsAround result.indexed v

end TclAnalyzer
