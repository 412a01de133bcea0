import TclAnalyzer.Analyzer.Lookup
import TclAnalyzer.Analyzer.Spans
import TclAnalyzer.Analyzer.Ways
import TclAnalyzer.Lsp.Answerable
import TclAnalyzer.Lsp.Quiescence

/-!
# What replies are

The locations of a reply all belong to one proc, in the index that was built from one text that the
server accepted. A lookup adds namespaces to the index: the proc that a command word means is stated
for an index that stays as it is, and with it the cursors for which the namespaces that were added
count.
-/

namespace TclAnalyzer

/-! ## The locations of a reply -/

/-- A reply with the first of its locations only. -/
def Reply.first : Reply → Reply
  | .reject code message => .reject code message
  | .reply response => .reply (response.take 1)

/-- The cursor of the request is on this command word, and the locations are the lines and columns of
the references of this proc of that name, for `textDocument/definition` of those that define it: all
that are in the index built from the text. Each stands at a word of the text that ends in the name. -/
structure Traces (interp : TclInterp) (accepted : List (Str × Str)) (request : Request) (tree : Tree)
    (locations : List Location) (command : Word) (uri text : Str) (script : Script)
    (result : BuildResult) (p : Proc) : Prop where
  cursor : ∃ cursor, findPositionInScript
    { line := request.position.line, column := request.position.character } tree.script = .ok cursor ∧
    cursor.word = some command ∧ cursor.argument = 0
  accepted : (uri, text) ∈ accepted
  parsed : ParsedFrom interp uri text script
  built : buildNew script = .ok result
  proc : p ∈ result.index.procs.table
  /-- The command word is read where its tree has it, if the contents are still there. -/
  name : tree.HasContents → p.name = (splitName command.text.bytes).name
  locations : locations.map Location.range =
    ((result.index.procs.references.filter fun r => r.id = p.id).filter fun r =>
      request.method = .references ∨ r.type = .DEFINITION).map fun r => r.toLocation.range
  places : ∀ r ∈ result.index.procs.references, r.id = p.id →
    ∃ word ∈ script.allWords, word.location = r.location ∧ word.Exact (makeSourceFile uri text) ∧
      (splitName word.text.bytes).name = p.name

/-! ## What a lookup sees of the lookups before it -/

/-- The proc that a command word means: if the namespace of the call is there, the proc that fits the
call best among the nearest ones of the name. -/
def Index.commandProc (index : Index) (call : Call) (word : Word) : Except Fault (Option Proc) :=
  if (splitName call.ns).absolute then do
    let path ← (splitName call.ns).parts
    if index.atPath path = none then return none
    else do
      let _ ← (splitName word.text.bytes).namespaceParts
      return bestFitProcToCall (index.nearest path word.text.bytes) call
  else throw .assertion

/-- The references of the proc that are kept, as locations. -/
def Index.locations (index : Index) (keep : Reference → Bool) (fit : Option Proc) : List Location :=
  (fit.elim [] fun p => (index.procs.references.filter fun r => r.id = p.id).filter keep).map
    Reference.toLocation

/-- The cursor is on a command word in a namespace that has come into being, and around the namespace
there is a proc of that name, or the name has no parts. -/
structure ScriptCursor.Disturbed (cursor : ScriptCursor) (before after : Index) (call : Call)
    (word : Word) (path : List Str) : Prop where
  onCall : cursor.call = some call
  onWord : cursor.word = some word
  text : word.type = .TEXT
  argument : cursor.argument = 0
  absolute : (splitName call.ns).absolute = true
  ns : (splitName call.ns).parts = .ok path
  missing : before.atPath path = none
  added : after.atPath path ≠ none
  found : HasParts word.text.bytes → before.nearest path word.text.bytes ≠ []

/-- The search can get to the command word of the call that was visited, and the call has the namespace
in which it was visited. -/
structure Visit.Askable (v : Visit) (script : Script) (index : Index) (word : Word) : Prop where
  command : v.call.words[0]? = some word
  text : word.type = .TEXT
  outsideArrays : script.OutsideArrays v.pos
  inLastComponents : script.InLastComponents v.pos
  ns : findNamespace index v.call.ns = .ok (some v.ns)

end TclAnalyzer
