import TclAnalyzer.Analyzer.Spans
import TclAnalyzer.Analyzer.Usages
import TclAnalyzer.Data.FirstMax
import TclAnalyzer.Lsp.Client

/-!
# Between the notifications and the index

What the server is to have once it comes to rest: the newest text of each document, its tree, and the
index of the last one that was parsed.
-/

namespace TclAnalyzer

/-- No `Reparse` waits and none runs. -/
def Server.Quiescent (s : Server) : Prop := s.indexQueue = [] ∧ s.reparsing = none

/-- For each word of the tree the text that is read is the one that the parser gave it. An `ERROR` has
its message as the text, which is not in the file. -/
def Tree.Legible (tree : Tree) : Prop :=
  ∀ word ∈ tree.script.allWords, word.type ≠ .ERROR →
    ∀ remains, tree.read remains word.text = word.text

/-- No word of the script has a text. -/
def Script.Wordless (script : Script) : Prop :=
  ∀ word ∈ script.allWords, word.type ≠ .ERROR → word.text.bytes = []

instance (script : Script) : Decidable script.Wordless := inferInstanceAs (Decidable (∀ _ ∈ _, _))

/-- The messages received, in order. -/
def receivedMessages (events : List ServerEvent) : List Message :=
  events.filterMap fun
    | .receive message => some message
    | _ => none

/-- Version and text that a notification offers for a document. -/
def Message.offer (uri : Str) : Message → Option (Int × Str)
  | .didOpen item => if item.uri = uri then some (item.version, item.text) else none
  | .didChange uri' version [change] => if uri' = uri then some (version, change.text) else none
  | _ => none

/-- The versions and texts offered for a document, in order. -/
def offers (uri : Str) (events : List ServerEvent) : List (Int × Str) :=
  (receivedMessages events).filterMap (Message.offer uri)

/-- The documents whose `Reparse` wrote its result, in order. -/
def installedUris (events : List ServerEvent) : List Str :=
  events.filterMap fun
    | .installed uri => some uri
    | _ => none

/-- The documents are opened once each and changed after that, and parsed without an exception. -/
structure Edits (events : List ServerEvent) : Prop where
  edit : ∀ event ∈ events, (∃ item, event = .receive (.didOpen item)) ∨
    (∃ uri version changes, event = .receive (.didChange uri version changes)) ∨
    (∃ uri, event = .start uri) ∨ (∃ uri, event = .read uri) ∨ ∃ uri, event = .installed uri
  once : (openedUris events).Nodup
  opened : ∀ before uri version changes after,
    events = before ++ .receive (.didChange uri version changes) :: after → uri ∈ openedUris before

/-- The index has a reference of this type, in this place, to a proc with this name in the namespace
at this path. -/
def Index.Records (index : Index) (path : Path) (name : Str) (location : SourceLocation)
    (type : ReferenceType) : Prop :=
  ∃ p ∈ index.procsIn path name, { location, id := p.id, type } ∈ index.procs.references

/-- The index has each definition of the script, and the usage of each call that uses one of its procs
and stands in a place where usages count. -/
structure Index.Covers (index : Index) (script : Script) (counts : Site (Path × Bool) → Prop) :
    Prop where
  definition : ∀ site ∈ procSites script.scanSites, ∃ word, site.call.words[1]? = some word ∧
    index.Records (procPath site.scope site.call) (splitName word.text.bytes).name word.location
      .DEFINITION
  usage : ∀ site ∈ script.allSites, site.usesProc script → counts site → ∃ word path,
    site.call.words[0]? = some word ∧
      index.Records path (splitName word.text.bytes).name word.location .USAGE

/-- Every document keeps its tree, and the index its records. -/
structure Server.Keeps (s s' : Server) : Prop where
  tree : ∀ uri document, s.documents uri = some document →
    ∃ document', s'.documents uri = some document' ∧ document'.tree = document.tree
  index : ∀ path name location type, s'.index.Records path name location type ↔
    s.index.Records path name location type

/-- No `Reparse` ends. -/
def Unfinished (events : List ServerEvent) : Prop :=
  ∀ uri, .installed uri ∉ events ∧ .failed uri ∉ events

end TclAnalyzer
