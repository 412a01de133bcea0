import Mathlib.Logic.Function.Basic
import TclAnalyzer.Lsp.Requests

/-!
# The server

The documents and what the event loop, the handlers and the background threads do with them. The
loop receives the messages in order. The part of a handler up to its first suspension runs when its
message is received, for requests at some time after that. Each `Reparse` runs on the strand
`index_queue`, one after the other: it reads its document when it starts and writes the result when
it is done, and anything can happen in between.

The event loop has one thread. A handler that replies with locations holds `index_lock` until the
reply is written; until then no `Reparse` can write its result, and a `didClose` stops that thread.
Another handler still gets the lock to read, also while a `Reparse` waits for it.

Messages are decoded already.
-/

namespace TclAnalyzer

/-! ## Documents -/

structure TextDocumentItem where
  uri : Str
  languageId : Str
  version : Int
  text : Str
  deriving DecidableEq, Repr

/-- `Document::State`. -/
inductive DocumentState where
  | OPEN | CLOSED
  deriving DecidableEq, Repr

/-- `trees` is not in the source: it counts the trees that the document has had. A pointer into one of
them is good until the next one is written. -/
structure Document where
  item : TextDocumentItem
  context : ParseContext
  script : Script
  state : DocumentState
  trees : Nat

/-- A script as it is before anything is parsed. -/
def Script.initial : Script :=
  { location := { fileName := [], offset := 0, line := 0, column := 0 }, commands := [] }

/-- `Document{ .item = item }`. -/
def newDocument (item : TextDocumentItem) : Document :=
  { item, context := { file := { fileName := [], contents := [], newlines := [] }, curNs := [] },
    script := .initial, state := .OPEN, trees := 0 }

structure TextDocumentContentChangeEvent where
  range : Option Range
  text : Str
  deriving DecidableEq, Repr

/-- The method of a request. -/
inductive RequestMethod where
  | references | definition
  deriving DecidableEq, Repr

structure Request where
  method : RequestMethod
  id : Nat
  uri : Str
  position : Position
  deriving DecidableEq, Repr

inductive Message where
  | didOpen (textDocument : TextDocumentItem)
  | didChange (uri : Str) (version : Int) (contentChanges : List TextDocumentContentChangeEvent)
  | didClose (uri : Str)
  | request (request : Request)
  | exit
  deriving DecidableEq, Repr

/-! ## Trees -/

/-- A script with the source file it was parsed from. The words and locations of the script point to
that file. -/
structure Tree where
  file : SourceFile
  script : Script

/-- The tree of a document before its first `Reparse`. -/
def Tree.initial : Tree :=
  { file := { fileName := [], contents := [], newlines := [] }, script := .initial }

def Document.tree (document : Document) : Tree :=
  { file := document.context.file, script := document.script }

/-- What is read through pointers into a source file that is gone: its contents at an offset, and its
name when that is read for the `i`-th location of a reply. The language leaves it open. -/
structure Remains where
  contents : Nat → UInt8
  fileName : Nat → Str
  deriving Inhabited

/-- A `std::string` holds up to this many bytes in itself. -/
def inlineCapacity : Nat := 15

/-- The contents are where they were when the script was parsed: `Reparse` moves them into the document
when it ends, and a move copies what a string holds in itself. -/
def Tree.HasContents (tree : Tree) : Prop := inlineCapacity < tree.file.contents.length

instance (tree : Tree) : Decidable tree.HasContents := inferInstanceAs (Decidable (_ < _))

/-- The text of a word of a tree that has been written into its document. -/
def Tree.read (tree : Tree) (remains : Remains) (text : StringView) : StringView :=
  if tree.HasContents then text
  else { text with bytes := (List.range text.bytes.length).map fun i => remains.contents (text.data + i) }

/-! ## State -/

/-- A handler of a request that has its cursor, with the number of the tree that the cursor points
into. -/
structure Lookup where
  request : Request
  tree : Tree
  number : Nat
  cursor : ScriptCursor

/-- A `Reparse` that has started: it copies the text of its document, which may be written meanwhile,
and then parses the source file made from it. -/
inductive Reparsing where
  | reading (uri : Str) (torn : Bool)
  | parsing (uri : Str) (file : SourceFile)

def Reparsing.uri : Reparsing → Str
  | .reading uri _ => uri
  | .parsing uri _ => uri

/-- The state of the server. `accepted` is not in the source: it records the texts that were taken
over into the documents, each with the URI, in order. -/
structure Server where
  documents : Str → Option Document
  index : Index
  /-- The documents whose `Reparse` has not started. -/
  indexQueue : List Str
  reparsing : Option Reparsing
  /-- The handlers of requests that have not started. -/
  requests : List Request
  cursors : List Lookup
  /-- The handlers that hold `index_lock` while their reply is written. -/
  replying : Nat
  /-- The loop over the messages has not ended. -/
  listening : Bool
  /-- The thread of the loop and the handlers waits for `index_lock`, which it holds itself. -/
  blocked : Bool
  accepted : List (Str × Str)

def Server.initial : Server :=
  { documents := fun _ => none, index := makeIndex, indexQueue := [], reparsing := none,
    requests := [], cursors := [], replying := 0, listening := true, blocked := false,
    accepted := [] }

/-! ## Handlers of notifications -/

/-- `emplace` leaves an entry that is there as it is. -/
def onDidOpen (server : Server) (textDocument : TextDocumentItem) : Server :=
  let server := { server with indexQueue := server.indexQueue ++ [textDocument.uri] }
  match server.documents textDocument.uri with
  | some _ => server
  | none =>
    { server with
      documents :=
        Function.update server.documents textDocument.uri (some (newDocument textDocument))
      accepted := server.accepted ++ [(textDocument.uri, textDocument.text)] }

/-- The text of a document is written, without a lock. -/
def Reparsing.write (written : Str) : Reparsing → Reparsing
  | .reading uri torn => .reading uri (torn || uri = written)
  | .parsing uri file => .parsing uri file

def onDidChange (server : Server) (uri : Str) (version : Int)
    (contentChanges : List TextDocumentContentChangeEvent) : Except Fault Server :=
  match server.documents uri with
  | none => throw .outOfRange
  | some document =>
    match contentChanges with
    | [change] =>
      if document.item.version < version then
        let item := { document.item with text := change.text, version }
        return { server with
          documents := Function.update server.documents uri (some { document with item })
          indexQueue := server.indexQueue ++ [uri]
          reparsing := server.reparsing.map (Reparsing.write uri)
          accepted := server.accepted ++ [(uri, change.text)] }
      else return server
    | _ => return server

/-- An accepted change writes the text of a document while a `Reparse` reads it, which has no defined
effect. -/
def Server.races (server : Server) (uri : Str) (version : Int)
    (contentChanges : List TextDocumentContentChangeEvent) : Bool :=
  match server.documents uri, contentChanges, server.reparsing with
  | some document, [_], some (.reading read _) => read = uri ∧ document.item.version < version
  | _, _, _ => false

def onDidClose (server : Server) (uri : Str) : Except Fault Server :=
  match server.documents uri with
  | none => throw .outOfRange
  | some document =>
    return { server with
      documents := Function.update server.documents uri (some { document with state := .CLOSED }) }

/-- A turn of the loop of `dispatch_messages`. An exception of a handler that is spawned ends the
handler, one of a handler that is called ends the loop. -/
def Server.receive (server : Server) : Message → Server
  | .didOpen textDocument => onDidOpen server textDocument
  | .didChange uri version contentChanges =>
    match onDidChange server uri version contentChanges with
    | .ok server => server
    | .error _ => server
  | .didClose uri =>
    match onDidClose server uri with
    | .ok server => server
    | .error _ => { server with listening := false }
  | .request request => { server with requests := server.requests ++ [request] }
  | .exit => { server with listening := false }

/-! ## Reparsing -/

/-- What `Reparse` writes. -/
structure Parsed where
  context : ParseContext
  script : Script
  index : Index

/-- `Reparse` on a source file, up to where it takes the lock. -/
def reparse (interp : TclInterp) (file : SourceFile) : Except Fault Parsed := do
  let context : ParseContext := { file, curNs := [] }
  let script ← parseScript interp context { data := 0, bytes := context.file.contents }
  let result ← buildNew script
  return { context, script, index := result.index }

/-- The tree that a `Reparse` writes. -/
def Parsed.tree (parsed : Parsed) : Tree := { file := parsed.context.file, script := parsed.script }

/-- The document with the result in it. -/
def Document.install (document : Document) (parsed : Parsed) : Document :=
  { document with
    context := parsed.context, script := parsed.script, trees := document.trees + 1 }

/-! ## Handlers of requests -/

/-- `GetCursor`. -/
def getCursor (server : Server) (uri : Str) (position : Position) : Except Fault ScriptCursor :=
  match server.documents uri with
  | none => throw .outOfRange
  | some document =>
    findPositionInScript { line := position.line, column := position.character } document.script

/-- The handler of a request from `GetCursor` on. -/
def getLookup (server : Server) (request : Request) : Except Fault Lookup :=
  match server.documents request.uri with
  | none => throw .outOfRange
  | some document => do
    let cursor ← getCursor server request.uri request.position
    return { request, tree := document.tree, number := document.trees, cursor }

/-- The handler of a request from the cursor on. -/
def Request.answer (request : Request) : Index → ScriptCursor → Except Fault (Reply × Index) :=
  match request.method with
  | .references => answerReferences
  | .definition => answerDefinition

/-- The cursor with the text of its word as it is read. -/
def ScriptCursor.read (cursor : ScriptCursor) (tree : Tree) (remains : Remains) : ScriptCursor :=
  { cursor with word := cursor.word.map fun word => { word with text := tree.read remains word.text } }

/-- The reply with the names of files as they are read: the source file that the index points to is
that of a `Reparse` that has ended. -/
def Reply.read (remains : Remains) : Reply → Reply
  | .reject code message => .reject code message
  | .reply response =>
    .reply (response.zipIdx.map fun (location, i) => { location with uri := remains.fileName i })

/-- The handler does not send a rejection: it follows the pointers of its cursor. -/
def ScriptCursor.Points (cursor : ScriptCursor) : Prop := cursor.call.isSome ∧ cursor.word.isSome

instance (cursor : ScriptCursor) : Decidable cursor.Points := inferInstanceAs (Decidable (_ ∧ _))

/-- The number of the tree of a document. -/
def Server.treeNumber (server : Server) (uri : Str) : Option Nat :=
  (server.documents uri).map Document.trees

/-- The handler with its cursor, which was found in a tree that may have been replaced since. -/
def Lookup.answer (lookup : Lookup) (server : Server) (remains : Remains) :
    Except Fault (Reply × Index) := do
  if lookup.cursor.Points ∧ server.treeNumber lookup.request.uri ≠ some lookup.number then
    throw .undefined
  let (reply, index) ← lookup.request.answer server.index (lookup.cursor.read lookup.tree remains)
  return (reply.read remains, index)

/-- `send_reject` is called before the lock is taken. -/
def Reply.locks : Reply → Nat
  | .reject _ _ => 0
  | .reply _ => 1

/-- The reply has been handed to `send_message`. -/
def Server.replied (server : Server) (reply : Reply) (index : Index) : Server :=
  { server with index, replying := server.replying + reply.locks }

/-! ## Steps -/

inductive ServerEvent where
  | receive (message : Message)
  /-- The `Reparse` of a document starts, has copied the text, writes its result, or ends with an
  exception. -/
  | start (uri : Str)
  | read (uri : Str)
  | installed (uri : Str)
  | failed (uri : Str)
  /-- `GetCursor` for a request, in this tree. -/
  | cursor (request : Request) (tree : Tree)
  | reply (request : Request) (tree : Tree) (reply : Reply)
  /-- A handler of a request ends with an exception. -/
  | dropped (request : Request)
  /-- A reply is written, and its handler releases the lock. -/
  | written
  /-- `didClose` of a document is received and waits for the lock. -/
  | blocked (uri : Str)

/-- The handler of `didClose` takes the lock. -/
def Message.locks : Message → Bool
  | .didClose _ => true
  | _ => false

inductive ServerStep (interp : TclInterp) : Server → ServerEvent → Server → Prop
  | receive (s : Server) (message : Message) : s.listening = true →
    (message.locks = true → s.replying = 0) →
    ServerStep interp s (.receive message) (s.receive message)
  | blocked (s : Server) (uri : Str) : s.listening = true → s.replying ≠ 0 →
    ServerStep interp s (.blocked uri) { s with listening := false, blocked := true }
  | start (s : Server) (uri : Str) (queue : List Str) (document : Document) :
    s.reparsing = none → s.indexQueue = uri :: queue → s.documents uri = some document →
    ServerStep interp s (.start uri)
      { s with indexQueue := queue, reparsing := some (.reading uri false) }
  | read (s : Server) (uri : Str) (torn : Bool) (document : Document) (text : Str) :
    s.reparsing = some (.reading uri torn) → s.documents uri = some document →
    (torn = false → text = document.item.text) →
    ServerStep interp s (.read uri)
      { s with reparsing := some (.parsing uri (makeSourceFile document.item.uri text)) }
  | installed (s : Server) (uri : Str) (file : SourceFile) (parsed : Parsed) (document : Document) :
    s.reparsing = some (.parsing uri file) → s.replying = 0 → reparse interp file = .ok parsed →
    s.documents uri = some document →
    ServerStep interp s (.installed uri)
      { s with
        reparsing := none
        documents := Function.update s.documents uri (some (document.install parsed))
        index := parsed.index }
  | failed (s : Server) (uri : Str) (file : SourceFile) (fault : Fault) :
    s.reparsing = some (.parsing uri file) → reparse interp file = .error fault →
    fault.isException = true →
    ServerStep interp s (.failed uri) { s with reparsing := none }
  | cursor (s : Server) (before after : List Request) (lookup : Lookup) :
    s.blocked = false → s.requests = before ++ lookup.request :: after →
    getLookup s lookup.request = .ok lookup →
    ServerStep interp s (.cursor lookup.request lookup.tree)
      { s with requests := before ++ after, cursors := s.cursors ++ [lookup] }
  | noCursor (s : Server) (before after : List Request) (request : Request) (fault : Fault) :
    s.blocked = false → s.requests = before ++ request :: after →
    getLookup s request = .error fault → fault.isException = true →
    ServerStep interp s (.dropped request) { s with requests := before ++ after }
  | reply (s : Server) (before after : List Lookup) (lookup : Lookup) (remains : Remains)
      (reply : Reply) (index : Index) :
    s.blocked = false → s.cursors = before ++ lookup :: after →
    lookup.answer s remains = .ok (reply, index) →
    ServerStep interp s (.reply lookup.request lookup.tree reply)
      ({ s with cursors := before ++ after }.replied reply index)
  | noReply (s : Server) (before after : List Lookup) (lookup : Lookup) (remains : Remains)
      (fault : Fault) :
    s.blocked = false → s.cursors = before ++ lookup :: after →
    lookup.answer s remains = .error fault → fault.isException = true →
    ServerStep interp s (.dropped lookup.request) { s with cursors := before ++ after }
  | written (s : Server) (n : Nat) : s.blocked = false → s.replying = n + 1 →
    ServerStep interp s .written { s with replying := n }

def Server.Races (s : Server) (event : ServerEvent) : Prop :=
  ∃ uri version contentChanges, event = .receive (.didChange uri version contentChanges) ∧
    s.races uri version contentChanges = true

/-- A step without a data race. -/
def RaceFree (interp : TclInterp) (s : Server) (event : ServerEvent) (s' : Server) : Prop :=
  ServerStep interp s event s' ∧ ¬s.Races event

/-! ## Where a tree comes from -/

/-- The tree is what `ParseScript` makes of this text of a document. -/
def ParsedFrom (interp : TclInterp) (uri text : Str) (tree : Script) : Prop :=
  let file := makeSourceFile uri text
  parseScript interp { file, curNs := [] } { data := 0, bytes := file.contents } = .ok tree

/-- The script is what the parser makes of the file. -/
def Tree.Parses (interp : TclInterp) (tree : Tree) : Prop :=
  parseScript interp { file := tree.file, curNs := [] } { data := 0, bytes := tree.file.contents } =
    .ok tree.script

/-- The tree is parsed from an accepted text of a document, one whose number in the order of
acceptance has a property. -/
def TreeFrom (interp : TclInterp) (accepted : List (Str × Str)) (uri : Str) (P : Nat → Prop)
    (tree : Tree) : Prop :=
  ∃ k text, P k ∧ accepted[k]? = some (uri, text) ∧ tree.file = makeSourceFile uri text ∧
    tree.Parses interp

/-- A `Reparse` of the document has started and, after that, the result of one was written. -/
def Reparsed (uri : Str) (events : List ServerEvent) : Prop :=
  [.start uri, .installed uri].Sublist events

end TclAnalyzer
