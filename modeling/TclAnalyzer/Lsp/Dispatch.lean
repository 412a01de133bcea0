import TclAnalyzer.Data.Runs
import TclAnalyzer.Lsp.Params

/-!
# The loop over the messages

`dispatch_messages` on messages as they are read, with the frames handed to `send_message`. A handler
that is spawned runs at once, up to the point where it waits for the frame to be written or for a
`Reparse`. While it runs, only the threads of the `Reparse`s go on. When its frame is written is left
open.
-/

namespace TclAnalyzer

/-! ## State -/

/-- The loop waits for a message, for its own frame to be written, or for a lock that its thread holds;
or it has been left, or was ended with the process. -/
inductive LoopStatus where
  | running | sending | blocked | left | aborted
  deriving DecidableEq, Repr

/-- The loop has more messages to come. -/
def LoopStatus.goesOn : LoopStatus → Bool
  | .running | .sending => true
  | .blocked | .left | .aborted => false

/-- The requests and cursors of the server are not used here: a handler keeps its own. -/
structure Dispatcher where
  server : Server
  status : LoopStatus
  /-- The frames handed to `send_message`. -/
  out : List Json

def Dispatcher.initial : Dispatcher := { server := .initial, status := .running, out := [] }

/-- `send_reply` and `send_reject`. -/
def Dispatcher.send (d : Dispatcher) (frame : Json) : Dispatcher := { d with out := d.out ++ [frame] }

/-- A handler that is spawned: an exception ends it and is logged by `handle_unexpected_exception`. -/
def Dispatcher.spawn (d : Dispatcher) : Except Fault Dispatcher → Dispatcher
  | .ok d' => d'
  | .error fault => if fault.isException then d else { d with status := .aborted }

/-- What runs in the loop itself: an exception is caught around the turn and ends the loop. -/
def Dispatcher.call (d : Dispatcher) : Except Fault Dispatcher → Dispatcher
  | .ok d' => d'
  | .error fault => { d with status := if fault.isException then .left else .aborted }

/-! ## Handlers -/

/-- `handle_initialize`. The options and the root are converted, and nothing reads them. -/
def handleInitialize (d : Dispatcher) (message : Json) : Except Fault Dispatcher := do
  let params ← message.value (bytes "params") pure (.object [])
  let options ← params.value (bytes "initializationOptions") pure (.object [])
  let _ ← workspaceOptions options
  let _ ← params.value (bytes "rootUri") Json.getString []
  let id ← message.index (bytes "id")
  return d.send (responseMessage id (.object [(bytes "capabilities", capabilities)]))

def onTextdocumentDidopen (d : Dispatcher) (message : Json) : Except Fault Dispatcher := do
  let textDocument ← didOpenParams (← message.at (bytes "params"))
  return { d with server := onDidOpen d.server textDocument }

def onTextdocumentDidchange (d : Dispatcher) (message : Json) : Except Fault Dispatcher := do
  let (uri, version, contentChanges) ← didChangeParams (← message.at (bytes "params"))
  if d.server.races uri version contentChanges then throw .undefined
  return { d with server := ← onDidChange d.server uri version contentChanges }

/-- The lock is not to be had while a handler that has sent its reply holds it. -/
def onTextdocumentDidclose (d : Dispatcher) (message : Json) : Except Fault Dispatcher := do
  let uri ← didCloseParams (← message.at (bytes "params"))
  if d.server.replying ≠ 0 then return { d with status := .blocked }
  return { d with server := ← onDidClose d.server uri }

/-- `on_textdocument_references` and `on_textdocument_definition`. The lock is released after
`GetCursor`, so `later` is the server at the lookup. -/
def onRequest (method : RequestMethod) (d : Dispatcher) (later : Server) (remains : Remains)
    (message : Json) : Except Fault Dispatcher := do
  let (uri, position) ← method.params (← message.at (bytes "params"))
  let lookup ← getLookup d.server { method, id := 0, uri, position }
  let (reply, index) ← lookup.answer later remains
  let id ← message.index (bytes "id")
  return { d with server := later.replied reply index }.send (responseMessage id reply.toJson)

/-! ## The loop -/

/-- A turn of the loop; `later` is the server after what the threads do while the handler runs. -/
def Dispatcher.turn (d : Dispatcher) (later : Server) (remains : Remains) (message : Json) :
    Dispatcher :=
  let d' := { d with server := later }
  match message.find (bytes "method") with
  | none => d'
  | some (.string method) =>
    if method = bytes "initialize" then d'.spawn (handleInitialize d' message)
    else if method = bytes "shutdown" then
      d'.call do
        let id ← message.index (bytes "id")
        return { d'.send (responseMessage id .null) with status := .sending }
    else if method = bytes "exit" then { d' with status := .left }
    else if method = bytes "textDocument/didOpen" then d'.spawn (onTextdocumentDidopen d' message)
    else if method = bytes "textDocument/didChange" then
      d'.spawn (onTextdocumentDidchange d' message)
    else if method = bytes "textDocument/didClose" then d'.call (onTextdocumentDidclose d' message)
    else if method = bytes "textDocument/references" then
      d'.spawn (onRequest .references d later remains message)
    else if method = bytes "textDocument/definition" then
      d'.spawn (onRequest .definition d later remains message)
    else d'
  | some _ => d'

/-- A step of one of the threads. -/
def ServerEvent.isBackground : ServerEvent → Bool
  | .start _ | .read _ | .installed _ | .failed _ => true
  | _ => false

inductive DispatchEvent where
  /-- A message is received, and the threads take these steps while it is handled. -/
  | receive (message : Json) (between : List ServerEvent)
  /-- A step of a `Reparse`, and one that ends the process. -/
  | background (event : ServerEvent)
  | abort
  /-- The reply of a handler that holds the lock is written, and that of the loop itself. -/
  | written
  | sent

inductive DispatchStep (interp : TclInterp) : Dispatcher → DispatchEvent → Dispatcher → Prop
  | receive (d : Dispatcher) (message : Json) (between : List ServerEvent) (later : Server)
    (remains : Remains) : d.status = .running → Run (ServerStep interp) d.server between later →
    (∀ event ∈ between, event.isBackground) →
    DispatchStep interp d (.receive message between) (d.turn later remains message)
  | background (d : Dispatcher) (event : ServerEvent) (server : Server) : d.status ≠ .aborted →
    ServerStep interp d.server event server → event.isBackground →
    DispatchStep interp d (.background event) { d with server }
  | abort (d : Dispatcher) (uri : Str) (file : SourceFile) (fault : Fault) : d.status ≠ .aborted →
    d.server.reparsing = some (.parsing uri file) → reparse interp file = .error fault →
    fault.isException = false →
    DispatchStep interp d .abort { d with status := .aborted }
  | written (d : Dispatcher) (n : Nat) : d.status ≠ .aborted → d.status ≠ .blocked →
    d.server.replying = n + 1 →
    DispatchStep interp d .written { d with server := { d.server with replying := n } }
  | sent (d : Dispatcher) : d.status = .sending →
    DispatchStep interp d .sent { d with status := .running }

end TclAnalyzer
