import TclAnalyzer.Lsp.Answerable
import TclAnalyzer.Lsp.Quiescence

/-!
# JSON messages and the server

The message of the server that a JSON message stands for, and the response that it calls for in a run
of the server. The loop of `dispatch_messages` is compared with these.
-/

namespace TclAnalyzer

/-! ## Messages -/

/-- The parameters of a message, when they convert. -/
def Json.params {α : Type} (message : Json) (get : Json → Except Fault α) : Option α :=
  (message.at (bytes "params") >>= get).toOption

/-- The methods of the two requests for a position. -/
def RequestMethod.name : RequestMethod → Str
  | .references => bytes "textDocument/references"
  | .definition => bytes "textDocument/definition"

/-- The message of the server; a request gets this number. -/
def Json.toMessage (n : Nat) (message : Json) : Option Message :=
  match message.find (bytes "method") with
  | some (.string method) =>
    if method = bytes "exit" then some .exit
    else if method = bytes "textDocument/didOpen" then
      (message.params didOpenParams).map .didOpen
    else if method = bytes "textDocument/didChange" then
      (message.params didChangeParams).map fun (uri, version, contentChanges) =>
        .didChange uri version contentChanges
    else if method = bytes "textDocument/didClose" then
      (message.params didCloseParams).map .didClose
    else if method = RequestMethod.references.name then
      (message.params RequestMethod.references.params).map fun (uri, position) =>
        .request { method := .references, id := n, uri, position }
    else if method = RequestMethod.definition.name then
      (message.params RequestMethod.definition.params).map fun (uri, position) =>
        .request { method := .definition, id := n, uri, position }
    else none
  | _ => none

/-- The messages of the server, each request with the number of its JSON message. -/
def toMessages (messages : List Json) : List Message :=
  messages.zipIdx.filterMap fun (message, n) => message.toMessage n

/-- The JSON messages that the loop has read, in order. -/
def receivedJson (history : List DispatchEvent) : List Json :=
  history.filterMap fun
    | .receive message _ => some message
    | _ => none

/-! ## Responses -/

/-- In a run of the server with these events, message number `n` is answered by this frame. -/
inductive Answers (events : List ServerEvent) (n : Nat) (message : Json) : Json → Prop
  | capabilities (id : Json) : message.find (bytes "method") = some (.string (bytes "initialize")) →
    message.find (bytes "id") = some id → InitializeShape message →
    Answers events n message (responseMessage id (.object [(bytes "capabilities", TclAnalyzer.capabilities)]))
  | shutdown (id : Json) : message.find (bytes "method") = some (.string (bytes "shutdown")) →
    message.find (bytes "id") = some id → Answers events n message (responseMessage id .null)
  | reply (request : Request) (tree : Tree) (reply : Reply) (id : Json) :
    .reply request tree reply ∈ events → request.id = n → message.find (bytes "id") = some id →
    Answers events n message (responseMessage id reply.toJson)

/-- The loop has done what a run of the server with these events does, and the frames handed to
`send_message` are the responses to these messages. -/
structure Dispatcher.Refines (interp : TclInterp) (history : List DispatchEvent) (d : Dispatcher)
    (events : List ServerEvent) (responses : List (Nat × Json)) : Prop where
  run : Run (ServerStep interp) .initial events d.server
  /-- The message that ends the loop may be missing. -/
  received : receivedMessages events <+: toMessages (receivedJson history)
  goesOn : d.status.goesOn = true → receivedMessages events = toMessages (receivedJson history)
  out : d.out = responses.map Prod.snd
  /-- No message is answered twice, or before an earlier one. -/
  inOrder : (responses.map Prod.fst).Pairwise (· < ·)
  answers : ∀ n frame, (n, frame) ∈ responses ↔
    ∃ message, (receivedJson history)[n]? = some message ∧ Answers events n message frame

end TclAnalyzer
