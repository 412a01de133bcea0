import TclAnalyzer.Data.Runs
import TclAnalyzer.Data.TextPosition
import TclAnalyzer.Lsp.Dispatch

/-!
# Clients

What a conforming client has open and what it may send, and what it means by a position. A session is
such a client with the server.
-/

namespace TclAnalyzer

structure ClientDocument where
  text : Str
  version : Int
  deriving DecidableEq, Repr

/-- The documents that the client has open. -/
abbrev Client := Str → Option ClientDocument

/-- A client opens documents that it does not have open, changes and closes those it has, and sends
each change as the full text with a new version. -/
inductive ClientStep : Client → Message → Client → Prop
  | didOpen (client : Client) (item : TextDocumentItem) : client item.uri = none →
    ClientStep client (.didOpen item)
      (Function.update client item.uri (some { text := item.text, version := item.version }))
  | didChange (client : Client) (uri : Str) (document : ClientDocument) (version : Int) (text : Str) :
    client uri = some document → document.version < version →
    ClientStep client (.didChange uri version [{ range := none, text }])
      (Function.update client uri (some { text, version }))
  | didClose (client : Client) (uri : Str) (document : ClientDocument) :
    client uri = some document →
    ClientStep client (.didClose uri) (Function.update client uri none)
  | request (client : Client) (request : Request) : ClientStep client (.request request) client

structure Session where
  client : Client
  server : Server

def Session.initial : Session := { client := fun _ => none, server := .initial }

/-- The client sends a message and the server receives it, or the server does something else. -/
inductive SessionStep (interp : TclInterp) : Session → ServerEvent → Session → Prop
  | receive (client client' : Client) (server server' : Server) (message : Message) :
    ClientStep client message client' → ServerStep interp server (.receive message) server' →
    SessionStep interp ⟨client, server⟩ (.receive message) ⟨client', server'⟩
  | other (client : Client) (server server' : Server) (event : ServerEvent) :
    (∀ message, event ≠ .receive message) → ServerStep interp server event server' →
    SessionStep interp ⟨client, server⟩ event ⟨client, server'⟩

/-- The server has text and version of each document that the client has open, and exactly those are
open. -/
structure Session.InStep (s : Session) : Prop where
  item : ∀ uri document, s.client uri = some document → ∃ entry, s.server.documents uri = some entry ∧
    entry.item.text = document.text ∧ entry.item.version = document.version
  state : ∀ uri entry, s.server.documents uri = some entry →
    (entry.state = .OPEN ↔ (s.client uri).isSome)

/-- The documents that are opened, in order. -/
def openedUris (events : List ServerEvent) : List Str :=
  events.filterMap fun
    | .receive (.didOpen item) => some item.uri
    | _ => none

/-! ## Positions

What a position means by the protocol in version 3.16, and what the server makes of it. The client
counts in UTF-16 code units and ends lines in three ways, the server counts in bytes and ends a line
with `\n`. -/

/-- A text in UTF-8. -/
def utf8 (text : List Char) : Str := text.flatMap String.utf8EncodeChar

/-- The position of the place between the two parts of a text. -/
def Position.IsAt (position : Position) (before after : List Char) : Prop :=
  TextPosition.IsAt position.line position.character before after

/-- The position stands for the place between the two parts of a text. -/
def Position.Denotes (position : Position) (before after : List Char) : Prop :=
  TextPosition.Denotes position.line position.character before after

/-- Client and server mean the same place by a position of this word, which stands between the two
parts of the text: the one that is sent for it in a reply denotes that place and no other, and a
request at that place is looked up at its byte. -/
structure Word.PositionsAgree (file : SourceFile) (before after : List Char) (word : Word) : Prop where
  sent : ∀ r : Reference, r.location = word.location → ∀ before' after',
    before' ++ after' = before ++ after →
      (r.toLocation.range.start.Denotes before' after' ↔ before' = before)
  request : ∀ position : Position, position.IsAt before after → ∀ server uri document,
    server.documents uri = some document →
      getCursor server uri position = do
        let pos ← offsetToLineByte file word.location.offset
        findPositionInScript pos document.script

end TclAnalyzer
