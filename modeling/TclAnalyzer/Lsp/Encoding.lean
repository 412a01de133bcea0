import TclAnalyzer.Lsp.Wire

/-!
# Messages as a client writes them

The conversions to JSON that belong to the ones of the parameters, and the messages made of them.
-/

namespace TclAnalyzer

/-- An `int64_t` as the parser returns it: without a sign where there is none. -/
def Json.number (i : Int) : Json := if 0 ≤ i then .unsigned i.toNat else .integer i

/-! ## Parameters -/

/-- `TextDocumentIdentifier`. -/
def textDocumentIdentifierToJson (uri : Str) : Json := .object [(bytes "uri", .string uri)]

def TextDocumentItem.toJson (item : TextDocumentItem) : Json :=
  .object [(bytes "uri", .string item.uri), (bytes "languageId", .string item.languageId),
    (bytes "version", .number item.version), (bytes "text", .string item.text)]

/-- `VersionedTextDocumentIdentifier`. -/
def versionedTextDocumentIdentifierToJson (uri : Str) (version : Int) : Json :=
  .object [(bytes "uri", .string uri), (bytes "version", .number version)]

/-- The server has no conversion of its own for these. -/
def TextDocumentContentChangeEvent.toJson (change : TextDocumentContentChangeEvent) : Json :=
  match change.range with
  | some range => .object [(bytes "range", range.toJson), (bytes "text", .string change.text)]
  | none => .object [(bytes "text", .string change.text)]

/-- `TextDocumentPositionParams`, and for `textDocument/references` the context. -/
def Request.paramsToJson (request : Request) (includeDeclaration : Bool) : Json :=
  let place := [(bytes "textDocument", textDocumentIdentifierToJson request.uri),
    (bytes "position", request.position.toJson)]
  match request.method with
  | .references =>
    .object (place ++
      [(bytes "context", .object [(bytes "includeDeclaration", .boolean includeDeclaration)])])
  | .definition => .object place

/-! ## Messages -/

def notificationToJson (method : String) (params : Json) : Json :=
  .object [(bytes "jsonrpc", .string (bytes "2.0")), (bytes "method", .string (bytes method)),
    (bytes "params", params)]

/-- Only a request for references says whether to include the declaration. -/
def Message.toJson (includeDeclaration : Bool) : Message → Json
  | .didOpen item =>
    notificationToJson "textDocument/didOpen" (.object [(bytes "textDocument", item.toJson)])
  | .didChange uri version contentChanges =>
    notificationToJson "textDocument/didChange" (.object
      [(bytes "textDocument", versionedTextDocumentIdentifierToJson uri version),
        (bytes "contentChanges", .array (contentChanges.map TextDocumentContentChangeEvent.toJson))])
  | .didClose uri =>
    notificationToJson "textDocument/didClose"
      (.object [(bytes "textDocument", textDocumentIdentifierToJson uri)])
  | .request r =>
    .object [(bytes "jsonrpc", .string (bytes "2.0")), (bytes "id", .unsigned r.id),
      (bytes "method", .string r.method.name), (bytes "params", r.paramsToJson includeDeclaration)]
  | .exit => .object [(bytes "jsonrpc", .string (bytes "2.0")), (bytes "method", .string (bytes "exit"))]

/-- The JSON value is what a client makes of the message. -/
def Message.Encodes (m : Message) (j : Json) : Prop :=
  ∃ includeDeclaration, j = m.toJson includeDeclaration

/-- A request by its place among the messages, and not by the id that the client gave it. -/
def Message.renumber (n : Nat) : Message → Message
  | .request r => .request { r with id := n }
  | m => m

/-! ## Ranges of numbers -/

def Position.Fits (position : Position) : Prop :=
  position.line < 2 ^ 64 ∧ position.character < 2 ^ 64

def Range.Fits (range : Range) : Prop := range.start.Fits ∧ range.stop.Fits

/-- The range of an `int64_t`. -/
def VersionFits (version : Int) : Prop := -2 ^ 63 ≤ version ∧ version < 2 ^ 63

/-- The numbers in a message are in the ranges of their types. -/
def Message.Fits : Message → Prop
  | .didOpen item => VersionFits item.version
  | .didChange _ version contentChanges =>
    VersionFits version ∧ ∀ change ∈ contentChanges, ∀ range ∈ change.range, range.Fits
  | .request r => r.position.Fits
  | .didClose _ | .exit => True

end TclAnalyzer
