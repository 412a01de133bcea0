import TclAnalyzer.Lsp.Json
import TclAnalyzer.Lsp.Server

/-!
# Parameters and responses

The conversions of the parameters of messages from JSON, and of what is sent to JSON.
-/

namespace TclAnalyzer

/-! ## From JSON -/

def Position.fromJson (j : Json) : Except Fault Position := do
  let line ← (← j.at (bytes "line")).getUnsigned
  let character ← (← j.at (bytes "character")).getUnsigned
  return { line, character }

def Range.fromJson (j : Json) : Except Fault Range := do
  let start ← Position.fromJson (← j.at (bytes "start"))
  let stop ← Position.fromJson (← j.at (bytes "end"))
  return { start, stop }

/-- `TextDocumentIdentifier`, which is a URI. -/
def textDocumentIdentifier (j : Json) : Except Fault Str := do
  (← j.at (bytes "uri")).getString

def TextDocumentItem.fromJson (j : Json) : Except Fault TextDocumentItem := do
  let uri ← (← j.at (bytes "uri")).getString
  let languageId ← (← j.at (bytes "languageId")).getString
  let version ← (← j.at (bytes "version")).getInteger
  let text ← (← j.at (bytes "text")).getString
  return { uri, languageId, version, text }

/-- `VersionedTextDocumentIdentifier`. -/
def versionedTextDocumentIdentifier (j : Json) : Except Fault (Str × Int) := do
  let uri ← (← j.at (bytes "uri")).getString
  let version ← (← j.at (bytes "version")).getInteger
  return (uri, version)

/-- The range is optional. -/
def TextDocumentContentChangeEvent.fromJson (j : Json) :
    Except Fault TextDocumentContentChangeEvent := do
  let range ← match j.find (bytes "range") with
    | some v => some <$> Range.fromJson v
    | none => pure none
  let text ← (← j.at (bytes "text")).getString
  return { range, text }

/-- `DidOpenTextDocumentParams`. -/
def didOpenParams (j : Json) : Except Fault TextDocumentItem := do
  TextDocumentItem.fromJson (← j.at (bytes "textDocument"))

/-- `DidChnageTextDocumentParams`. -/
def didChangeParams (j : Json) :
    Except Fault (Str × Int × List TextDocumentContentChangeEvent) := do
  let (uri, version) ← versionedTextDocumentIdentifier (← j.at (bytes "textDocument"))
  let contentChanges ← (← j.at (bytes "contentChanges")).getArray
    TextDocumentContentChangeEvent.fromJson
  return (uri, version, contentChanges)

/-- `DidCloseTextDocumentParams`. -/
def didCloseParams (j : Json) : Except Fault Str := do
  textDocumentIdentifier (← j.at (bytes "textDocument"))

/-- `TextDocumentPositionParams`. -/
def textDocumentPositionParams (j : Json) : Except Fault (Str × Position) := do
  let uri ← textDocumentIdentifier (← j.at (bytes "textDocument"))
  let position ← Position.fromJson (← j.at (bytes "position"))
  return (uri, position)

/-- `ReferencesParams`. The context has to be there and is not used. -/
def referencesParams (j : Json) : Except Fault (Str × Position) := do
  let params ← textDocumentPositionParams j
  let context ← j.at (bytes "context")
  let _ ← (← context.at (bytes "includeDeclaration")).getBoolean
  return params

/-- The parameters of the two requests for a position. -/
def RequestMethod.params : RequestMethod → Json → Except Fault (Str × Position)
  | .references => referencesParams
  | .definition => textDocumentPositionParams

/-- `auto_path` of `WorkspaceOptions`. -/
def workspaceOptions (j : Json) : Except Fault (List Str) :=
  match j.find (bytes "auto_path") with
  | some v => v.getArray Json.getString
  | none => .ok []

/-! ## To JSON -/

def Position.toJson (position : Position) : Json :=
  .object [(bytes "line", .unsigned position.line), (bytes "character", .unsigned position.character)]

def Range.toJson (range : Range) : Json :=
  .object [(bytes "start", range.start.toJson), (bytes "end", range.stop.toJson)]

def Location.toJson (location : Location) : Json :=
  .object [(bytes "uri", .string location.uri), (bytes "range", location.range.toJson)]

/-- A `ResponseError` without data, or the locations. -/
def Reply.toJson : Reply → Json
  | .reject code message =>
    .object [(bytes "code", .integer code), (bytes "message", .string message),
      (bytes "data", .null)]
  | .reply response => .array (response.map Location.toJson)

/-- What `send_reply` and `send_reject` hand to `send_message`: both put the result under the same
key. -/
def responseMessage (replyTo result : Json) : Json :=
  .object [(bytes "jsonrpc", .string (bytes "2.0")), (bytes "id", replyTo), (bytes "result", result)]

/-- `TextDocumentSyncKind::Full` is 1. -/
def capabilities : Json :=
  .object [(bytes "referencesProvider", .boolean true),
    (bytes "textDocumentSync",
      .object [(bytes "openClose", .boolean true), (bytes "change", .integer 1)]),
    (bytes "definitionProvider", .boolean true)]

end TclAnalyzer
