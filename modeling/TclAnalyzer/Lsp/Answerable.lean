import TclAnalyzer.Analyzer.Contract
import TclAnalyzer.Lsp.Dispatch

/-!
# Messages that are handled

The shapes of the parameters that convert, and the names that a lookup can split.
-/

namespace TclAnalyzer

/-! ## Shapes -/

namespace Json

/-- There is such a member, and it has the property. -/
def Has (j : Json) (key : String) (P : Json → Prop) : Prop :=
  ∃ v, j.find (bytes key) = some v ∧ P v

/-- Such a member has the property if it is there. -/
def Allows (j : Json) (key : String) (P : Json → Prop) : Prop :=
  ∀ v, j.find (bytes key) = some v → P v

def IsString (j : Json) : Prop := ∃ s, j = .string s

def IsBoolean (j : Json) : Prop := ∃ b, j = .boolean b

def IsObject (j : Json) : Prop := ∃ members, j = .object members

def IsStrings (j : Json) : Prop := ∃ elements, j = .array elements ∧ ∀ e ∈ elements, e.IsString

end Json

/-- The parameters of `initialize`: without them, or an object with a list of strings as `auto_path`
of its options and a string as its root, where it has them. -/
def InitializeShape (message : Json) : Prop :=
  message.Allows "params" fun params => params.IsObject ∧
    (params.Allows "initializationOptions" fun options => options.Allows "auto_path" Json.IsStrings) ∧
    params.Allows "rootUri" Json.IsString

/-- The parameters name this place in this document. -/
structure Locates (params : Json) (uri : Str) (position : Position) : Prop where
  uri : params.Has "textDocument" fun d => d.find (bytes "uri") = some (.string uri)
  position : params.Has "position" fun p =>
    (p.Has "line" fun v => v.getUnsigned = .ok position.line) ∧
      p.Has "character" fun v => v.getUnsigned = .ok position.character

/-- What `textDocument/references` asks for besides a place. -/
def RequestMethod.Context : RequestMethod → Json → Prop
  | .references, params => params.Has "context" fun c => c.Has "includeDeclaration" Json.IsBoolean
  | .definition, _ => True

/-- The lookup of a command word can split the namespace of the call and, where there is such a
namespace, what it reads for the word. In the place of three bytes that are gone there can be three
colons. -/
structure LooksUp (index : Index) (tree : Tree) (call : Call) (word : Word) : Prop where
  absolute : (splitName call.ns).absolute = true
  ns : HasParts call.ns
  word : ∀ ns, findNamespace index call.ns = .ok (some ns) →
    if tree.HasContents then HasParts word.text.bytes else word.text.bytes.length < 3

/-- If the cursor is on a command word, that can be looked up. -/
def ScriptCursor.LooksUp (cursor : ScriptCursor) (index : Index) (tree : Tree) : Prop :=
  ∀ call word, cursor.call = some call → cursor.word = some word → word.type = .TEXT →
    cursor.argument = 0 → TclAnalyzer.LooksUp index tree call word

/-! ## Requests -/

/-- The parameters of a request for a position convert, their document is known, and what is at the
position can be looked up in the tree it was found in, which is still there then. -/
def RequestMethod.Answerable (method : RequestMethod) (server later : Server) (message : Json) : Prop :=
  message.Has "params" fun params => method.Context params ∧ ∃ uri position document,
    Locates params uri position ∧ server.documents uri = some document ∧
    ∀ cursor, findPositionInScript { line := position.line, column := position.character }
      document.script = .ok cursor →
        (cursor.Points → later.treeNumber uri = some document.trees) ∧
        cursor.LooksUp later.index document.tree

/-- The methods that are answered. -/
def requestMethods : List Str :=
  ["initialize", "shutdown", "textDocument/references", "textDocument/definition"].map bytes

/-- A request that is answered, by its method. -/
def Answerable (server later : Server) (method : Str) (message : Json) : Prop :=
  if method = bytes "initialize" then InitializeShape message
  else if method = bytes "textDocument/references" then
    RequestMethod.references.Answerable server later message
  else if method = bytes "textDocument/definition" then
    RequestMethod.definition.Answerable server later message
  else True

/-! ## Numbers -/

namespace Json

/-- No float outside of the range of `int64_t`. -/
def FitsInteger (j : Json) : Prop := ∀ x, j = .float x → -2 ^ 63 ≤ truncate x ∧ truncate x < 2 ^ 63

/-- The version of the document fits. -/
def VersionFits (message : Json) : Prop :=
  message.Allows "params" fun params =>
    params.Allows "textDocument" fun d => d.Allows "version" FitsInteger

end Json

/-! ## The loop -/

/-- If the cursor is on a command word, the namespace of its call is absolute, as `FindNamespace`
asserts. -/
def ScriptCursor.Absolute (cursor : ScriptCursor) : Prop :=
  ∀ call word, cursor.call = some call → cursor.word = some word → word.type = .TEXT →
    cursor.argument = 0 → (splitName call.ns).absolute = true

end TclAnalyzer
