import TclAnalyzer.Analyzer.NamespaceStrings
import TclAnalyzer.Analyzer.Typed

/-!
# The contract of the Tcl library

What `Tcl_ParseCommand` and `TclFindElement` promise about what they fill in, and what `Build` asks
of the names and argument lists of a script.
-/

namespace TclAnalyzer

/-! ## Tokens -/

/-- The bytes of a token stand between two offsets. -/
def Token.LiesIn (token : Token) (first last : Nat) : Prop :=
  first ≤ token.start ∧ token.start + token.size ≤ last

/-- The tokens of components of a word, between two offsets. Each component is followed by the tokens
that it counts as its own: for a variable its name and then the components of the index. -/
inductive Components (first last : Nat) : List Token → Prop
  | nil : Components first last []
  | text {token : Token} {rest : List Token} : token.type = .TEXT ∨ token.type = .BS →
    token.numComponents = 0 → token.LiesIn first last → Components first last rest →
    Components first last (token :: rest)
  | command {token : Token} {rest : List Token} : token.type = .COMMAND → token.numComponents = 0 →
    2 ≤ token.size → token.LiesIn first last → Components first last rest →
    Components first last (token :: rest)
  | var {token name : Token} {index rest : List Token} : token.type = .VARIABLE →
    token.numComponents = index.length + 1 → token.LiesIn first last → name.type = .TEXT →
    name.numComponents = 0 → name.LiesIn first last → Components first last index →
    Components first last rest → Components first last (token :: name :: (index ++ rest))

/-- The tokens of `n` words that stand one after the other between two offsets, each with its
components inside it. A simple word has one text. -/
inductive WordTokens (last : Nat) : (first n : Nat) → List Token → Prop
  | nil {first : Nat} : first ≤ last → WordTokens last first 0 []
  | simple {first n : Nat} {token text : Token} {rest : List Token} : token.type = .SIMPLE_WORD →
    token.numComponents = 1 → first ≤ token.start → text.type = .TEXT → text.numComponents = 0 →
    text.LiesIn token.start (token.start + token.size) →
    WordTokens last (token.start + token.size) n rest →
    WordTokens last first (n + 1) (token :: text :: rest)
  | compound {first n : Nat} {token : Token} {components rest : List Token} :
    token.type = .WORD ∨ token.type = .EXPAND_WORD → token.numComponents = components.length →
    first ≤ token.start → Components token.start (token.start + token.size) components →
    WordTokens last (token.start + token.size) n rest →
    WordTokens last first (n + 1) (token :: (components ++ rest))

/-! ## The functions of the Tcl library -/

/-- What `Tcl_ParseCommand` fills in for a script that is not empty: as many words as it counts, and
a command that ends inside the script and takes something of it. -/
structure ParsedCommand (script : StringView) (parse : TclParse) : Prop where
  words : WordTokens (script.data + script.bytes.length) script.data parse.numWords parse.tokens
  progress : script.data < parse.commandStart + parse.commandSize
  finish : parse.commandStart + parse.commandSize ≤ script.data + script.bytes.length

/-- What `TclFindElement` fills in: the next element starts inside the list, and further on when there
was an element. -/
structure FoundElement (list : StringView) (found : ListElement) : Prop where
  element : list.data ≤ found.element
  next : list.data ≤ found.next
  finish : found.next ≤ list.data + list.bytes.length
  progress : found.element < list.data + list.bytes.length → list.data < found.next

structure TclInterp.Contract (interp : TclInterp) : Prop where
  parseCommand : ∀ script parse, script.bytes ≠ [] → interp.parseCommand script = some parse →
    ParsedCommand script parse
  findElement : ∀ list found, interp.findElement list = some found → FoundElement list found

/-! ## What is left of the contract on any tokens -/

/-- The first token is that of a word, and the tokens of other words start behind a simple one. -/
inductive FirstWord : List Token → Prop
  | nil : FirstWord []
  | simple {token text : Token} {others : List Token} : token.type = .SIMPLE_WORD →
    text.type = .TEXT → (∀ other ∈ others, text.start + text.size ≤ other.start) →
    FirstWord (token :: text :: others)
  | compound {token : Token} {others : List Token} :
    token.type = .WORD ∨ token.type = .EXPAND_WORD → FirstWord (token :: others)

/-- `Tcl_ParseCommand` has taken something of the script, and what it found there lies in the script
and has its brackets. How the tokens are nested is left open. -/
structure ConsumedCommand (script : StringView) (parse : TclParse) : Prop where
  progress : script.data < parse.commandStart + parse.commandSize
  finish : parse.commandStart + parse.commandSize ≤ script.data + script.bytes.length
  tokens : ∀ token ∈ parse.tokens, token.LiesIn script.data (script.data + script.bytes.length)
  brackets : ∀ token ∈ parse.tokens, token.type = .COMMAND → 2 ≤ token.size
  first : FirstWord parse.tokens

structure TclInterp.Consumes (interp : TclInterp) : Prop where
  parseCommand : ∀ script parse, script.bytes ≠ [] → interp.parseCommand script = some parse →
    ConsumedCommand script parse
  findElement : ∀ list found, interp.findElement list = some found → FoundElement list found

/-! ## What `Build` asks of a script -/

/-- A run of three colons somewhere in the name. -/
def HasColonRun (name : Str) : Prop := [colon, colon, colon] <:+: name

instance (name : Str) : Decidable (HasColonRun name) := inferInstanceAs (Decidable (_ <:+: _))

/-- The names that `Build` passes to `SplitName`: of the procs that both passes reach, and of the
commands that `IndexScript` looks up. -/
def Script.splitNames (script : Script) : List Str :=
  (procSites (script.scanSites ++ script.indexSites)).map (fun site => site.call.wordText 1) ++
    (script.indexSites.filter fun site => site.call.type = .USER).map fun site => site.call.wordText 0

/-- Each element of the list of arguments that is a list as well has an element. -/
def Call.ElementsNonempty (call : Call) : Prop :=
  ∀ args vec, call.words[2]? = some args → args.type = .LIST → args.data = .words vec →
    ∀ arg ∈ vec, arg.data ≠ .words []

end TclAnalyzer
