import TclAnalyzer.Analyzer.Contract

/-!
# From tokens to words

Which words the parser makes of the tokens of a command, as relations. `ParseWord` takes the tokens of
one word, and `ParseCommand` then takes the word as it is, as a list of arguments or as a body.
-/

namespace TclAnalyzer

/-- The tokens of a command word by word, each with its components behind it. -/
def wordGroups : List Token → List (List Token)
  | [] => []
  | token :: rest => (token :: rest.take token.numComponents) ::
      wordGroups (rest.drop token.numComponents)
termination_by tokens => tokens.length
decreasing_by
  simp only [List.length_drop, List.length_cons]
  omega

/-! ## `ParseWord` -/

/-- The word has the place and the text of the token. -/
structure Word.IsAt (context : ParseContext) (token : Token) (word : Word) : Prop where
  location : makeSourceLocation context.file token.start = .ok word.location
  text : word.text = context.file.view token.start token.size

section Words

variable (nested : ScriptParser) (context : ParseContext)

/-- The words of components, with the scripts that `nested` makes of the text between brackets. -/
inductive ComponentWords : List Token → List Word → Prop
  | nil : ComponentWords [] []
  | text {token : Token} {tokens : List Token} {word : Word} {words : List Word} :
    token.type = .TEXT ∨ token.type = .BS → word.IsAt context token → word.IsText →
    ComponentWords tokens words → ComponentWords (token :: tokens) (word :: words)
  | command {token : Token} {tokens : List Token} {word : Word} {words : List Word}
    {script : Script} : token.type = .COMMAND → word.IsAt context token → word.type = .SCRIPT →
    nested context (context.file.view (token.start + 1) (token.size - 2)) = .ok script →
    word.data = .script script → ComponentWords tokens words →
    ComponentWords (token :: tokens) (word :: words)
  | scalar {token name : Token} {tokens : List Token} {word : Word} {words : List Word} :
    token.type = .VARIABLE → token.numComponents = 1 → name.type = .TEXT → word.IsAt context name →
    word.type = .VARIABLE → word.data = .nothing → ComponentWords tokens words →
    ComponentWords (token :: name :: tokens) (word :: words)
  | array {token name : Token} {indexTokens tokens : List Token} {word : Word} {arrayName : Str}
    {index words : List Word} : token.type = .VARIABLE →
    token.numComponents = indexTokens.length + 1 → name.type = .TEXT → word.IsAt context token →
    word.type = .ARRAY_ACCESS → word.data = .arrayAccess arrayName index →
    ComponentWords indexTokens index → ComponentWords tokens words →
    ComponentWords (token :: name :: (indexTokens ++ tokens)) (word :: words)

/-- The word of a group of tokens. -/
inductive GroupWord : List Token → Word → Prop
  | simple {token text : Token} {word : Word} : token.type = .SIMPLE_WORD → text.type = .TEXT →
    word.IsAt context text → word.IsText → GroupWord [token, text] word
  | compound {token : Token} {components : List Token} {word : Word} {vec : List Word} :
    token.type = .WORD ∧ word.type = .TOKEN_LIST ∨ token.type = .EXPAND_WORD ∧ word.type = .EXPAND →
    word.IsAt context token → word.data = .words vec →
    ComponentWords nested context components vec →
    GroupWord (token :: components) word

end Words

/-- One step of `ParseWord` at token `i`, with the steps that it leaves to `fuel`. -/
inductive WordCase (nested : ScriptParser) (context : ParseContext) (tokens : List Token)
    (fuel i : Nat) : Word → (j : Nat) → Prop
  | simple {token : Token} {word : Word} {j : Nat} : tokens[i]? = some token →
    token.type = .SIMPLE_WORD → token.numComponents = 1 →
    parseWord nested context tokens fuel (i + 1) = .ok (word, j) →
    WordCase nested context tokens fuel i word j
  | compound {token : Token} {word : Word} {vec : List Word} {j : Nat} : tokens[i]? = some token →
    token.type = .WORD ∧ word.type = .TOKEN_LIST ∨ token.type = .EXPAND_WORD ∧ word.type = .EXPAND →
    word.IsAt context token → word.data = .words vec →
    parseWords nested context tokens fuel (i + 1 + token.numComponents) (i + 1) = .ok (vec, j) →
    WordCase nested context tokens fuel i word j
  | text {token : Token} {word : Word} : tokens[i]? = some token →
    token.type = .TEXT ∨ token.type = .BS → word.IsAt context token → word.IsText →
    WordCase nested context tokens fuel i word (i + 1)
  | command {token : Token} {word : Word} {script : Script} : tokens[i]? = some token →
    token.type = .COMMAND → 2 ≤ token.size → word.IsAt context token → word.type = .SCRIPT →
    nested context (context.file.view (token.start + 1) (token.size - 2)) = .ok script →
    word.data = .script script → WordCase nested context tokens fuel i word (i + 1)
  | scalar {token : Token} {word : Word} {j : Nat} : tokens[i]? = some token →
    token.type = .VARIABLE → token.numComponents = 1 →
    parseWord nested context tokens fuel (i + 1) = .ok (word, j) →
    WordCase nested context tokens fuel i { word with type := .VARIABLE } j
  | array {token : Token} {name word : Word} {index : List Word} {next j : Nat} :
    tokens[i]? = some token → token.type = .VARIABLE → token.numComponents ≠ 1 →
    parseWord nested context tokens fuel (i + 1) = .ok (name, next) → name.type = .TEXT →
    parseWords nested context tokens fuel (i + 1 + token.numComponents) next = .ok (index, j) →
    word.IsAt context token → word.type = .ARRAY_ACCESS →
    word.data = .arrayAccess name.text.bytes index →
    WordCase nested context tokens fuel i word j

/-! ## `WordToList` -/

/-- `TclFindElement`, called again and again, finds this many elements. -/
inductive FindsElements (interp : TclInterp) (file : SourceFile) (last : Nat) :
    (list length count : Nat) → Prop
  | finish {list length : Nat} {found : ListElement} :
    interp.findElement (file.view list length) = some found → last ≤ found.element →
    FindsElements interp file last list length 0
  | element {list length count : Nat} {found : ListElement} :
    interp.findElement (file.view list length) = some found → found.element < last →
    FindsElements interp file last found.next (length - (found.next - list)) count →
    FindsElements interp file last list length (count + 1)

/-- The text is a list that does not have exactly one element. -/
def SplitsToList (interp : TclInterp) (file : SourceFile) (text : StringView) : Prop :=
  ∃ count, FindsElements interp file (text.data + text.bytes.length) text.data text.bytes.length
    count ∧ count ≠ 1

/-! ## `ParseCommand` -/

/-- `parseWord`, `parseArgs` and `parseBody`. -/
inductive Taking where
  | word | args | body
  deriving DecidableEq

/-- How a call of this type takes its `k`-th word. -/
def CallType.taking : CallType → (k : Nat) → Taking
  | .PROC, 2 => .args
  | .PROC, 3 => .body
  | .WHILE, 2 => .body
  | .FOR, 1 | .FOR, 3 | .FOR, 4 => .body
  | .FOREACH, 3 => .body
  | .NAMESPACE_EVAL, 3 => .body
  | _, _ => .word

/-- The word that is taken at this token, with the index of the token after it. -/
def Taking.take (interp : TclInterp) (nested : ScriptParser) (context : ParseContext)
    (parse : TclParse) : Taking → Nat → Except Fault (Word × Nat)
  | .word => ParseCommand.parseWord nested context parse
  | .args => ParseCommand.parseArgs interp nested context parse
  | .body => ParseCommand.parseBody nested context parse

/-- The call takes these words one after the other, from the `k`-th on and from token `i` to `j`. -/
inductive Takings (interp : TclInterp) (nested : ScriptParser) (context : ParseContext)
    (parse : TclParse) (call : Call) : (k i : Nat) → List Word → (j : Nat) → Prop
  | nil {k i : Nat} : Takings interp nested context parse call k i [] i
  | cons {k i next j : Nat} {word : Word} {words : List Word} :
    (call.type.taking k).take interp nested
      { context with curNs := bodyNs context.curNs call k } parse i = .ok (word, next) →
    Takings interp nested context parse call (k + 1) next words j →
    Takings interp nested context parse call k i (word :: words) j

/-- The word that a call gets for a group of tokens. -/
inductive TakenWord (interp : TclInterp) (nested : ScriptParser) (context : ParseContext) :
    Taking → List Token → Word → Prop
  | word {group : List Token} {word : Word} : GroupWord nested context group word →
    TakenWord interp nested context .word group word
  | plain {group : List Token} {word : Word} : GroupWord nested context group word →
    ¬ SplitsToList interp context.file word.text → TakenWord interp nested context .args group word
  | list {group : List Token} {plain word : Word} {vec : List Word} :
    GroupWord nested context group plain → SplitsToList interp context.file plain.text →
    (∀ inner ∈ vec, inner.IsElement) → word = { plain with type := .LIST, data := .words vec } →
    TakenWord interp nested context .args group word
  | script {group : List Token} {plain word : Word} {script : Script} :
    GroupWord nested context group plain → plain.type = .TEXT →
    nested context plain.text = .ok script →
    word = { plain with type := .SCRIPT, data := .script script } →
    TakenWord interp nested context .body group word
  | unparsed {group : List Token} {word : Word} : GroupWord nested context group word →
    word.type ≠ .TEXT → TakenWord interp nested context .body group word

/-- The words from the `k`-th on are made of these groups, one of each. -/
inductive TakenWords (interp : TclInterp) (nested : ScriptParser) (context : ParseContext)
    (call : Call) : (k : Nat) → List (List Token) → List Word → Prop
  | nil {k : Nat} : TakenWords interp nested context call k [] []
  | cons {k : Nat} {group : List Token} {groups : List (List Token)} {word : Word}
    {words : List Word} :
    TakenWord interp nested { context with curNs := bodyNs context.curNs call k }
      (call.type.taking k) group word →
    TakenWords interp nested context call (k + 1) groups words →
    TakenWords interp nested context call k (group :: groups) (word :: words)

/-- What stands behind the first command of a text. -/
def restOf (file : SourceFile) (text : StringView) (parse : TclParse) : StringView :=
  file.view (parse.commandStart + parse.commandSize)
    (text.data + text.bytes.length - (parse.commandStart + parse.commandSize))

/-- The loop of `ParseScript` over the text comes to this one. -/
inductive Remaining (interp : TclInterp) (file : SourceFile) : (text rest : StringView) → Prop
  | refl {text : StringView} : Remaining interp file text text
  | step {text rest : StringView} {parse : TclParse} : text.bytes ≠ [] →
    interp.parseCommand text = some parse → Remaining interp file (restOf file text parse) rest →
    Remaining interp file text rest

/-- The calls of the commands that `Tcl_ParseCommand` finds in a text, one after the other. -/
inductive ScriptCalls (interp : TclInterp) (nested : ScriptParser) (context : ParseContext) :
    StringView → List Call → Prop
  | finish {script : StringView} : script.bytes = [] ∨ interp.parseCommand script = none →
    ScriptCalls interp nested context script []
  | empty {script : StringView} {parse : TclParse} {calls : List Call} : script.bytes ≠ [] →
    interp.parseCommand script = some parse → parse.numWords < 1 →
    ScriptCalls interp nested context (context.file.view (parse.commandStart + parse.commandSize)
      (script.data + script.bytes.length - (parse.commandStart + parse.commandSize))) calls →
    ScriptCalls interp nested context script calls
  | command {script : StringView} {parse : TclParse} {call : Call} {calls : List Call} :
    script.bytes ≠ [] → interp.parseCommand script = some parse → call.ns = context.curNs →
    TakenWords interp nested context call 0 (wordGroups parse.tokens) call.words →
    ScriptCalls interp nested context (context.file.view (parse.commandStart + parse.commandSize)
      (script.data + script.bytes.length - (parse.commandStart + parse.commandSize))) calls →
    ScriptCalls interp nested context script (call :: calls)

end TclAnalyzer
