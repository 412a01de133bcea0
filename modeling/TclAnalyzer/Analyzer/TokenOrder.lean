import TclAnalyzer.Analyzer.Spans
import TclAnalyzer.Analyzer.Words

/-!
# Tokens in source order

What `Tcl_ParseCommand` promises about the order of its tokens: the words of a command stand one after
the other, and so do the components of a word. A text without bytes stands between delimiters.
-/

namespace TclAnalyzer

/-- The end of a token in which its first byte counts, also when there is none. -/
def Token.stop (token : Token) : Nat := max (token.start + token.size) (token.start + 1)

/-- The components stand one after the other between two offsets. A variable has its name inside. -/
inductive ComponentsInOrder (last : Nat) : (first : Nat) → List Token → Prop
  | nil {first : Nat} : first ≤ last → ComponentsInOrder last first []
  | single {first : Nat} {token : Token} {rest : List Token} : token.type ≠ .VARIABLE →
    0 < token.size → first ≤ token.start →
    ComponentsInOrder last (token.start + token.size) rest →
    ComponentsInOrder last first (token :: rest)
  | var {first : Nat} {token name : Token} {index rest : List Token} : token.type = .VARIABLE →
    token.numComponents = index.length + 1 → first ≤ token.start → token.start ≤ name.start →
    name.stop ≤ token.start + token.size →
    ComponentsInOrder last (token.start + token.size) rest →
    ComponentsInOrder last first (token :: name :: (index ++ rest))

/-- The words with these tokens stand one after the other between two offsets, each with its components
in it. -/
inductive GroupsInOrder (last : Nat) : (first : Nat) → List (List Token) → Prop
  | nil {first : Nat} : first ≤ last → GroupsInOrder last first []
  | simple {first : Nat} {token text : Token} {groups : List (List Token)} :
    token.type = .SIMPLE_WORD → first ≤ token.start → token.start ≤ text.start →
    text.stop ≤ token.start + token.size → GroupsInOrder last (token.start + token.size) groups →
    GroupsInOrder last first ([token, text] :: groups)
  | compound {first : Nat} {token : Token} {components : List Token} {groups : List (List Token)} :
    token.type ≠ .SIMPLE_WORD → 0 < token.size → first ≤ token.start →
    ComponentsInOrder (token.start + token.size) token.start components →
    GroupsInOrder last (token.start + token.size) groups →
    GroupsInOrder last first ((token :: components) :: groups)

/-- The words of each command end with the command. -/
def TclInterp.InOrder (interp : TclInterp) : Prop :=
  ∀ script parse, script.bytes ≠ [] → interp.parseCommand script = some parse →
    GroupsInOrder (parse.commandStart + parse.commandSize) script.data (wordGroups parse.tokens)

/-! ## Nested tokens -/

/-- The components stand one after the other between two offsets. A variable has its name inside, and
the components of its index behind that. -/
inductive ComponentsNested : (last first : Nat) → List Token → Prop
  | nil {last first : Nat} : first ≤ last → ComponentsNested last first []
  | single {last first : Nat} {token : Token} {rest : List Token} : token.type ≠ .VARIABLE →
    (token.type = .COMMAND → 2 ≤ token.size) → first ≤ token.start →
    ComponentsNested last (token.start + token.size) rest →
    ComponentsNested last first (token :: rest)
  | var {last first : Nat} {token name : Token} {index rest : List Token} : token.type = .VARIABLE →
    token.numComponents = index.length + 1 → first ≤ token.start → token.start ≤ name.start →
    ComponentsNested (token.start + token.size) (name.start + name.size) index →
    ComponentsNested last (token.start + token.size) rest →
    ComponentsNested last first (token :: name :: (index ++ rest))

/-- The words with these tokens stand one after the other between two offsets, with their components
nested in them. -/
inductive GroupsNested (last : Nat) : (first : Nat) → List (List Token) → Prop
  | nil {first : Nat} : first ≤ last → GroupsNested last first []
  | simple {first : Nat} {token text : Token} {groups : List (List Token)} :
    token.type = .SIMPLE_WORD → first ≤ token.start → token.start ≤ text.start →
    text.start + text.size ≤ token.start + token.size →
    GroupsNested last (token.start + token.size) groups →
    GroupsNested last first ([token, text] :: groups)
  | compound {first : Nat} {token : Token} {components : List Token} {groups : List (List Token)} :
    token.type ≠ .SIMPLE_WORD → first ≤ token.start →
    ComponentsNested (token.start + token.size) token.start components →
    GroupsNested last (token.start + token.size) groups →
    GroupsNested last first ((token :: components) :: groups)

/-- The tokens of each command are nested and in source order, and end with the command. An element of
a list ends before the next one. -/
structure TclInterp.TokensNested (interp : TclInterp) : Prop where
  parseCommand : ∀ script parse, script.bytes ≠ [] → interp.parseCommand script = some parse →
    GroupsNested (parse.commandStart + parse.commandSize) script.data (wordGroups parse.tokens)
  findElement : ∀ list found, interp.findElement list = some found →
    found.element + found.size ≤ found.next

/-! ## Words -/

/-- The words stand one after the other between two offsets, each in source order itself. -/
structure WordsWithin (file : SourceFile) (first last : Nat) (words : List Word) : Prop where
  word : ∀ word ∈ words, word.Ordered Word.stop file ∧ first ≤ word.text.data ∧ word.stop ≤ last
  order : InSequence Word.stop words

end TclAnalyzer
