import TclAnalyzer.Analyzer.Words

/-!
# What parsing keeps of a command

The scripts of a command are its bodies and its command substitutions. Which of them are in the call
that `ParseCommand` appends, and of which tokens they are not.
-/

namespace TclAnalyzer

/-! ## Bodies -/

/-- The text that the components of a word make up. -/
def bodyText (file : SourceFile) (group : List Token) : StringView :=
  match group.tail.head?, group.tail.getLast? with
  | some first, some last => file.view first.start (last.start + last.size - first.start)
  | _, _ => file.view 0 0

/-- The components of the word are text and backslash sequences only. -/
def IsLiteral (group : List Token) : Prop :=
  ∀ token ∈ group.tail, token.type = .TEXT ∨ token.type = .BS

/-- The `k`-th word is the script that `ParseScript` makes of the whole body, in the namespace of the
body. -/
def Call.HoldsBody (interp : TclInterp) (context : ParseContext) (call : Call) (k : Nat)
    (group : List Token) : Prop :=
  ∃ word script, call.words[k]? = some word ∧ word.type = .SCRIPT ∧ word.data = .script script ∧
    parseScript interp { context with curNs := bodyNs context.curNs call k }
      (bodyText context.file group) = .ok script

/-! ## Command substitutions -/

/-- The tokens of command substitutions. -/
def commandTokens (group : List Token) : List Token := group.filter fun token => token.type = .COMMAND

mutual

/-- The words with a script of their own, in these words and in their components. -/
def scriptWords : List Word → List Word
  | [] => []
  | word :: words => scriptWordsOf word ++ scriptWords words

def scriptWordsOf : Word → List Word
  | ⟨type, location, text, data⟩ => scriptWordsIn ⟨type, location, text, data⟩ data

/-- The same for a word with these data. -/
def scriptWordsIn (word : Word) : WordData → List Word
  | .nothing => []
  | .script _ => [word]
  | .arrayAccess _ index => scriptWords index
  | .words vec => scriptWords vec

end

/-- The words with a script inside a word of a command. The script of a body is the word itself. -/
def Word.substitutions (word : Word) : List Word := scriptWords word.data.components

/-- The word is the script that `ParseScript` makes of the text between the brackets. -/
structure IsSubstitution (nested : ScriptParser) (context : ParseContext) (token : Token)
    (word : Word) : Prop where
  type : word.type = .SCRIPT
  place : word.IsAt context token
  script : ∃ script, word.data = .script script ∧
    nested context (context.file.view (token.start + 1) (token.size - 2)) = .ok script

/-- There is a word for each group of tokens, and in it one script for each command substitution, in
the order of the tokens and in the namespace of the word. -/
def Call.HoldsSubstitutions (interp : TclInterp) (context : ParseContext) (call : Call)
    (groups : List (List Token)) : Prop :=
  call.words.length = groups.length ∧ ∀ k group word, groups[k]? = some group →
    call.words[k]? = some word →
      List.Forall₂ (IsSubstitution (parseScript interp)
        { context with curNs := bodyNs context.curNs call k }) (commandTokens group) word.substitutions

/-- The word is this text, with nothing to substitute. -/
def IsSimpleWord (file : SourceFile) (text : Str) (group : List Token) : Prop :=
  ∃ token inner, group = [token, inner] ∧ token.type = .SIMPLE_WORD ∧
    (file.view inner.start inner.size).bytes = text

/-- A `proc` command with a command substitution in the word of its arguments, when the text of that
word is a list that does not have exactly one element. -/
def LosesSubstitution (interp : TclInterp) (context : ParseContext) (parse : TclParse) : Prop :=
  ∃ cmd name args body, wordGroups parse.tokens = [cmd, name, args, body] ∧
    IsSimpleWord context.file (bytes "proc") cmd ∧ commandTokens args ≠ [] ∧
    ∃ token, args.head? = some token ∧
      SplitsToList interp context.file (context.file.view token.start token.size)

end TclAnalyzer
