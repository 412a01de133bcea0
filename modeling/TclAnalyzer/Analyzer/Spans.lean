import TclAnalyzer.Analyzer.Places
import TclAnalyzer.Data.Nesting

/-!
# Spans of words

Source order with a free choice of where a word ends. A text without bytes ends where it starts, or one
byte further on when it is to have a place of its own. And all words of a tree in document order, with
the spans of their texts.
-/

namespace TclAnalyzer

/-- The end of a word in which its first byte counts, also when there is none. -/
def Word.stop (word : Word) : Nat := max word.finish (word.text.data + 1)

variable (ends : Word → Nat) (file : SourceFile)

/-- Every word ends before the next one starts. -/
def InSequence (words : List Word) : Prop := words.Pairwise fun a b => ends a ≤ b.text.data

/-- The word has the location of its text, and the words that the search looks at in it are nested and
in source order. -/
inductive Word.Ordered : Word → Prop
  | mk {word : Word} : makeSourceLocation file word.text.data = .ok word.location →
    word.text.data ≤ ends word → (∀ inner ∈ word.inside, Word.Ordered inner) →
    (∀ inner ∈ word.inside, word.text.data ≤ inner.text.data ∧ ends inner ≤ ends word) →
    InSequence ends word.inside → Word.Ordered word

structure Script.Ordered (script : Script) : Prop where
  word : ∀ arg ∈ script.arguments, arg.word.Ordered ends file
  order : InSequence ends (script.arguments.map Argument.word)

/-! ## Document order -/

def Word.start (word : Word) : Nat := word.text.data

def Script.words (script : Script) : List Word := script.commands.flatMap Call.words

/-- The words right inside a word: its components, those of an index, the elements of a list, or the
words of a script. -/
def Word.contents (word : Word) : List Word :=
  match word.data with
  | .nothing => []
  | .arrayAccess _ index => index
  | .script script => script.words
  | .words words => words

mutual

def Script.allWords : Script → List Word
  | ⟨_, commands⟩ => allWordsOfCalls commands

def allWordsOfCalls : List Call → List Word
  | [] => []
  | ⟨_, words, _⟩ :: calls => allWords words ++ allWordsOfCalls calls

/-- The words with all words inside them, each word before its contents. -/
def allWords : List Word → List Word
  | [] => []
  | ⟨type, location, text, data⟩ :: words =>
    ⟨type, location, text, data⟩ :: (allWordsOfData data ++ allWords words)

def allWordsOfData : WordData → List Word
  | .nothing => []
  | .arrayAccess _ index => allWords index
  | .script script => script.allWords
  | .words words => allWords words

end

/-- The word has the text that stands in the file at its location. -/
structure Word.Exact (file : SourceFile) (word : Word) : Prop where
  location : makeSourceLocation file word.location.offset = .ok word.location
  text : word.text = file.view word.location.offset word.text.bytes.length

end TclAnalyzer
