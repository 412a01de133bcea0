import TclAnalyzer.Analyzer.Proofs.SitesProofs

/-!
# Type tags

What the parser promises about the trees it builds: the data of a word is the alternative that its
type says, and a call has the words that its type says.
-/

namespace TclAnalyzer

/-- A word that has nothing but its text. -/
def Word.IsText (word : Word) : Prop := word.type = .TEXT ∧ word.data = .nothing

/-- An element of a list of arguments: a text, or a list of texts. -/
def Word.IsElement (word : Word) : Prop :=
  word.IsText ∨ word.type = .LIST ∧ ∃ vec, word.data = .words vec ∧ ∀ inner ∈ vec, inner.IsText

/-- The alternative that the type promises. -/
def Word.DataFits (word : Word) : Prop :=
  match word.type with
  | .SCRIPT => ∃ script, word.data = .script script
  | .TOKEN_LIST | .EXPAND | .LIST => ∃ words, word.data = .words words
  | .ARRAY_ACCESS => ∃ name index, word.data = .arrayAccess name index
  | .TEXT | .VARIABLE | .ERROR => True

/-- A call has a command word, and the words of its type: name, arguments and body of a `proc`, where
a list of arguments has lists as elements, and subcommand, name and body of a `namespace eval`. -/
structure Call.Shaped (call : Call) : Prop where
  command : call.words ≠ []
  body : call.type = .PROC ∨ call.type = .NAMESPACE_EVAL → 4 ≤ call.words.length
  arguments : ∀ args, call.type = .PROC → call.words[2]? = some args → args.type = .LIST →
    ∃ vec, args.data = .words vec ∧ ∀ arg ∈ vec, arg.IsElement

mutual

inductive Word.Typed : Word → Prop
  | mk {word : Word} : word.DataFits → (∀ script, word.data = .script script → Script.Typed script) →
    (∀ inner ∈ word.data.components, Word.Typed inner) → Word.Typed word

inductive Script.Typed : Script → Prop
  | mk {script : Script} : (∀ call ∈ script.commands, call.Shaped) →
    (∀ call ∈ script.commands, ∀ word ∈ call.words, Word.Typed word) → Script.Typed script

end

theorem Word.Typed.dataFits {word : Word} (h : word.Typed) : word.DataFits := by
  cases h with
  | mk hfits => exact hfits

theorem Word.Typed.script {word : Word} (h : word.Typed) {script : Script}
    (hdata : word.data = .script script) : script.Typed := by
  cases h with
  | mk _ hscript => exact hscript script hdata

theorem Word.Typed.component {word inner : Word} (h : word.Typed)
    (hinner : inner ∈ word.data.components) : inner.Typed := by
  cases h with
  | mk _ _ hcomponents => exact hcomponents inner hinner

theorem Script.Typed.shaped {script : Script} (h : script.Typed) {call : Call}
    (hcall : call ∈ script.commands) : call.Shaped := by
  cases h with
  | mk hshaped => exact hshaped call hcall

theorem Script.Typed.word {script : Script} (h : script.Typed) {call : Call} {word : Word}
    (hcall : call ∈ script.commands) (hword : word ∈ call.words) : word.Typed := by
  cases h with
  | mk _ hwords => exact hwords call hcall word hword

end TclAnalyzer
