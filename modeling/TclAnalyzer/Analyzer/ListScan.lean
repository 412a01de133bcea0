import TclAnalyzer.Analyzer.Arguments
import TclAnalyzer.Data.Lines
import TclAnalyzer.Data.Runs

/-!
# Splitting a word into list elements

The elements of a text as a Tcl list, by what `TclFindElement` promises about one call, and the loop of
`WordToList` as turns over its pointer and the remaining length.
-/

namespace TclAnalyzer

/-! ## Views -/

/-- What is left of a view from a pointer on. -/
def StringView.rest (text : StringView) (data : Nat) : StringView :=
  { data, bytes := text.bytes.drop (data - text.data) }

/-- The `size` bytes of a view from a pointer on. -/
def StringView.slice (text : StringView) (data size : Nat) : StringView :=
  { data, bytes := (text.bytes.drop (data - text.data)).take size }

/-! ## Lists -/

/-- What `TclFindElement` promises about the list that it is given: an element inside the list and a
next pointer behind the element, or an element at the end of the list. -/
structure ReportedElement (list : StringView) (found : ListElement) : Prop where
  first : list.data ≤ found.element
  last : found.element ≤ list.last
  next : list.data ≤ found.next ∧ found.next ≤ list.last
  behind : found.element < list.last →
    found.element < found.next ∧ found.element + found.size ≤ found.next

def TclInterp.ReportsElements (interp : TclInterp) : Prop :=
  ∀ list found, interp.findElement list = some found → ReportedElement list found

/-- The text is a list with these elements: the first one is in the text, and the others are those of
what is left behind it. -/
inductive IsList (interp : TclInterp) : StringView → List ListElement → Prop
  | nil {text : StringView} {found : ListElement} : interp.findElement text = some found →
    found.element = text.last → IsList interp text []
  | cons {text : StringView} {found : ListElement} {elements : List ListElement} :
    interp.findElement text = some found → found.element < text.last →
    IsList interp (text.rest found.next) elements → IsList interp text (found :: elements)

/-- The word of an element: a substring of the text, at its place in the contents of the file. -/
structure ListElement.IsWord (found : ListElement) (file : SourceFile) (text : StringView)
    (word : Word) : Prop where
  type : word.type = .TEXT
  data : word.data = .nothing
  text : word.text = text.slice found.element found.size
  size : word.text.bytes.length = found.size
  fileName : word.location.fileName = file.fileName
  offset : word.location.offset = found.element
  line : word.location.line = (file.contents.take found.element).count newline
  column : Lines.lineStart newline file.contents word.location.line + word.location.column =
    found.element

/-! ## The loop -/

/-- The variables `list` and `length` at the start of a turn. -/
structure ListScan where
  list : Nat
  length : Nat

/-- A turn of the loop that finds an element, with the difference of the pointers taken off the
length. -/
inductive ListTurn (interp : TclInterp) (file : SourceFile) (last : Nat) :
    ListScan → ListElement → ListScan → Prop
  | found {list length : Nat} {found : ListElement} :
    interp.findElement (file.view list length) = some found → found.element < last →
    ListTurn interp file last ⟨list, length⟩ found ⟨found.next, length - (found.next - list)⟩

/-- The turns of the loop on a text, with the elements that they find. -/
def ScansTo (interp : TclInterp) (file : SourceFile) (text : StringView) :
    List ListElement → ListScan → Prop :=
  Run (ListTurn interp file text.last) ⟨text.data, text.bytes.length⟩

/-- The vector that is collected when the loop ends after these turns; `none` when the text is not a
list. -/
inductive ScanEnds (interp : TclInterp) (file : SourceFile) (last : Nat) (elements : List ListElement)
    (scan : ListScan) : Option (List Word) → Prop
  | error : interp.findElement (file.view scan.list scan.length) = none →
    ScanEnds interp file last elements scan none
  | finish {found : ListElement} {vec : List Word} :
    interp.findElement (file.view scan.list scan.length) = some found → last ≤ found.element →
    List.Forall₂ (fun found word => found.Makes file word) elements vec →
    ScanEnds interp file last elements scan (some vec)

/-- The vector that `WordToList` collects. -/
def collectElements (interp : TclInterp) (context : ParseContext) (word : Word) :
    Except Fault (Option (List Word)) :=
  wordToListFrom interp context word.text.last (word.text.bytes.length + 1) word.text.data
    word.text.bytes.length

/-- The words of the vector are the elements of the word's text, one after the other. -/
structure CollectsElements (file : SourceFile) (word : Word) (elements : List ListElement)
    (vec : List Word) : Prop where
  words : List.Forall₂ (fun found inner => found.IsWord file word.text inner) elements vec
  inside : ∀ inner ∈ vec, word.text.data ≤ inner.text.data ∧ inner.text.last ≤ word.text.last
  apart : vec.Pairwise fun a b => a.text.last ≤ b.text.data

/-- The scan of a word is sound. -/
structure ScanSound (interp : TclInterp) (context : ParseContext) (word : Word) : Prop where
  /-- In every turn the remaining length is the distance to the end of the word. -/
  distance : ∀ elements scan, ScansTo interp context.file word.text elements scan →
    scan.list + scan.length = word.text.last
  /-- Taking the difference of the pointers off the length never underflows. -/
  underflow : ∀ elements scan found, ScansTo interp context.file word.text elements scan →
    interp.findElement (context.file.view scan.list scan.length) = some found →
      scan.list ≤ found.next ∧ found.next - scan.list ≤ scan.length
  turns : ∀ elements scan, ScansTo interp context.file word.text elements scan →
    elements.length ≤ word.text.bytes.length
  ends : ∃ elements scan result, ScansTo interp context.file word.text elements scan ∧
    ScanEnds interp context.file word.text.last elements scan result ∧
    collectElements interp context word = .ok result
  list : ∀ elements, IsList interp word.text elements → ∃ vec,
    collectElements interp context word = .ok (some vec) ∧
    CollectsElements context.file word elements vec ∧
    wordToList interp context word =
      .ok (if elements.length = 1 then word else { word with type := .LIST, data := .words vec })
  malformed : (∀ elements, ¬ IsList interp word.text elements) →
    collectElements interp context word = .ok none ∧ wordToList interp context word = .ok word

end TclAnalyzer
