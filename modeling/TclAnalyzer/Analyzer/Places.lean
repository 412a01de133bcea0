import TclAnalyzer.Analyzer.Cursor

/-!
# Places in a parse tree

The pointers of a `ScriptCursor` are paths from the script here, so that two equal words in different
places are different. The search is the one of `findPositionInScript`, on paths.
-/

namespace TclAnalyzer

/-! ## Paths -/

/-- A step down from a script, from a call or from a word. -/
inductive TreeStep where
  | call (i : Nat)
  | word (argument : Nat)
  | component (n : Nat)
  | script
  deriving DecidableEq, Repr

abbrev TreePath := List TreeStep

inductive TreeNode where
  | script (script : Script)
  | call (call : Call)
  | word (word : Word)

def childAt : TreeNode → TreeStep → Option TreeNode
  | .script script, .call i => script.commands[i]?.map .call
  | .call call, .word argument => call.words[argument]?.map .word
  | .word word, .component n =>
    match word.data with
    | .words words => words[n]?.map .word
    | _ => none
  | .word word, .script =>
    match word.data with
    | .script script => some (.script script)
    | _ => none
  | _, _ => none

def nodeAt (node : TreeNode) : TreePath → Option TreeNode
  | [] => some node
  | step :: path => (childAt node step).bind (nodeAt · path)

def Script.callAt (script : Script) (path : TreePath) : Option Call :=
  match nodeAt (.script script) path with
  | some (.call call) => some call
  | _ => none

def Script.wordAt (script : Script) (path : TreePath) : Option Word :=
  match nodeAt (.script script) path with
  | some (.word word) => some word
  | _ => none

/-! ## The search -/

/-- `ScriptCursor` with its pointers. -/
structure PlaceCursor where
  call : Option TreePath
  argument : Nat
  word : Option TreePath
  deriving DecidableEq, Repr

def PlaceCursor.empty : PlaceCursor := { call := none, argument := 0, word := none }

/-- The cursor with the call and the word that the pointers point to. -/
def PlaceCursor.cursor (script : Script) (result : PlaceCursor) : ScriptCursor where
  call := result.call.bind script.callAt
  argument := result.argument
  word := result.word.bind script.wordAt

mutual

/-- `findPositionInWord` on the word that stands at the path. -/
def locateInWord (result : PlaceCursor) (pos : LinePos) (path : TreePath) :
    Word → Except Fault (Option PlaceCursor)
  | ⟨type, location, _, data⟩ =>
    if startsAfter location pos then return none else locateInData result pos path type data

def locateInData (result : PlaceCursor) (pos : LinePos) (path : TreePath) (type : WordType) :
    WordData → Except Fault (Option PlaceCursor)
  | .script script =>
    match type with
    | .SCRIPT => do return some (← locateInScript pos (path ++ [.script]) script)
    | .TOKEN_LIST | .EXPAND => throw .badVariantAccess
    | _ => return some { result with word := some path }
  | .words words =>
    match type with
    | .SCRIPT => throw .badVariantAccess
    | .TOKEN_LIST | .EXPAND => locateInWords result pos path 0 words
    | _ => return some { result with word := some path }
  | .nothing | .arrayAccess _ _ =>
    match type with
    | .SCRIPT | .TOKEN_LIST | .EXPAND => throw .badVariantAccess
    | _ => return some { result with word := some path }

def locateInWords (result : PlaceCursor) (pos : LinePos) (path : TreePath) (n : Nat) :
    List Word → Except Fault (Option PlaceCursor)
  | [] => return some result
  | word :: words => do
    match ← locateInWord result pos (path ++ [.component n]) word with
    | none => return none
    | some result => locateInWords result pos path (n + 1) words

def locateInScript (pos : LinePos) (path : TreePath) : Script → Except Fault PlaceCursor
  | ⟨_, commands⟩ => locateInCalls .empty pos path 0 commands

def locateInCalls (result : PlaceCursor) (pos : LinePos) (path : TreePath) (i : Nat) :
    List Call → Except Fault PlaceCursor
  | [] => return result
  | call :: commands => do
    let (result, past) ← locateInCall result pos (path ++ [.call i]) call
    if past then return result else locateInCalls result pos path (i + 1) commands

def locateInCall (result : PlaceCursor) (pos : LinePos) (path : TreePath) :
    Call → Except Fault (PlaceCursor × Bool)
  | ⟨_, words, _⟩ => locateInArguments result pos path 0 words

def locateInArguments (result : PlaceCursor) (pos : LinePos) (path : TreePath) (argument : Nat) :
    List Word → Except Fault (PlaceCursor × Bool)
  | [] => return (result, false)
  | word :: words => do
    match ← locateInWord { call := some path, argument, word := none } pos
        (path ++ [.word argument]) word with
    | none => return (result, true)
    | some result => locateInArguments result pos path (argument + 1) words

end

/-! ## What is gone through -/

/-- A word whose components the search goes through. -/
def Word.isComposite (word : Word) : Bool := word.type = .TOKEN_LIST ∨ word.type = .EXPAND

mutual

/-- The word, and the components of a composite one, in the order of the search. -/
def Word.parts : Word → List (TreePath × Word)
  | ⟨type, location, text, data⟩ => ([], ⟨type, location, text, data⟩) :: dataParts type data

def dataParts (type : WordType) : WordData → List (TreePath × Word)
  | .words words =>
    match type with
    | .TOKEN_LIST | .EXPAND => componentParts 0 words
    | _ => []
  | _ => []

def componentParts (n : Nat) : List Word → List (TreePath × Word)
  | [] => []
  | word :: words =>
    (Word.parts word).map (fun part => (.component n :: part.1, part.2)) ++ componentParts (n + 1) words

end

/-- What a part of the word at the path does to the cursor. -/
def visit (pos : LinePos) (path : TreePath) (result : PlaceCursor) (part : TreePath × Word) :
    Except Fault PlaceCursor :=
  match part.2.type, part.2.data with
  | .TOKEN_LIST, _ | .EXPAND, _ => return result
  | .SCRIPT, .script script => locateInScript pos (path ++ part.1 ++ [.script]) script
  | .SCRIPT, _ => throw .badVariantAccess
  | _, _ => return { result with word := some (path ++ part.1) }

/-- The parts without components: scripts, and words that the cursor can be at. -/
def Word.terminals (word : Word) : List (TreePath × Word) :=
  word.parts.filter fun part => !part.2.isComposite

/-- A word of a call, and which one of which call of the script it is. -/
structure Argument where
  call : Nat
  argument : Nat
  word : Word

def Argument.path (arg : Argument) : TreePath := [.call arg.call, .word arg.argument]

/-- The cursor with which the search starts at the word of a script at the path. -/
def Argument.start (path : TreePath) (arg : Argument) : PlaceCursor :=
  { call := some (path ++ [.call arg.call]), argument := arg.argument, word := none }

/-- The words from this one on. -/
def argumentsFrom (call argument : Nat) : List Word → List Argument
  | [] => []
  | word :: words => { call, argument, word } :: argumentsFrom call (argument + 1) words

/-- The words of the calls from this one on. -/
def callsArguments (call : Nat) : List Call → List Argument
  | [] => []
  | c :: commands => argumentsFrom call 0 c.words ++ callsArguments (call + 1) commands

/-- The words of all calls in order. -/
def Script.arguments (script : Script) : List Argument := callsArguments 0 script.commands

/-- No part of the word starts after the position. -/
def Word.reached (pos : LinePos) (word : Word) : Bool :=
  word.parts.all fun part => !startsAfter part.2.location pos

/-- The word in which the search ends: the last one before the first that is not reached. -/
def Script.lastReached (script : Script) (pos : LinePos) : Option Argument :=
  (script.arguments.takeWhile fun arg => arg.word.reached pos).getLast?

/-! ## Coherent cursors -/

/-- A word is an argument of the call of the cursor, or a component in it, and not of a call in a script
that is nested in the argument. -/
def PlaceCursor.Coherent (script : Script) (result : PlaceCursor) : Prop :=
  ∀ place, result.word = some place → ∃ callPath call components word,
    result.call = some callPath ∧ script.callAt callPath = some call ∧
    result.argument < call.words.length ∧ place = callPath ++ .word result.argument :: components ∧
    (∀ step ∈ components, ∃ n, step = .component n) ∧ script.wordAt place = some word

/-- The last part of the word where the search ends is not a script, and comes after one; or it is a
script of which this holds in turn. -/
inductive Script.TextAfterScript (pos : LinePos) : Script → Prop
  | here {script : Script} {arg : Argument} {before : List (TreePath × Word)}
    {last : TreePath × Word} : script.lastReached pos = some arg →
    arg.word.terminals = before ++ [last] → last.2.type ≠ .SCRIPT →
    (∃ part ∈ before, part.2.type = .SCRIPT) → TextAfterScript pos script
  | nested {script inner : Script} {arg : Argument} {before : List (TreePath × Word)}
    {last : TreePath × Word} : script.lastReached pos = some arg →
    arg.word.terminals = before ++ [last] → last.2.type = .SCRIPT → last.2.data = .script inner →
    TextAfterScript pos inner → TextAfterScript pos script

/-! ## Source order -/

/-- The offset of the end of the text. -/
def Word.finish (word : Word) : Nat := word.text.data + word.text.bytes.length

/-- The words that the search looks at in a word: its components, or the words of its script. -/
def Word.inside (word : Word) : List Word :=
  match word.type, word.data with
  | .TOKEN_LIST, .words words | .EXPAND, .words words => words
  | .SCRIPT, .script script => script.arguments.map Argument.word
  | _, _ => []

/-- Every word ends before the next one starts. -/
def SourceOrder (words : List Word) : Prop := words.Pairwise fun a b => a.finish ≤ b.text.data

/-- The word has the location of its text, and the words in it are nested and in source order. -/
inductive Word.InOrder (file : SourceFile) : Word → Prop
  | mk {word : Word} : makeSourceLocation file word.text.data = .ok word.location →
    (∀ inner ∈ word.inside, InOrder file inner) →
    (∀ inner ∈ word.inside, word.text.data ≤ inner.text.data ∧ inner.finish ≤ word.finish) →
    SourceOrder word.inside → InOrder file word

structure Script.InOrder (file : SourceFile) (script : Script) : Prop where
  word : ∀ arg ∈ script.arguments, arg.word.InOrder file
  order : SourceOrder (script.arguments.map Argument.word)

/-- A leaf of the tree: an argument of a call or a component in one, at any depth of scripts. The flag
says that no component follows it in the words around it, and none the scripts around it. -/
inductive Script.Leaf : Script → TreePath → Word → Bool → Prop
  | here {script : Script} {arg : Argument} {before after : List (TreePath × Word)}
    {place : TreePath} {leaf : Word} : arg ∈ script.arguments →
    arg.word.parts = before ++ (place, leaf) :: after →
    leaf.type = .TEXT ∨ leaf.type = .VARIABLE ∨ leaf.type = .LIST →
    Leaf script (arg.path ++ place) leaf after.isEmpty
  | nested {script inner : Script} {arg : Argument} {before after : List (TreePath × Word)}
    {place innerPlace : TreePath} {word leaf : Word} {trailing : Bool} : arg ∈ script.arguments →
    arg.word.parts = before ++ (place, word) :: after → word.type = .SCRIPT →
    word.data = .script inner → Leaf inner innerPlace leaf trailing →
    Leaf script (arg.path ++ place ++ .script :: innerPlace) leaf (after.isEmpty && trailing)

end TclAnalyzer
