import TclAnalyzer.Analyzer.Places
import TclAnalyzer.Analyzer.Typed

/-!
# The words on the way to a call

The position of a call in a pass says which words the pass goes through to get to it. A script in a
word has the position of the word.
-/

namespace TclAnalyzer

/-- The call or word with this index in a part of a script. -/
def Node.child : Node → Nat → Option Node
  | .script s, i => s.commands[i]?.map .call
  | .call c, k => c.words[k]?.map .word
  | .word w, k =>
    match w.data with
    | .script s => s.commands[k]?.map .call
    | data => data.components[k]?.map .word

/-- The path from the part to it. -/
def Node.path : Node → Nat → TreePath
  | .script _, i => [.call i]
  | .call _, k => [.word k]
  | .word w, k =>
    match w.data with
    | .script _ => [.script, .call k]
    | _ => [.component k]

/-- The check of a word, and of the index that the way takes in it. -/
def Node.passes (check : Word → Nat → Bool) : Node → Nat → Bool
  | .word w, k => check w k
  | _, _ => true

/-- The path from the part to the one at the position. -/
def Node.pathTo (node : Node) : Pos → TreePath
  | [] => []
  | k :: pos => node.path k ++ (node.child k).elim [] fun child => child.pathTo pos

/-- All words on the way from the part to the position pass the check. -/
def Node.passesTo (check : Word → Nat → Bool) (node : Node) : Pos → Bool
  | [] => true
  | k :: pos => node.passes check k && (node.child k).elim true fun child => child.passesTo check pos

def Script.pathTo (script : Script) (pos : Pos) : TreePath := (Node.script script).pathTo pos

def noArray (word : Word) (_ : Nat) : Bool := word.type ≠ .ARRAY_ACCESS

def lastComponent (word : Word) (k : Nat) : Bool :=
  !word.isComposite || k + 1 = word.data.components.length

/-- The call at the position is not in the index of an array. -/
def Script.OutsideArrays (script : Script) (pos : Pos) : Prop :=
  (Node.script script).passesTo noArray pos = true

/-- Of the words with components around the call at the position, each one ends with the component that
the call is in. -/
def Script.InLastComponents (script : Script) (pos : Pos) : Prop :=
  (Node.script script).passesTo lastComponent pos = true

instance (script : Script) (pos : Pos) : Decidable (script.OutsideArrays pos) :=
  inferInstanceAs (Decidable (_ = _))

instance (script : Script) (pos : Pos) : Decidable (script.InLastComponents pos) :=
  inferInstanceAs (Decidable (_ = _))

/-- The search for the start of the word ends at the word, which stands at this place. -/
def Script.FindsStart (script : Script) (place : TreePath) (word : Word) : Prop :=
  script.wordAt place = some word ∧ ∃ cursor,
    locateInScript { line := word.location.line, column := word.location.column } [] script =
      .ok cursor ∧
    findPositionInScript { line := word.location.line, column := word.location.column } script =
      .ok (cursor.cursor script) ∧
    cursor.word = some place

end TclAnalyzer
