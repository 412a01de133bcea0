import TclAnalyzer.Analyzer.Script

/-!
# The place in a script

The call and the word at a position of the file. The words are gone through in order, up to the first
one that starts after the position.
-/

namespace TclAnalyzer

/-- `ScriptCursor`, with the call and the word in the place of the pointers to them. -/
structure ScriptCursor where
  call : Option Call
  argument : Nat
  word : Option Word

def ScriptCursor.empty : ScriptCursor := { call := none, argument := 0, word := none }

/-- The comparisons at the start of `FindPositionInWord`. -/
def startsAfter (location : SourceLocation) (pos : LinePos) : Bool :=
  location.line > pos.line ∨ location.line = pos.line ∧ location.column > pos.column

mutual

/-- `none` when the word starts after the position. -/
def findPositionInWord (result : ScriptCursor) (pos : LinePos) :
    Word → Except Fault (Option ScriptCursor)
  | ⟨type, location, text, data⟩ =>
    if startsAfter location pos then return none
    else findPositionInData result pos ⟨type, location, text, data⟩ data

/-- `FindPositionInWord` by the type of the word, which is given twice. -/
def findPositionInData (result : ScriptCursor) (pos : LinePos) (word : Word) :
    WordData → Except Fault (Option ScriptCursor)
  | .script script =>
    match word.type with
    | .SCRIPT => do return some (← findPositionInScript pos script)
    | .TOKEN_LIST | .EXPAND => throw .badVariantAccess
    | _ => return some { result with word := some word }
  | .words words =>
    match word.type with
    | .SCRIPT => throw .badVariantAccess
    | .TOKEN_LIST | .EXPAND => findPositionInWords result pos words
    | _ => return some { result with word := some word }
  | .nothing | .arrayAccess _ _ =>
    match word.type with
    | .SCRIPT | .TOKEN_LIST | .EXPAND => throw .badVariantAccess
    | _ => return some { result with word := some word }

/-- The loop over the components of a word. -/
def findPositionInWords (result : ScriptCursor) (pos : LinePos) :
    List Word → Except Fault (Option ScriptCursor)
  | [] => return some result
  | word :: words => do
    match ← findPositionInWord result pos word with
    | none => return none
    | some result => findPositionInWords result pos words

/-- `FindPositionInScript`. -/
def findPositionInScript (pos : LinePos) : Script → Except Fault ScriptCursor
  | ⟨_, commands⟩ => findPositionInCalls .empty pos commands

/-- The loop over the commands. -/
def findPositionInCalls (result : ScriptCursor) (pos : LinePos) :
    List Call → Except Fault ScriptCursor
  | [] => return result
  | call :: commands => do
    let (result, past) ← findPositionInCall result pos call
    if past then return result else findPositionInCalls result pos commands

/-- The loop over the words of a command, and whether it met a word past the position. -/
def findPositionInCall (result : ScriptCursor) (pos : LinePos) :
    Call → Except Fault (ScriptCursor × Bool)
  | ⟨type, words, ns⟩ => findPositionInArguments result pos ⟨type, words, ns⟩ 0 words

def findPositionInArguments (result : ScriptCursor) (pos : LinePos) (call : Call) (argument : Nat) :
    List Word → Except Fault (ScriptCursor × Bool)
  | [] => return (result, false)
  | word :: words => do
    match ← findPositionInWord { call := some call, argument, word := none } pos word with
    | none => return (result, true)
    | some result => findPositionInArguments result pos call (argument + 1) words

end

end TclAnalyzer
