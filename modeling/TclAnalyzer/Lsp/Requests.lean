import TclAnalyzer.Analyzer.Cursor
import TclAnalyzer.Analyzer.Index

/-!
# Requests

The lookup behind `textDocument/references` and `textDocument/definition`, from a cursor and the
index.
-/

namespace TclAnalyzer

structure Position where
  line : Nat
  character : Nat
  deriving DecidableEq, Repr

structure Range where
  start : Position
  stop : Position
  deriving DecidableEq, Repr

structure Location where
  uri : Str
  range : Range
  deriving DecidableEq, Repr

/-- What is sent back: `send_reject` with code and message, or `send_reply` with locations. -/
inductive Reply where
  | reject (code : Int) (message : Str)
  | reply (response : List Location)
  deriving DecidableEq, Repr

/-- A reference as a location without extent. -/
def Reference.toLocation (r : Reference) : Location :=
  let pos : Position := { line := r.location.line, character := r.location.column }
  { uri := r.location.fileName, range := { start := pos, stop := pos } }

/-- The loop over the range of positions in `refsByID`. -/
def referencesAt (references : List Reference) : List Nat → Except Fault (List Reference)
  | [] => return []
  | pos :: range => do
    let r ← nth references pos
    return r :: (← referencesAt references range)

/-- The proc a command word means: the namespace of the call, then `FindProc`. -/
def procAtCursor (index : Index) (call : Call) (word : Word) :
    Except Fault (Option Proc × Index) := do
  match ← findNamespace index call.ns with
  | none => return (none, index)
  | some ns =>
    let (procs, index) ← findProc index ns word.text.bytes
    return (bestFitProcToCall procs call, index)

/-- The two handlers after `GetCursor`, which differ in the references they answer with. -/
def answer (keep : Reference → Bool) (index : Index) (cursor : ScriptCursor) :
    Except Fault (Reply × Index) :=
  match cursor.call, cursor.word with
  | some call, some word =>
    if word.type = .TEXT ∧ cursor.argument = 0 then do
      match ← procAtCursor index call word with
      | (none, index) => return (.reply [], index)
      | (some p, index) =>
        let references ←
          referencesAt index.procs.references (index.procs.refsByID.equalRange p.id)
        return (.reply ((references.filter keep).map Reference.toLocation), index)
    else return (.reply [], index)
  | _, _ => return (.reject 101 (bytes "Invalid position"), index)

/-- `on_textdocument_references` from the cursor on. -/
def answerReferences : Index → ScriptCursor → Except Fault (Reply × Index) := answer fun _ => true

/-- `on_textdocument_definition` from the cursor on. -/
def answerDefinition : Index → ScriptCursor → Except Fault (Reply × Index) :=
  answer fun r => r.type = .DEFINITION

end TclAnalyzer
