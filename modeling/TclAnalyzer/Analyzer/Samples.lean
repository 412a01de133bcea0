import TclAnalyzer.Analyzer.Index

/-!
# Scripts written out by hand

The concrete files in the proofs have one line and no name, and their words stand at known offsets.
A word is given by its offset, its text and its parts. A file with a Tcl library for it is parsed and
built by evaluation.
-/

namespace TclAnalyzer

def lineLocation (offset : Nat) : SourceLocation :=
  { fileName := [], offset, line := 0, column := offset }

def textWord (offset : Nat) (text : String) : Word :=
  { type := .TEXT, location := lineLocation offset, text := { data := offset, bytes := bytes text },
    data := .nothing }

def listWord (offset : Nat) (text : String) (words : List Word) : Word :=
  { textWord offset text with type := .LIST, data := .words words }

def scriptWord (offset : Nat) (text : String) (commands : List Call) : Word :=
  { textWord offset text with
    type := .SCRIPT, data := .script { location := lineLocation offset, commands } }

/-- `proc f {} {}`. -/
def defineF : Call :=
  ⟨.PROC, [textWord 0 "proc", textWord 5 "f", listWord 8 "" [], scriptWord 11 "" []], []⟩

/-- `f`, after `proc f {} {};`. -/
def useF : Call := ⟨.USER, [textWord 13 "f"], []⟩

/-- `proc g {} {}`, after `proc f {} {};f;`. -/
def defineG : Call :=
  ⟨.PROC, [textWord 15 "proc", textWord 20 "g", listWord 23 "" [], scriptWord 26 "" []], []⟩

/-- The tree of a file and what `Build` makes of it. -/
def parseAndBuild (interp : TclInterp) (context : ParseContext) (view : StringView) :
    Except Fault (Script × BuildResult) := do
  let script ← parseScript interp context view
  let result ← buildNew script
  return (script, result)

theorem exists_built {interp : TclInterp} {context : ParseContext} {view : StringView}
    (test : Script × BuildResult → Bool)
    (h : returns (parseAndBuild interp context view) test = true) :
    ∃ script result, parseScript interp context view = .ok script ∧ buildNew script = .ok result ∧
      test (script, result) = true := by
  obtain ⟨⟨script, result⟩, h, htest⟩ := exists_of_returns h
  obtain ⟨script', hparse, h⟩ := bind_eq_ok.mp h
  obtain ⟨result', hbuild, h⟩ := bind_eq_ok.mp h
  cases h
  exact ⟨script, result, hparse, hbuild, htest⟩

end TclAnalyzer
