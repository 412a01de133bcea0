import TclAnalyzer.Analyzer.Proofs.FaultFreeProofs
import TclAnalyzer.Lsp.Proofs.ResponseProofs

/-!
# What ends the loop

Handlers that are spawned and throw only end themselves. `on_textdocument_didclose` is called in the
loop, so that an exception of it ends the loop, and the loop waits with it for a lock. What is no
exception ends the process.
-/

namespace TclAnalyzer

variable {interp : TclInterp} {index : Index} {cursor : ScriptCursor} {s later : Server}
  {d d' t : Dispatcher} {j message id : Json} {remains : Remains} {between : List ServerEvent}
  {event : DispatchEvent} {history before after : List DispatchEvent}

/-! ## Conversions that end with an exception at most -/

namespace Json

end Json

/-- What is read for the text of the word does not matter. -/
theorem ScriptCursor.Absolute.read (h : cursor.Absolute) (tree : Tree) (remains : Remains) :
    (cursor.read tree remains).Absolute := by
  rintro call _ hcall hread htype hargument
  obtain ⟨word, hword, rfl⟩ := Option.map_eq_some_iff.mp hread
  exact h call word hcall hword htype hargument

end TclAnalyzer
