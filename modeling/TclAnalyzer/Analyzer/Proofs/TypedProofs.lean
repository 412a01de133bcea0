import TclAnalyzer.Analyzer.Cursor
import TclAnalyzer.Analyzer.Proofs.ParserRuleProofs

/-!
# Parse trees have the data that their type tags promise

So that no walk over a parse tree meets an alternative it does not expect.
-/

namespace TclAnalyzer

/-! ## Calls -/

/-- The part of a tree, and a call with its words, has the promised data. -/
def Node.Shaped : Node → Prop
  | .script s => s.Typed
  | .call c => c.Shaped ∧ ∀ word ∈ c.words, word.Typed
  | .word w => w.Typed

/-- The calls that a pass reaches in a tree have the words of their types. -/
theorem Reaches.shaped {σ : Type} {p : Pass σ} {scope : σ} {pos : Pos} {node : Node} {site : Site σ}
    (h : Reaches p scope pos node site) : node.Shaped → site.call.Shaped := by
  induction h with
  | here => exact fun hshaped => hshaped.1
  | command hcall _ ih =>
    intro hscript
    have hmem := List.mem_of_getElem? hcall
    exact ih ⟨hscript.shaped hmem, fun word hword => hscript.word hmem hword⟩
  | word hword _ _ ih => exact fun hshaped => ih (hshaped.2 _ (List.mem_of_getElem? hword))
  | nested hdata _ _ ih => exact fun hword => ih (Word.Typed.script hword hdata)
  | component hinner _ _ ih =>
    exact fun hword => ih (Word.Typed.component hword (List.mem_of_getElem? hinner))

/-! ## Parsing -/

theorem Word.IsText.typed {word : Word} (h : word.IsText) : word.Typed := by
  obtain ⟨htype, hdata⟩ := h
  refine .mk ?_ ?_ ?_
  · simp [Word.DataFits, htype]
  · intro script hscript
    cases hdata.symm.trans hscript
  · intro inner hinner
    rw [hdata] at hinner
    cases hinner

/-- A word with other words in it. -/
theorem typed_words {word : Word} {vec : List Word}
    (htype : word.type = .TOKEN_LIST ∨ word.type = .EXPAND ∨ word.type = .LIST)
    (hdata : word.data = .words vec) (h : ∀ inner ∈ vec, inner.Typed) : word.Typed := by
  refine .mk ?_ ?_ ?_
  · rcases htype with htype | htype | htype
    · simp [Word.DataFits, htype, hdata]
    · simp [Word.DataFits, htype, hdata]
    · simp [Word.DataFits, htype, hdata]
  · intro script hscript
    cases hdata.symm.trans hscript
  · intro inner hinner
    rw [hdata] at hinner
    exact h inner hinner

theorem Word.IsElement.typed {word : Word} (h : word.IsElement) : word.Typed := by
  rcases h with htext | ⟨htype, vec, hdata, htexts⟩
  · exact htext.typed
  · exact typed_words (Or.inr (Or.inr htype)) hdata fun inner hinner => (htexts inner hinner).typed

/-- The parser gives each word the data of its tag and each call the words of its type. -/
theorem typed_rule : ParserRule (fun _ word => word.Typed)
    (fun _ call => call.Shaped ∧ ∀ word ∈ call.words, word.Typed) (fun _ script => script.Typed) where
  text h := h.typed
  missing htype hdata := by
    refine .mk ?_ ?_ ?_
    · simp [Word.DataFits, htype]
    · intro script hscript
      cases hdata.symm.trans hscript
    · intro inner hinner
      rw [hdata] at hinner
      cases hinner
  components htype hdata h := typed_words (htype.imp_right Or.inl) hdata h
  scalar h := .mk trivial (fun _ hscript => h.script hscript) fun _ hinner => h.component hinner
  array htype hdata h := by
    refine .mk ?_ ?_ ?_
    · simp [Word.DataFits, htype, hdata]
    · intro script hscript
      cases hdata.symm.trans hscript
    · intro inner hinner
      rw [hdata] at hinner
      exact h inner hinner
  nested htype hdata h := by
    refine .mk ?_ ?_ ?_
    · simp [Word.DataFits, htype, hdata]
    · intro script hscript
      cases hdata.symm.trans hscript
      exact h
    · intro inner hinner
      rw [hdata] at hinner
      cases hinner
  list htype hdata h :=
    typed_words (Or.inr (Or.inr htype)) hdata fun inner hinner => (h inner hinner).typed
  call _ hshaped h := by
    refine ⟨hshaped, fun word hword => ?_⟩
    obtain ⟨k, hk⟩ := List.getElem?_of_mem hword
    exact h k word hk
  script h := .mk (fun call hcall => (h call hcall).1) fun call hcall => (h call hcall).2

/-- Every tree that the parser returns has the promised data. -/
theorem parseScript_typed {interp : TclInterp} {context : ParseContext} {view : StringView}
    {script : Script} (h : parseScript interp context view = .ok script) : script.Typed :=
  typed_rule.parseScript h

/-- Also the tree of a document that has not been parsed yet. -/
theorem Script.initial_typed (location : SourceLocation) : Script.Typed ⟨location, []⟩ :=
  .mk (by simp) (by simp)

/-! ## Finding a position -/

mutual

/-- In a typed word the search reads no alternative of the data that is not there. -/
theorem findPositionInWord_ok (result : ScriptCursor) (pos : LinePos) :
    ∀ word : Word, word.Typed → ∃ found, findPositionInWord result pos word = .ok found
  | ⟨type, location, text, data⟩, h => by
    rw [findPositionInWord]
    by_cases hafter : startsAfter location pos
    · rw [if_pos hafter]
      exact ⟨none, rfl⟩
    · rw [if_neg hafter]
      exact findPositionInData_ok result pos _ data h rfl

theorem findPositionInData_ok (result : ScriptCursor) (pos : LinePos) (word : Word) :
    ∀ data : WordData, word.Typed → word.data = data →
      ∃ found, findPositionInData result pos word data = .ok found
  | .script script, h, hdata => by
    obtain ⟨cursor, hcursor⟩ := findPositionInScript_ok pos script (h.script hdata)
    have hfits := h.dataFits
    unfold Word.DataFits at hfits
    cases htype : word.type with
    | SCRIPT =>
      simp only [findPositionInData, htype, hcursor]
      exact ⟨some cursor, rfl⟩
    | TOKEN_LIST | EXPAND => simp [htype, hdata] at hfits
    | TEXT | VARIABLE | ARRAY_ACCESS | LIST | ERROR =>
      simp only [findPositionInData, htype]
      exact ⟨_, rfl⟩
  | .words words, h, hdata => by
    have hwords : ∀ inner ∈ words, inner.Typed := fun inner hinner =>
      h.component (by rwa [hdata])
    have hfits := h.dataFits
    unfold Word.DataFits at hfits
    cases htype : word.type with
    | SCRIPT => simp [htype, hdata] at hfits
    | TOKEN_LIST | EXPAND =>
      simp only [findPositionInData, htype]
      exact findPositionInWords_ok result pos words hwords
    | TEXT | VARIABLE | ARRAY_ACCESS | LIST | ERROR =>
      simp only [findPositionInData, htype]
      exact ⟨_, rfl⟩
  | .nothing, h, hdata => by
    have hfits := h.dataFits
    unfold Word.DataFits at hfits
    cases htype : word.type with
    | SCRIPT | TOKEN_LIST | EXPAND => simp [htype, hdata] at hfits
    | TEXT | VARIABLE | ARRAY_ACCESS | LIST | ERROR =>
      simp only [findPositionInData, htype]
      exact ⟨_, rfl⟩
  | .arrayAccess name index, h, hdata => by
    have hfits := h.dataFits
    unfold Word.DataFits at hfits
    cases htype : word.type with
    | SCRIPT | TOKEN_LIST | EXPAND => simp [htype, hdata] at hfits
    | TEXT | VARIABLE | ARRAY_ACCESS | LIST | ERROR =>
      simp only [findPositionInData, htype]
      exact ⟨_, rfl⟩

theorem findPositionInWords_ok (result : ScriptCursor) (pos : LinePos) :
    ∀ words : List Word, (∀ word ∈ words, word.Typed) →
      ∃ found, findPositionInWords result pos words = .ok found
  | [], _ => ⟨some result, rfl⟩
  | word :: words, h => by
    obtain ⟨found, hfound⟩ := findPositionInWord_ok result pos word (h word List.mem_cons_self)
    rw [findPositionInWords, hfound]
    cases found with
    | none => exact ⟨none, rfl⟩
    | some result' =>
      exact findPositionInWords_ok result' pos words fun w hw => h w (List.mem_cons_of_mem _ hw)

/-- The search returns a cursor at every position of a typed tree. -/
theorem findPositionInScript_ok (pos : LinePos) :
    ∀ script : Script, script.Typed → ∃ cursor, findPositionInScript pos script = .ok cursor
  | ⟨_, commands⟩, h => by
    rw [findPositionInScript]
    exact findPositionInCalls_ok .empty pos commands fun call hcall word hword => h.word hcall hword

theorem findPositionInCalls_ok (result : ScriptCursor) (pos : LinePos) :
    ∀ commands : List Call, (∀ call ∈ commands, ∀ word ∈ call.words, word.Typed) →
      ∃ cursor, findPositionInCalls result pos commands = .ok cursor
  | [], _ => ⟨result, rfl⟩
  | call :: commands, h => by
    obtain ⟨⟨result', past⟩, hcall⟩ := findPositionInCall_ok result pos call (h call List.mem_cons_self)
    rw [findPositionInCalls, hcall]
    cases past with
    | true => exact ⟨result', rfl⟩
    | false =>
      exact findPositionInCalls_ok result' pos commands fun c hc => h c (List.mem_cons_of_mem _ hc)

theorem findPositionInCall_ok (result : ScriptCursor) (pos : LinePos) :
    ∀ call : Call, (∀ word ∈ call.words, word.Typed) →
      ∃ found, findPositionInCall result pos call = .ok found
  | ⟨type, words, ns⟩, h => by
    rw [findPositionInCall]
    exact findPositionInArguments_ok result pos ⟨type, words, ns⟩ 0 words h

theorem findPositionInArguments_ok (result : ScriptCursor) (pos : LinePos) (call : Call)
    (argument : Nat) : ∀ words : List Word, (∀ word ∈ words, word.Typed) →
      ∃ found, findPositionInArguments result pos call argument words = .ok found
  | [], _ => ⟨(result, false), rfl⟩
  | word :: words, h => by
    obtain ⟨found, hfound⟩ := findPositionInWord_ok { call := some call, argument, word := none } pos
      word (h word List.mem_cons_self)
    rw [findPositionInArguments, hfound]
    cases found with
    | none => exact ⟨(result, true), rfl⟩
    | some result' =>
      exact findPositionInArguments_ok result' pos call (argument + 1) words fun w hw =>
        h w (List.mem_cons_of_mem _ hw)

end

end TclAnalyzer
