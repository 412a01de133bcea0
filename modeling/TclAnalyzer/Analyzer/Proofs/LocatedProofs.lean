import TclAnalyzer.Analyzer.Proofs.ParserRuleProofs
import TclAnalyzer.Analyzer.Spans

/-!
# Every word has a location of its file

Whatever the Tcl library answers, the location of a word in a parse tree is the one of its offset.
-/

namespace TclAnalyzer

/-- The location is that of its offset. -/
def SourceLocation.Of (file : SourceFile) (location : SourceLocation) : Prop :=
  makeSourceLocation file location.offset = .ok location

theorem SourceLocation.Of.of_made {file : SourceFile} {offset : Nat} {location : SourceLocation}
    (h : makeSourceLocation file offset = .ok location) : location.Of file := by
  obtain ⟨pos, -, hlocation⟩ := bind_eq_ok.mp h
  cases hlocation
  exact h

/-- All words of the data have locations of the file. -/
def LocatedData (file : SourceFile) (data : WordData) : Prop :=
  ∀ word ∈ allWordsOfData data, word.location.Of file

/-- The word and all words in it have locations of the file. -/
structure Word.Located (file : SourceFile) (word : Word) : Prop where
  location : word.location.Of file
  data : LocatedData file word.data

variable {file : SourceFile}

theorem located_words {words : List Word} :
    (∀ word ∈ allWords words, word.location.Of file) ↔ ∀ word ∈ words, word.Located file := by
  induction words with
  | nil => simp [allWords]
  | cons word words ih =>
    obtain ⟨type, location, text, data⟩ := word
    rw [allWords, List.forall_mem_cons, List.forall_mem_cons, List.forall_mem_append, ih]
    constructor
    · rintro ⟨hlocation, hdata, hwords⟩
      exact ⟨⟨hlocation, hdata⟩, hwords⟩
    · rintro ⟨⟨hlocation, hdata⟩, hwords⟩
      exact ⟨hlocation, hdata, hwords⟩

theorem located_calls {calls : List Call} :
    (∀ word ∈ allWordsOfCalls calls, word.location.Of file) ↔
      ∀ call ∈ calls, ∀ word ∈ call.words, word.Located file := by
  induction calls with
  | nil => simp [allWordsOfCalls]
  | cons call calls ih =>
    obtain ⟨type, words, ns⟩ := call
    rw [allWordsOfCalls, List.forall_mem_append, List.forall_mem_cons, located_words, ih]

theorem locatedData_nothing : LocatedData file .nothing := by
  simp [LocatedData, allWordsOfData]

theorem locatedData_words {words : List Word} (h : ∀ word ∈ words, word.Located file) :
    LocatedData file (.words words) := by
  rw [LocatedData, allWordsOfData]
  exact located_words.mpr h

theorem Word.Located.of_text {word : Word} (hlocation : word.location.Of file)
    (htext : word.IsText) : word.Located file :=
  ⟨hlocation, htext.2 ▸ locatedData_nothing⟩

/-! ## Words -/

/-- A parser whose scripts have words with locations of the file. -/
def LocatesWords (file : SourceFile) (nested : ScriptParser) : Prop :=
  ∀ context view script, context.file = file → nested context view = .ok script →
    ∀ word ∈ script.allWords, word.location.Of file

variable {interp : TclInterp} {nested : ScriptParser} {context : ParseContext} {parse : TclParse}

/-- The induction is on the fuel, for one word and for a sequence of words at once. -/
theorem parseWord_located (hn : LocatesWords context.file nested) (tokens : List Token) (fuel : Nat) :
    (∀ i word j, parseWord nested context tokens fuel i = .ok (word, j) →
      word.Located context.file) ∧
    ∀ max i words j, parseWords nested context tokens fuel max i = .ok (words, j) →
      ∀ word ∈ words, word.Located context.file := by
  induction fuel with
  | zero =>
    refine ⟨fun i word j h => ?_, fun max i words j h => ?_⟩
    · rw [parseWord] at h
      cases h
    · rw [parseWords] at h
      cases h
  | succ fuel ih =>
    obtain ⟨ihword, ihwords⟩ := ih
    constructor
    · intro i word j h
      cases parseWord_cases h with
      | simple _ _ _ hword => exact ihword _ _ _ hword
      | compound _ _ hat hdata hvec =>
        exact ⟨.of_made hat.location, hdata ▸ locatedData_words (ihwords _ _ _ _ hvec)⟩
      | text _ _ hat htext => exact .of_text (.of_made hat.location) htext
      | command _ _ _ hat _ hscript hdata =>
        refine ⟨.of_made hat.location, ?_⟩
        rw [LocatedData, hdata, allWordsOfData]
        exact hn _ _ _ rfl hscript
      | scalar _ _ _ hword =>
        obtain ⟨hlocation, hdata⟩ := ihword _ _ _ hword
        exact ⟨hlocation, hdata⟩
      | array _ _ _ _ _ hindex hat _ hdata =>
        refine ⟨.of_made hat.location, ?_⟩
        rw [LocatedData, hdata, allWordsOfData]
        exact located_words.mpr (ihwords _ _ _ _ hindex)
    · intro max i words j h
      rcases parseWords_cases h with ⟨rfl, -⟩ | ⟨first, rest, next, rfl, hfirst, hrest⟩
      · simp
      · exact List.forall_mem_cons.mpr ⟨ihword _ _ _ hfirst, ihwords _ _ _ _ hrest⟩

theorem errorWord_located {message : String} {word : Word}
    (h : ParseCommand.errorWord context parse message = .ok word) : word.Located context.file := by
  obtain ⟨location, hlocation, hword⟩ := bind_eq_ok.mp h
  cases hword
  exact ⟨.of_made hlocation, locatedData_nothing⟩

theorem parseCommandWord_located (hn : LocatesWords context.file nested) {i j : Nat} {word : Word}
    (h : ParseCommand.parseWord nested context parse i = .ok (word, j)) :
    word.Located context.file := by
  rcases parseCommandWord_cases h with ⟨herror, -⟩ | hword
  · exact errorWord_located herror
  · exact (parseWord_located hn _ _).1 _ _ _ hword

theorem wordToList_located {word word' : Word} (h : wordToList interp context word = .ok word')
    (hword : word.Located context.file) : word'.Located context.file := by
  rcases wordToList_cases h with ⟨rfl, -⟩ | ⟨elements, vec, rfl, -, -, hvec⟩
  · exact hword
  · refine ⟨hword.location, locatedData_words fun inner hinner => ?_⟩
    obtain ⟨found, -, hmakes⟩ := mem_of_forall₂_right hvec hinner
    exact .of_text (.of_made hmakes.location) ⟨hmakes.type, hmakes.data⟩

theorem parseArgs_located (hn : LocatesWords context.file nested) {i j : Nat} {word : Word}
    (h : ParseCommand.parseArgs interp nested context parse i = .ok (word, j)) :
    word.Located context.file := by
  rcases parseArgs_cases h with ⟨herror, -⟩ |
    ⟨plain, hplain, ⟨rfl, -⟩ | ⟨elements, texts, vec, rfl, -, -, htexts, hvec⟩⟩
  · exact errorWord_located herror
  · exact (parseWord_located hn _ _).1 _ _ _ hplain
  · have hlocation := ((parseWord_located hn _ _).1 _ _ _ hplain).location
    refine ⟨hlocation, locatedData_words fun arg harg => ?_⟩
    obtain ⟨text, htext, hlist⟩ := mem_of_forall₂_right hvec harg
    obtain ⟨found, -, hmakes⟩ := mem_of_forall₂_right htexts htext
    exact wordToList_located hlist (.of_text (.of_made hmakes.location) ⟨hmakes.type, hmakes.data⟩)

theorem parseBody_located (hn : LocatesWords context.file nested) {i j : Nat} {word : Word}
    (h : ParseCommand.parseBody nested context parse i = .ok (word, j)) :
    word.Located context.file := by
  rcases parseBody_cases h with ⟨herror, -⟩ |
    ⟨inner, hinner, ⟨rfl, -⟩ | ⟨script, hscript, -, rfl⟩⟩
  · exact errorWord_located herror
  · exact (parseWord_located hn _ _).1 _ _ _ hinner
  · refine ⟨((parseWord_located hn _ _).1 _ _ _ hinner).location, ?_⟩
    rw [LocatedData, allWordsOfData]
    exact hn _ _ _ rfl hscript

theorem take_located (hn : LocatesWords context.file nested) {taking : Taking} {i j : Nat}
    {word : Word} (h : taking.take interp nested context parse i = .ok (word, j)) :
    word.Located context.file := by
  cases taking with
  | word => exact parseCommandWord_located hn h
  | args => exact parseArgs_located hn h
  | body => exact parseBody_located hn h

/-! ## Commands and scripts -/

theorem parseCommand_located (hn : LocatesWords context.file nested) {call : Call}
    (h : parseCommand interp nested context parse = .ok (some call)) :
    ∀ word ∈ call.words, word.Located context.file := by
  obtain ⟨cmdWord, known, rest, i, j, -, hwords, hcmd, htakings, hrest, -⟩ :=
    parseCommand_takings h
  intro word hword
  rw [hwords, List.cons_append] at hword
  rcases List.mem_cons.mp hword with rfl | hword
  · exact parseCommandWord_located hn hcmd
  rcases List.mem_append.mp hword with hword | hword
  · obtain ⟨n, hget⟩ := List.getElem?_of_mem hword
    obtain ⟨i', j', htaken⟩ := htakings.get hget
    have hbody : LocatesWords
      ({ context with curNs := bodyNs context.curNs call (1 + n) } : ParseContext).file nested := hn
    exact take_located hbody htaken
  · obtain ⟨⟨vec, next⟩, hvec, hresult⟩ := bind_eq_ok.mp hrest
    cases hresult
    exact (parseWord_located hn _ _).2 _ _ _ _ hvec word hword

theorem parseScriptFrom_located (hn : LocatesWords context.file nested) {fuel : Nat}
    {view : StringView} {commands : List Call}
    (h : parseScriptFrom interp nested context fuel view = .ok commands) :
    ∀ call ∈ commands, ∀ word ∈ call.words, word.Located context.file := by
  induction fuel generalizing view commands with
  | zero => cases h
  | succ fuel ih =>
    rw [parseScriptFrom] at h
    by_cases hempty : view.bytes = []
    · rw [if_pos hempty] at h
      cases h
      simp
    rw [if_neg hempty] at h
    cases hparse : interp.parseCommand view with
    | none =>
      rw [hparse] at h
      cases h
      simp
    | some parse =>
      rw [hparse] at h
      obtain ⟨first, hfirst, h⟩ := bind_eq_ok.mp h
      obtain ⟨rest, hrest, h⟩ := bind_eq_ok.mp (ite_throw_ok h)
      cases h
      intro call hcall
      rcases List.mem_append.mp hcall with hcall | hcall
      · rw [Option.mem_toList] at hcall
        cases hcall
        exact parseCommand_located hn hfirst
      · exact ih hrest call hcall

/-- The induction is on the depth of nesting. -/
theorem parseScriptAt_located (file : SourceFile) (interp : TclInterp) (depth : Nat) :
    LocatesWords file (parseScriptAt interp depth) := by
  induction depth with
  | zero =>
    intro context view script _ h
    cases h
  | succ depth ih =>
    rintro context view script rfl h
    obtain ⟨location, -, h⟩ := bind_eq_ok.mp h
    obtain ⟨commands, hcommands, h⟩ := bind_eq_ok.mp h
    cases h
    rw [Script.allWords]
    exact located_calls.mpr (parseScriptFrom_located ih hcommands)

/-- The words of a parse tree have the locations of their offsets. -/
theorem parseScript_located {view : StringView} {script : Script}
    (h : parseScript interp context view = .ok script) :
    ∀ word ∈ script.allWords, makeSourceLocation context.file word.location.offset =
      .ok word.location :=
  parseScriptAt_located context.file interp _ context view script rfl h

end TclAnalyzer
