import TclAnalyzer.Analyzer.Substitutions
import TclAnalyzer.Analyzer.Proofs.FaultFreeProofs

/-!
# What parsing keeps of a command

The command substitutions and the bodies of a command, read off the relation between the tokens of the
command and the words of its call.
-/

namespace TclAnalyzer

variable {interp : TclInterp} {nested : ScriptParser} {context : ParseContext}
  {fileName contents : Str} {group components : List Token} {groups : List (List Token)}
  {call : Call} {word : Word} {words : List Word} {parse : TclParse}

/-! ## Groups of tokens -/

theorem wordGroups_length {last first n : Nat} {tokens : List Token}
    (h : WordTokens last first n tokens) : (wordGroups tokens).length = n := by
  induction h with
  | nil =>
    rw [wordGroups]
    rfl
  | @simple _ _ token text rest _ hcount _ _ _ _ _ ih =>
    rw [wordGroups_pair hcount, List.length_cons, ih]
  | compound _ hcount _ _ _ ih => rw [wordGroups_append hcount, List.length_cons, ih]

theorem TakenWords.length_eq {k : Nat} (h : TakenWords interp nested context call k groups words) :
    words.length = groups.length := by
  induction h with
  | nil => rfl
  | cons _ _ ih => rw [List.length_cons, List.length_cons, ih]

theorem TakenWords.get {k : Nat} (h : TakenWords interp nested context call k groups words) :
    ∀ {i : Nat}, groups[i]? = some group → words[i]? = some word →
      TakenWord interp nested { context with curNs := bodyNs context.curNs call (k + i) }
        (call.type.taking (k + i)) group word := by
  induction h with
  | nil =>
    intro i hgroup
    cases hgroup
  | @cons k _ _ _ _ hword _ ih =>
    intro i hgroup hword'
    cases i with
    | zero =>
      cases hgroup
      cases hword'
      exact hword
    | succ i =>
      rw [← Nat.succ_add_eq_add_succ]
      exact ih hgroup hword'

theorem TakenWords.exists_word {k i : Nat} (h : TakenWords interp nested context call k groups words)
    (hgroup : groups[i]? = some group) : ∃ word, words[i]? = some word := by
  obtain ⟨hi, -⟩ := List.getElem?_eq_some_iff.mp hgroup
  rw [← h.length_eq] at hi
  exact ⟨words[i], List.getElem?_eq_getElem hi⟩

/-! ## Command substitutions -/

theorem Word.IsText.scriptWordsOf_eq (h : word.IsText) : scriptWordsOf word = [] := by
  obtain ⟨type, location, text, data⟩ := word
  obtain ⟨-, rfl⟩ := h
  rfl

theorem scriptWords_texts (h : ∀ word ∈ words, word.IsText) : scriptWords words = [] := by
  induction words with
  | nil => rfl
  | cons word words ih =>
    rw [scriptWords, (h word List.mem_cons_self).scriptWordsOf_eq,
      ih fun inner hinner => h inner (List.mem_cons_of_mem word hinner)]
    rfl

/-- A list of arguments has no scripts. -/
theorem scriptWords_elements (h : ∀ word ∈ words, word.IsElement) : scriptWords words = [] := by
  induction words with
  | nil => rfl
  | cons word words ih =>
    have hword : scriptWordsOf word = [] := by
      rcases h word List.mem_cons_self with htext | ⟨-, vec, hdata, htexts⟩
      · exact htext.scriptWordsOf_eq
      · obtain ⟨type, location, text, data⟩ := word
        obtain rfl : data = .words vec := hdata
        exact scriptWords_texts htexts
    rw [scriptWords, hword, ih fun inner hinner => h inner (List.mem_cons_of_mem word hinner)]
    rfl

/-- The components of a word have one script for each command substitution, in the same order. -/
theorem ComponentWords.substitutions (h : ComponentWords nested context components words) :
    List.Forall₂ (IsSubstitution nested context) (commandTokens components) (scriptWords words) := by
  induction h with
  | nil => exact .nil
  | @text token tokens word words htype _ htext _ ih =>
    have hfilter : commandTokens (token :: tokens) = commandTokens tokens :=
      List.filter_cons_of_neg (by rcases htype with htype | htype <;> simp [htype])
    rw [hfilter, scriptWords, htext.scriptWordsOf_eq]
    exact ih
  | @command token tokens word words script htype hat hwordtype hscript hdata _ ih =>
    have hfilter : commandTokens (token :: tokens) = token :: commandTokens tokens :=
      List.filter_cons_of_pos (by simp [htype])
    have hword : scriptWordsOf word = [word] := by
      obtain ⟨type, location, text, data⟩ := word
      obtain rfl : data = .script script := hdata
      rfl
    rw [hfilter, scriptWords, hword]
    exact .cons ⟨hwordtype, hat, script, hdata, hscript⟩ ih
  | @scalar token name tokens word words htype _ hname _ _ hdata _ ih =>
    have hfilter : commandTokens (token :: name :: tokens) = commandTokens tokens := by
      simp [commandTokens, htype, hname]
    have hword : scriptWordsOf word = [] := by
      obtain ⟨type, location, text, data⟩ := word
      obtain rfl : data = .nothing := hdata
      rfl
    rw [hfilter, scriptWords, hword]
    exact ih
  | @array token name indexTokens tokens word arrayName index words htype _ hname _ _ hdata _ _ ihindex
      ih =>
    have hfilter : commandTokens (token :: name :: (indexTokens ++ tokens)) =
        commandTokens indexTokens ++ commandTokens tokens := by
      simp [commandTokens, htype, hname]
    have hword : scriptWordsOf word = scriptWords index := by
      obtain ⟨type, location, text, data⟩ := word
      obtain rfl : data = .arrayAccess arrayName index := hdata
      rfl
    rw [hfilter, scriptWords, hword]
    exact List.rel_append ihindex ih

theorem GroupWord.substitutions (h : GroupWord nested context group word) :
    List.Forall₂ (IsSubstitution nested context) (commandTokens group) word.substitutions := by
  cases h with
  | @simple token text _ htype htext _ hisText =>
    have hnone : commandTokens [token, text] = [] := by simp [commandTokens, htype, htext]
    rw [hnone, Word.substitutions, hisText.2]
    exact .nil
  | @compound token components _ vec htype _ hdata hwords =>
    have hfilter : commandTokens (token :: components) = commandTokens components :=
      List.filter_cons_of_neg (by rcases htype with ⟨htype, -⟩ | ⟨htype, -⟩ <;> simp [htype])
    rw [hfilter, Word.substitutions, hdata]
    exact hwords.substitutions

/-- A word that is text has nothing to substitute. -/
theorem GroupWord.commandTokens_eq (h : GroupWord nested context group word)
    (htext : word.type = .TEXT) : commandTokens group = [] := by
  cases h with
  | simple htype htext => simp [commandTokens, htype, htext]
  | compound htype =>
    rcases htype with ⟨-, htype⟩ | ⟨-, htype⟩ <;> cases htext.symm.trans htype

theorem GroupWord.text_eq (h : GroupWord nested context group word) (hne : commandTokens group ≠ []) :
    ∃ token, group.head? = some token ∧ word.text = context.file.view token.start token.size := by
  cases h with
  | @simple token text _ htype htext => exact absurd (by simp [commandTokens, htype, htext]) hne
  | @compound token components _ vec _ hat => exact ⟨token, rfl, hat.text⟩

/-- Only the words that become lists of arguments lose command substitutions. -/
theorem TakenWord.substitutions_iff {taking : Taking}
    (h : TakenWord interp nested context taking group word) :
    List.Forall₂ (IsSubstitution nested context) (commandTokens group) word.substitutions ↔
      ¬ (taking = .args ∧ commandTokens group ≠ [] ∧ ∃ token, group.head? = some token ∧
        SplitsToList interp context.file (context.file.view token.start token.size)) := by
  cases h with
  | word hgroup => exact iff_of_true hgroup.substitutions (by simp)
  | plain hgroup hplain =>
    refine iff_of_true hgroup.substitutions ?_
    rintro ⟨-, hne, token, hhead, hsplits⟩
    obtain ⟨token', hhead', htext⟩ := hgroup.text_eq hne
    cases hhead.symm.trans hhead'
    rw [← htext] at hsplits
    exact hplain hsplits
  | @list _ plain _ vec hgroup hsplits helements hword =>
    have hnone : word.substitutions = [] := by
      rw [hword]
      exact scriptWords_elements helements
    rw [hnone, List.forall₂_nil_right_iff]
    constructor
    · rintro hnil ⟨-, hne, -⟩
      exact hne hnil
    · intro hkept
      by_contra hne
      obtain ⟨token, hhead, htext⟩ := hgroup.text_eq hne
      exact hkept ⟨rfl, hne, token, hhead, htext ▸ hsplits⟩
  | script hgroup htext _ hword =>
    have hnone : word.substitutions = [] := by
      rw [hword]
      rfl
    rw [hgroup.commandTokens_eq htext, hnone]
    exact iff_of_true .nil (by simp)
  | unparsed hgroup => exact iff_of_true hgroup.substitutions (by simp)

/-! ## The command word -/

theorem GroupWord.isSimpleWord_iff (h : GroupWord nested context group word) (text : Str) :
    word.type = .TEXT ∧ word.text.bytes = text ↔ IsSimpleWord context.file text group := by
  cases h with
  | @simple token inner _ htype _ hat hisText =>
    rw [hat.text]
    constructor
    · rintro ⟨-, hbytes⟩
      exact ⟨token, inner, rfl, htype, hbytes⟩
    · rintro ⟨token', inner', hgroup, -, hbytes⟩
      cases hgroup
      exact ⟨hisText.1, hbytes⟩
  | @compound token components _ vec htype =>
    refine iff_of_false ?_ ?_
    · rintro ⟨htext, -⟩
      rcases htype with ⟨-, htype⟩ | ⟨-, htype⟩ <;> cases htext.symm.trans htype
    · rintro ⟨token', inner, hgroup, hsimple, -⟩
      cases hgroup
      rcases htype with ⟨htype, -⟩ | ⟨htype, -⟩ <;> cases hsimple.symm.trans htype

theorem CallType.taking_args_iff {type : CallType} {k : Nat} :
    type.taking k = .args ↔ type = .PROC ∧ k = 2 := by
  unfold CallType.taking
  split <;> simp_all

/-- What `ParseCommand` makes of a command of a file: its words, and when it is a `proc`. -/
theorem parseCommand_words (hcontract : interp.Contract)
    (hfile : context.file = makeSourceFile fileName contents) {data size : Nat}
    (hdata : data ≤ contents.length) (hparse : ParsedCommand (context.file.view data size) parse)
    (hwords : 1 ≤ parse.numWords) : ∃ call,
    parseCommand interp (parseScript interp) context parse = .ok (some call) ∧
      TakenWords interp (parseScript interp) context call 0 (wordGroups parse.tokens) call.words ∧
      (call.type = .PROC ↔ ∃ cmd rest, wordGroups parse.tokens = cmd :: rest ∧ rest.length = 3 ∧
        IsSimpleWord context.file (bytes "proc") cmd) := by
  have hnested : ParsesShorter (parseScript interp) fileName contents (contents.length + 1) := by
    intro context' data' size' hfile' hdata' _
    exact parseScript_ok hcontract hfile' hdata' size'
  have hlast : data + (context.file.view data size).bytes.length ≤ contents.length := by
    have hle := view_finish_le context.file data size
    rw [hfile] at hle ⊢
    exact hle hdata
  have htokens : WordTokens (data + (context.file.view data size).bytes.length) data parse.numWords
      parse.tokens := hparse.words
  obtain ⟨call, cmdWord, hcall, -, htaken, hcmdWord, hproc⟩ :=
    parseCommand_takes hfile hnested hlast hcontract (by omega) hwords htokens
  refine ⟨call, hcall, htaken, hproc.trans ?_⟩
  have hlength := wordGroups_length htokens
  obtain ⟨cmd, rest, hgroups⟩ := List.exists_cons_of_length_pos (hlength ▸ hwords)
  have hfirst : (wordGroups parse.tokens)[0]? = some cmd := by
    rw [hgroups]
    rfl
  have hcmd := htaken.get hfirst hcmdWord
  have htaking : call.type.taking 0 = .word := by cases call.type <;> rfl
  rw [bodyNs_eq_self (by simp), htaking] at hcmd
  cases hcmd with
  | word hgroup =>
    rw [← and_assoc, hgroup.isSimpleWord_iff, hgroups]
    have hcount : parse.numWords = rest.length + 1 := by rw [← hlength, hgroups, List.length_cons]
    rw [hcount]
    constructor
    · rintro ⟨hsimple, hfour⟩
      exact ⟨cmd, rest, rfl, by omega, hsimple⟩
    · rintro ⟨cmd', rest', heq, hthree, hsimple⟩
      cases heq
      exact ⟨hsimple, by omega⟩

/-! ## What is kept -/

/-- The call of a command keeps each command substitution as one script, unless the command is a `proc`
with a command substitution in its arguments and their text is a list that does not have exactly one
element. -/
theorem parseCommand_substitutions_iff (hcontract : interp.Contract)
    (hfile : context.file = makeSourceFile fileName contents) {data size : Nat}
    (hdata : data ≤ contents.length) (hparse : ParsedCommand (context.file.view data size) parse)
    (hwords : 1 ≤ parse.numWords) : ∃ call,
    parseCommand interp (parseScript interp) context parse = .ok (some call) ∧
      (call.HoldsSubstitutions interp context (wordGroups parse.tokens) ↔
        ¬ LosesSubstitution interp context parse) := by
  obtain ⟨call, hcall, htaken, hproc⟩ := parseCommand_words hcontract hfile hdata hparse hwords
  refine ⟨call, hcall, ?_⟩
  constructor
  · rintro ⟨-, hkept⟩ ⟨cmd, name, args, body, hgroups, hcmd, hne, token, hhead, hsplits⟩
    have htype : call.type = .PROC := hproc.mpr ⟨cmd, _, hgroups, rfl, hcmd⟩
    have hargs : (wordGroups parse.tokens)[2]? = some args := by
      rw [hgroups]
      rfl
    obtain ⟨word, hword⟩ := htaken.exists_word hargs
    refine (htaken.get hargs hword).substitutions_iff.mp ?_ ⟨?_, hne, token, hhead, hsplits⟩
    · rw [Nat.zero_add]
      exact hkept 2 args word hargs hword
    · exact CallType.taking_args_iff.mpr ⟨htype, rfl⟩
  · intro hnot
    refine ⟨htaken.length_eq, fun k group word hgroup hword => ?_⟩
    have htakenWord := htaken.get hgroup hword
    rw [Nat.zero_add] at htakenWord
    refine htakenWord.substitutions_iff.mpr ?_
    rintro ⟨htaking, hne, token, hhead, hsplits⟩
    obtain ⟨htype, rfl⟩ := CallType.taking_args_iff.mp htaking
    obtain ⟨cmd, rest, hgroups, hthree, hcmd⟩ := hproc.mp htype
    obtain ⟨name, args, body, rfl⟩ := List.length_eq_three.mp hthree
    rw [hgroups] at hgroup
    cases hgroup
    exact hnot ⟨cmd, name, group, body, hgroups, hcmd, hne, token, hhead, hsplits⟩

/-! ## A substitution in the arguments -/

/-- The file `proc p [f a] {}`. -/
def bracketArgs : SourceFile := makeSourceFile [] (bytes "proc p [f a] {}")

def bracketArgsParse : TclParse :=
  { commandStart := 0, commandSize := 15, commentSize := 0, numWords := 4, tokens :=
    [⟨.SIMPLE_WORD, 0, 4, 1⟩, ⟨.TEXT, 0, 4, 0⟩, ⟨.SIMPLE_WORD, 5, 1, 1⟩, ⟨.TEXT, 5, 1, 0⟩,
      ⟨.WORD, 7, 5, 1⟩, ⟨.COMMAND, 7, 5, 0⟩, ⟨.SIMPLE_WORD, 13, 2, 1⟩, ⟨.TEXT, 14, 0, 0⟩] }

/-- The Tcl library on that file. -/
def bracketArgsInterp : TclInterp where
  parseCommand view :=
    if view = bracketArgs.view 0 15 then some bracketArgsParse
    else if view = bracketArgs.view 8 3 then
      some { commandStart := 8, commandSize := 3, commentSize := 0, numWords := 2, tokens :=
        [⟨.SIMPLE_WORD, 8, 1, 1⟩, ⟨.TEXT, 8, 1, 0⟩, ⟨.SIMPLE_WORD, 10, 1, 1⟩, ⟨.TEXT, 10, 1, 0⟩] }
    else none
  findElement view :=
    if view = bracketArgs.view 7 5 then some { element := 7, next := 10, size := 2 }
    else if view = bracketArgs.view 7 2 then some { element := 7, next := 9, size := 2 }
    else if view = bracketArgs.view 10 2 then some { element := 10, next := 12, size := 2 }
    else if view.bytes = [] then some { element := view.data, next := view.data, size := 0 }
    else none

/-- The arguments become the list of `[f` and `a]`, and the command `f` is gone. -/
theorem bracketArgs_lost : ∃ call,
    parseCommand bracketArgsInterp (parseScript bracketArgsInterp) { file := bracketArgs, curNs := [] }
      bracketArgsParse = .ok (some call) ∧
    commandTokens bracketArgsParse.tokens = [⟨.COMMAND, 7, 5, 0⟩] ∧
    call.words.flatMap Word.substitutions = [] ∧
    ¬ call.HoldsSubstitutions bracketArgsInterp { file := bracketArgs, curNs := [] }
      (wordGroups bracketArgsParse.tokens) := by
  refine ⟨_, rfl, rfl, rfl, ?_⟩
  rintro ⟨-, hkept⟩
  have hgroup : (wordGroups bracketArgsParse.tokens)[2]? =
      some [⟨.WORD, 7, 5, 1⟩, ⟨.COMMAND, 7, 5, 0⟩] := by
    simp [bracketArgsParse, wordGroups]
  have hpair := (hkept 2 _ _ hgroup rfl).length_eq
  exact absurd hpair (by decide)

theorem lastArgs_substitutions_iff : ∃ call,
    parseCommand lastArgsInterp (parseScript lastArgsInterp) { file := lastArgs, curNs := [] }
      lastArgsParse = .ok (some call) ∧
    (call.HoldsSubstitutions lastArgsInterp { file := lastArgs, curNs := [] }
      (wordGroups lastArgsParse.tokens) ↔
      ¬ LosesSubstitution lastArgsInterp { file := lastArgs, curNs := [] } lastArgsParse) := by
  have hfile : ({ file := lastArgs, curNs := [] } : ParseContext).file =
      makeSourceFile [] (bytes "proc f {a args} {}") := rfl
  exact parseCommand_substitutions_iff lastArgs_contract hfile (Nat.zero_le _)
    lastArgs_parsedCommand (by decide)

/-! ## Bodies -/

/-- A word of text comes as a simple word, and its text is that between its delimiters. -/
theorem GroupWord.bodyText_eq (h : GroupWord nested context group word) (htext : word.type = .TEXT) :
    word.text = bodyText context.file group ∧
      ∃ token, group.head? = some token ∧ token.type = .SIMPLE_WORD := by
  cases h with
  | @simple token text _ htype _ hat =>
    refine ⟨?_, token, rfl, htype⟩
    rw [hat.text, bodyText]
    simp
  | compound htype =>
    rcases htype with ⟨-, htype⟩ | ⟨-, htype⟩ <;> cases htext.symm.trans htype

/-- A literal body is the script of its text exactly when it comes as a simple word. -/
theorem parseCommand_body_iff (hcontract : interp.Contract)
    (hfile : context.file = makeSourceFile fileName contents) {data size : Nat}
    (hdata : data ≤ contents.length) (hparse : ParsedCommand (context.file.view data size) parse)
    (hwords : 1 ≤ parse.numWords) : ∃ call,
    parseCommand interp (parseScript interp) context parse = .ok (some call) ∧
      ∀ k group, (wordGroups parse.tokens)[k]? = some group → call.type.taking k = .body →
        IsLiteral group → (call.HoldsBody interp context k group ↔
          ∃ token, group.head? = some token ∧ token.type = .SIMPLE_WORD) := by
  obtain ⟨call, hcall, htaken, -⟩ := parseCommand_words hcontract hfile hdata hparse hwords
  refine ⟨call, hcall, fun k group hgroup htaking _ => ?_⟩
  obtain ⟨word, hword⟩ := htaken.exists_word hgroup
  have htakenWord := htaken.get hgroup hword
  rw [Nat.zero_add, htaking] at htakenWord
  cases htakenWord with
  | script hgroupWord htext hscript hbody =>
    obtain ⟨hbodyText, hsimple⟩ := hgroupWord.bodyText_eq htext
    rw [hbodyText] at hscript
    refine iff_of_true ⟨word, _, hword, ?_, ?_, hscript⟩ hsimple
    · rw [hbody]
    · rw [hbody]
  | unparsed hgroupWord hne =>
    refine iff_of_false ?_ ?_
    · rintro ⟨word', script, hword', htype, -⟩
      cases hword.symm.trans hword'
      cases hgroupWord with
      | simple _ _ _ hisText => exact hne hisText.1
      | compound htypes =>
        rcases htypes with ⟨-, htype'⟩ | ⟨-, htype'⟩ <;> cases htype.symm.trans htype'
    · rintro ⟨token, hhead, hsimple⟩
      cases hgroupWord with
      | simple _ _ _ hisText => exact hne hisText.1
      | compound htypes =>
        cases hhead
        rcases htypes with ⟨htype, -⟩ | ⟨htype, -⟩ <;> cases hsimple.symm.trans htype

/-- The file `while 1 {f \<newline>g}`. -/
def continuedBody : SourceFile := makeSourceFile [] (bytes "while 1 \x7bf \\\ng\x7d")

def continuedBodyParse : TclParse :=
  { commandStart := 0, commandSize := 15, commentSize := 0, numWords := 3, tokens :=
    [⟨.SIMPLE_WORD, 0, 5, 1⟩, ⟨.TEXT, 0, 5, 0⟩, ⟨.SIMPLE_WORD, 6, 1, 1⟩, ⟨.TEXT, 6, 1, 0⟩,
      ⟨.WORD, 8, 7, 3⟩, ⟨.TEXT, 9, 2, 0⟩, ⟨.BS, 11, 2, 0⟩, ⟨.TEXT, 13, 1, 0⟩] }

/-- The Tcl library on that file. -/
def continuedBodyInterp : TclInterp where
  parseCommand view :=
    if view = continuedBody.view 0 15 then some continuedBodyParse
    else if view = continuedBody.view 9 5 then
      some { commandStart := 9, commandSize := 5, commentSize := 0, numWords := 2, tokens :=
        [⟨.SIMPLE_WORD, 9, 1, 1⟩, ⟨.TEXT, 9, 1, 0⟩, ⟨.SIMPLE_WORD, 13, 1, 1⟩, ⟨.TEXT, 13, 1, 0⟩] }
    else none
  findElement _ := none

/-- The body with the line continuation stays a list of three tokens. -/
theorem continuedBody_unparsed : ∃ call group,
    parseCommand continuedBodyInterp (parseScript continuedBodyInterp)
      { file := continuedBody, curNs := [] } continuedBodyParse = .ok (some call) ∧
    call.type = .WHILE ∧ (wordGroups continuedBodyParse.tokens)[2]? = some group ∧
    IsLiteral group ∧ ¬ call.HoldsBody continuedBodyInterp { file := continuedBody, curNs := [] } 2
      group := by
  refine ⟨_, [⟨.WORD, 8, 7, 3⟩, ⟨.TEXT, 9, 2, 0⟩, ⟨.BS, 11, 2, 0⟩, ⟨.TEXT, 13, 1, 0⟩], rfl, rfl,
    ?_, ?_, ?_⟩
  · simp [continuedBodyParse, wordGroups]
  · simp [IsLiteral]
  · rintro ⟨word, script, hword, htype, -⟩
    cases hword
    cases htype

theorem lastArgs_body_iff : ∃ call,
    parseCommand lastArgsInterp (parseScript lastArgsInterp) { file := lastArgs, curNs := [] }
      lastArgsParse = .ok (some call) ∧
    ∀ k group, (wordGroups lastArgsParse.tokens)[k]? = some group → call.type.taking k = .body →
      IsLiteral group → (call.HoldsBody lastArgsInterp { file := lastArgs, curNs := [] } k group ↔
        ∃ token, group.head? = some token ∧ token.type = .SIMPLE_WORD) := by
  have hfile : ({ file := lastArgs, curNs := [] } : ParseContext).file =
      makeSourceFile [] (bytes "proc f {a args} {}") := rfl
  exact parseCommand_body_iff lastArgs_contract hfile (Nat.zero_le _)
    lastArgs_parsedCommand (by decide)

end TclAnalyzer
