import TclAnalyzer.Analyzer.Proofs.FaultFreeProofs

/-!
# The parser ends

Every script that `ParseScript` recurses into is shorter than the one around it: a body starts behind
the name of its command, and a substitution loses its brackets. The tokens of a command need not be
nested as they should for this.
-/

namespace TclAnalyzer

variable {interp : TclInterp} {nested nested' : ScriptParser} {context : ParseContext}
  {fileName contents : Str} {tokens : List Token} {parse : TclParse} {text : StringView}
  {length : Nat}

theorem bind_congr_ok {α β : Type} {x y : Except Fault α} {f g : α → Except Fault β} (hxy : x = y)
    (h : ∀ a, y = .ok a → f a = g a) : (x >>= f) = (y >>= g) := by
  subst hxy
  cases x with
  | ok a => exact h a rfl
  | error fault => rfl

/-! ## Where a word ends -/

/-- `ParseWord` goes forward. -/
theorem parseWord_lt (tokens : List Token) (fuel : Nat) :
    (∀ {i j : Nat} {word : Word}, parseWord nested context tokens fuel i = .ok (word, j) → i < j) ∧
    ∀ {max i j : Nat} {words : List Word},
      parseWords nested context tokens fuel max i = .ok (words, j) → i ≤ j := by
  induction fuel with
  | zero =>
    refine ⟨fun h => ?_, fun h => ?_⟩
    · rw [parseWord] at h
      cases h
    · rw [parseWords] at h
      cases h
  | succ fuel ih =>
    obtain ⟨ihword, ihwords⟩ := ih
    constructor
    · intro i j word h
      cases parseWord_cases h with
      | simple _ _ _ hword => exact Nat.lt_of_succ_lt (ihword hword)
      | compound _ _ _ _ hvec => exact ihwords hvec
      | text => exact Nat.lt_succ_self i
      | command => exact Nat.lt_succ_self i
      | scalar _ _ _ hword => exact Nat.lt_of_succ_lt (ihword hword)
      | array _ _ _ hname _ hindex =>
        have hlt := ihword hname
        have hle := ihwords hindex
        omega
    · intro max i j words h
      rcases parseWords_cases h with ⟨-, rfl⟩ | ⟨word, rest, next, -, hword, hrest⟩
      · exact Nat.le_refl _
      · exact (ihword hword).le.trans (ihwords hrest)

theorem mem_drop_of_getElem? {α : Type} {l : List α} {i : Nat} {a : α} (h : l[i]? = some a) :
    a ∈ l.drop i := by
  rw [List.mem_iff_getElem?]
  exact ⟨0, by rwa [List.getElem?_drop]⟩

/-- A word of text is that of a text, or of the component of a simple word. -/
theorem WordCase.text_inv {fuel i j : Nat} {word : Word}
    (h : WordCase nested context tokens fuel i word j) (htext : word.type = .TEXT) :
    ∃ token, tokens[i]? = some token ∧
      ((token.type = .SIMPLE_WORD ∧ parseWord nested context tokens fuel (i + 1) = .ok (word, j)) ∨
        ((token.type = .TEXT ∨ token.type = .BS) ∧ word.IsAt context token ∧ j = i + 1)) := by
  cases h with
  | simple htoken htype _ hword => exact ⟨_, htoken, .inl ⟨htype, hword⟩⟩
  | compound _ htype =>
    rcases htype with ⟨-, htype⟩ | ⟨-, htype⟩ <;> cases htype.symm.trans htext
  | text htoken htype hat => exact ⟨_, htoken, .inr ⟨htype, hat, rfl⟩⟩
  | command _ _ _ _ htype => cases htype.symm.trans htext
  | scalar => cases htext
  | array _ _ _ _ _ _ _ htype => cases htype.symm.trans htext

/-- A word of text has the text of a token from there on. -/
theorem parseWord_textToken {fuel : Nat} : ∀ {i j : Nat} {word : Word},
    parseWord nested context tokens fuel i = .ok (word, j) → word.type = .TEXT →
      ∃ token ∈ tokens.drop i, word.text = context.file.view token.start token.size := by
  induction fuel with
  | zero =>
    intro i j word h
    rw [parseWord] at h
    cases h
  | succ fuel ih =>
    intro i j word h htext
    obtain ⟨token, htoken, ⟨-, hword⟩ | ⟨-, hat, -⟩⟩ := (parseWord_cases h).text_inv htext
    · obtain ⟨inner, hmem, hinner⟩ := ih hword htext
      rw [← List.drop_drop] at hmem
      exact ⟨inner, List.mem_of_mem_drop hmem, hinner⟩
    · exact ⟨token, mem_drop_of_getElem? htoken, hat.text⟩

theorem Taking.take_le {taking : Taking} {i j : Nat} {word : Word}
    (h : taking.take interp nested context parse i = .ok (word, j)) : i ≤ j := by
  have hlt : ∀ {j : Nat} {word : Word}, parseWord nested context parse.tokens
      (ParseCommand.fuel parse) i = .ok (word, j) → i ≤ j := fun h =>
    ((parseWord_lt parse.tokens (ParseCommand.fuel parse)).1 h).le
  cases taking with
  | word =>
    rcases parseCommandWord_cases h with ⟨-, rfl⟩ | hword
    · exact Nat.le_refl _
    · exact hlt hword
  | args =>
    rcases parseArgs_cases h with ⟨-, rfl⟩ | ⟨inner, hinner, -⟩
    · exact Nat.le_refl _
    · exact hlt hinner
  | body =>
    rcases parseBody_cases h with ⟨-, rfl⟩ | ⟨inner, hinner, -⟩
    · exact Nat.le_refl _
    · exact hlt hinner

/-! ## The words before the rest -/

/-- A relation on computations that is kept when one is done after the other. -/
structure BindRelation (R : (α : Type) → Except Fault α → Except Fault α → Prop) : Prop where
  ok : ∀ {α : Type} (a : α), R α (.ok a) (.ok a)
  bind : ∀ {α β : Type} {x y : Except Fault α} {f g : α → Except Fault β}, R α x y →
    (∀ a, x = .ok a → R β (f a) (g a)) → R β (x >>= f) (y >>= g)

/-- What relates the words that a known command takes relates the whole of it. The bodies are behind
the command word. -/
theorem parseKnown_rule (nested' : ScriptParser)
    {R : (α : Type) → Except Fault α → Except Fault α → Prop} (hR : BindRelation R)
    {cmdWord : Word} {i : Nat}
    (hword : ∀ j, R _ (ParseCommand.parseWord nested context parse j)
      (ParseCommand.parseWord nested' context parse j))
    (hargs : ∀ j, R _ (ParseCommand.parseArgs interp nested context parse j)
      (ParseCommand.parseArgs interp nested' context parse j))
    (hbody : cmdWord.type = .TEXT → cmdWord.text.bytes ≠ [] → ∀ curNs j, i ≤ j →
      R _ (ParseCommand.parseBody nested { context with curNs } parse j)
        (ParseCommand.parseBody nested' { context with curNs } parse j)) :
    R _ (ParseCommand.parseKnown interp nested context parse cmdWord i)
      (ParseCommand.parseKnown interp nested' context parse cmdWord i) := by
  have hforward : ∀ taking : Taking, ∀ {j k : Nat} {word : Word},
      taking.take interp nested context parse j = .ok (word, k) → j ≤ k := fun _ _ _ _ h =>
    Taking.take_le h
  unfold ParseCommand.parseKnown
  dsimp only
  by_cases htext : cmdWord.type = .TEXT
  · rw [if_pos htext, if_pos htext]
    have hbody : ∀ {cmd : String}, cmdWord.text.bytes = bytes cmd → bytes cmd ≠ [] →
        ∀ curNs {j : Nat}, i ≤ j → R _ (ParseCommand.parseBody nested { context with curNs } parse j)
          (ParseCommand.parseBody nested' { context with curNs } parse j) := by
      intro cmd hcmd hne curNs j hj
      rw [← hcmd] at hne
      exact hbody htext hne curNs j hj
    by_cases hproc : cmdWord.text.bytes = bytes "proc" ∧ parse.numWords = 4
    · rw [if_pos hproc, if_pos hproc]
      refine hR.bind (hword i) fun ⟨name, i1⟩ h1 => ?_
      refine hR.bind (hargs i1) fun ⟨args, i2⟩ h2 => ?_
      have hle := (hforward .word h1).trans (hforward .args h2)
      exact hR.bind (hbody hproc.1 (by decide +kernel) _ hle) fun _ _ => hR.ok _
    rw [if_neg hproc, if_neg hproc]
    by_cases hwhile : cmdWord.text.bytes = bytes "while" ∧ parse.numWords = 3
    · rw [if_pos hwhile, if_pos hwhile]
      refine hR.bind (hword i) fun ⟨test, i1⟩ h1 => ?_
      have hle := hforward .word h1
      exact hR.bind (hbody hwhile.1 (by decide +kernel) _ hle) fun _ _ => hR.ok _
    rw [if_neg hwhile, if_neg hwhile]
    by_cases hfor : cmdWord.text.bytes = bytes "for" ∧ parse.numWords = 5
    · have hbody := @hbody _ hfor.1 (by decide +kernel)
      rw [if_pos hfor, if_pos hfor]
      refine hR.bind (hbody _ (Nat.le_refl i)) fun ⟨start, i1⟩ h1 => ?_
      refine hR.bind (hword i1) fun ⟨test, i2⟩ h2 => ?_
      have hle2 := (hforward .body h1).trans (hforward .word h2)
      refine hR.bind (hbody _ hle2) fun ⟨next, i3⟩ h3 => ?_
      have hle3 := hle2.trans (hforward .body h3)
      exact hR.bind (hbody _ hle3) fun _ _ => hR.ok _
    rw [if_neg hfor, if_neg hfor]
    by_cases hforeach : cmdWord.text.bytes = bytes "foreach" ∧ parse.numWords = 4
    · rw [if_pos hforeach, if_pos hforeach]
      refine hR.bind (hword i) fun ⟨names, i1⟩ h1 => ?_
      refine hR.bind (hword i1) fun ⟨list, i2⟩ h2 => ?_
      have hle := (hforward .word h1).trans (hforward .word h2)
      exact hR.bind (hbody hforeach.1 (by decide +kernel) _ hle) fun _ _ => hR.ok _
    rw [if_neg hforeach, if_neg hforeach]
    by_cases hns : cmdWord.text.bytes = bytes "namespace" ∧ parse.numWords > 1
    · rw [if_pos hns, if_pos hns]
      refine hR.bind (hword i) fun ⟨subCmd, i1⟩ h1 => ?_
      dsimp only
      split
      · refine hR.bind (hword i1) fun ⟨arg, i2⟩ h2 => ?_
        have hle := (hforward .word h1).trans (hforward .word h2)
        exact hR.bind (hbody hns.1 (by decide +kernel) _ hle) fun _ _ => hR.ok _
      · exact hR.ok _
    · rw [if_neg hns, if_neg hns]
      exact hR.ok _
  · rw [if_neg htext, if_neg htext]
    exact hR.ok _

/-! ## Recursion on shorter texts -/

/-- The two parsers return the same for texts shorter than `length`. -/
def AgreeBelow (length : Nat) (nested nested' : ScriptParser) : Prop :=
  ∀ context text, text.bytes.length < length → nested context text = nested' context text

theorem AgreeBelow.mono {length' : Nat} (h : AgreeBelow length nested nested')
    (hle : length' ≤ length) : AgreeBelow length' nested nested' :=
  fun context text hlt => h context text (hlt.trans_le hle)

/-- `ParseWord` recurses into what is between the brackets of a token. -/
theorem parseWord_congr (hagree : AgreeBelow length nested nested')
    (htokens : ∀ token ∈ tokens, token.size ≤ length) (fuel : Nat) :
    (∀ i, parseWord nested context tokens fuel i = parseWord nested' context tokens fuel i) ∧
    ∀ max i, parseWords nested context tokens fuel max i =
      parseWords nested' context tokens fuel max i := by
  induction fuel with
  | zero =>
    refine ⟨fun i => ?_, fun max i => ?_⟩
    · rw [parseWord, parseWord]
    · rw [parseWords, parseWords]
  | succ fuel ih =>
    obtain ⟨ihword, ihwords⟩ := ih
    constructor
    · intro i
      rw [parseWord, parseWord]
      refine bind_congr_ok rfl fun token htoken => ?_
      have hsize := htokens token (List.mem_of_getElem? (nth_eq_ok.mp htoken))
      simp only [ihword, ihwords]
      cases token.type with
      | COMMAND =>
        refine bind_congr_ok rfl fun location _ => ?_
        by_cases hbrackets : token.size < 2
        · rw [if_pos hbrackets, if_pos hbrackets]
          rfl
        · have hlength := view_length_le context.file (token.start + 1) (token.size - 2)
          rw [if_neg hbrackets, if_neg hbrackets, hagree context _ (by omega)]
      | SIMPLE_WORD | WORD | EXPAND_WORD | TEXT | BS | VARIABLE | SUB_EXPR | OPERATOR => rfl
    · intro max i
      rw [parseWords, parseWords]
      simp only [ihword, ihwords]

section Commands

variable (hagree : AgreeBelow length nested nested')
  (htokens : ∀ token ∈ parse.tokens, token.size ≤ length)

include hagree htokens

theorem parseCommandWord_congr (context : ParseContext) (i : Nat) :
    ParseCommand.parseWord nested context parse i = ParseCommand.parseWord nested' context parse i := by
  unfold ParseCommand.parseWord
  rw [(parseWord_congr hagree htokens _).1 i]

theorem parseArgs_congr (context : ParseContext) (i : Nat) :
    ParseCommand.parseArgs interp nested context parse i =
      ParseCommand.parseArgs interp nested' context parse i := by
  unfold ParseCommand.parseArgs
  rw [(parseWord_congr hagree htokens _).1 i]

theorem parseRest_congr (context : ParseContext) (i : Nat) :
    ParseCommand.parseRest nested context parse i = ParseCommand.parseRest nested' context parse i := by
  unfold ParseCommand.parseRest
  rw [(parseWord_congr hagree htokens _).2 _ i]

/-- A body behind the first word is shorter than the script. -/
theorem parseBody_congr {first i : Nat} (hfirst : ∀ token ∈ parse.tokens.drop first,
    token.size < length) (hi : first ≤ i) (context : ParseContext) :
    ParseCommand.parseBody nested context parse i = ParseCommand.parseBody nested' context parse i := by
  unfold ParseCommand.parseBody
  rw [(parseWord_congr hagree htokens _).1 i]
  split
  · rfl
  · refine bind_congr_ok rfl fun ⟨word, j⟩ hword => ?_
    dsimp only
    by_cases htext : word.type = .TEXT
    · obtain ⟨token, hmem, htoken⟩ := parseWord_textToken hword htext
      have hsize := hfirst token ((List.drop_sublist_drop_left parse.tokens hi).subset hmem)
      have hlength := view_length_le context.file token.start token.size
      rw [← htoken] at hlength
      rw [if_pos htext, if_pos htext, hagree context _ (by omega)]
    · rw [if_neg htext, if_neg htext]

theorem parseKnown_congr {cmdWord : Word} {i : Nat}
    (hfirst : cmdWord.type = .TEXT → cmdWord.text.bytes ≠ [] →
      ∀ token ∈ parse.tokens.drop i, token.size < length) :
    ParseCommand.parseKnown interp nested context parse cmdWord i =
      ParseCommand.parseKnown interp nested' context parse cmdWord i := by
  have heq : BindRelation fun _ x y => x = y :=
    ⟨fun _ => rfl, fun hxy h => bind_congr_ok hxy fun a ha => h a (hxy.trans ha)⟩
  refine parseKnown_rule nested' heq (parseCommandWord_congr hagree htokens context)
    (parseArgs_congr hagree htokens context) fun htext hne curNs j hj => ?_
  exact parseBody_congr hagree htokens (hfirst htext hne) hj _

end Commands

/-- What comes behind a command word that is a text with some bytes is shorter than the script. -/
theorem FirstWord.behind_lt (h : FirstWord parse.tokens) {first : Nat}
    (hlies : ∀ token ∈ parse.tokens, token.LiesIn first (first + length)) {cmdWord : Word} {i : Nat}
    (hword : ParseCommand.parseWord nested context parse 0 = .ok (cmdWord, i))
    (htext : cmdWord.type = .TEXT) (hne : cmdWord.text.bytes ≠ []) :
    ∀ token ∈ parse.tokens.drop i, token.size < length := by
  rcases parseCommandWord_cases hword with ⟨herror, -⟩ | hword
  · cases (errorWord_ok herror).1.symm.trans htext
  · rw [ParseCommand.fuel] at hword
    generalize parse.tokens = tokens at h hlies hword
    obtain ⟨token, htoken, ⟨htype, hinner⟩ | ⟨htype, -, -⟩⟩ :=
      (parseWord_cases hword).text_inv htext
    · cases h with
      | nil => cases htoken
      | @simple root text others hroot htexttype hbehind =>
        obtain ⟨text', htext', ⟨htype', -⟩ | ⟨-, hat, rfl⟩⟩ := (parseWord_cases hinner).text_inv htext
        · cases htext'
          cases htexttype.symm.trans htype'
        · cases htext'
          intro token' htoken'
          have hsize := view_length_le context.file text.start text.size
          rw [← hat.text] at hsize
          have hpos := List.length_pos_iff.mpr hne
          obtain ⟨hstart, -⟩ := hlies text (by simp)
          obtain ⟨-, hfinish⟩ := hlies token'
            (List.mem_cons_of_mem root (List.mem_cons_of_mem text htoken'))
          have hle := hbehind token' htoken'
          omega
      | compound hroot =>
        cases htoken
        rcases hroot with hroot | hroot <;> cases hroot.symm.trans htype
    · cases h with
      | nil => cases htoken
      | simple hroot =>
        cases htoken
        rcases htype with htype | htype <;> cases hroot.symm.trans htype
      | compound hroot =>
        cases htoken
        rcases hroot with hroot | hroot <;> rcases htype with htype | htype <;>
          cases hroot.symm.trans htype

theorem parseCommand_congr {script : StringView} (h : ConsumedCommand script parse)
    (hagree : AgreeBelow script.bytes.length nested nested') :
    parseCommand interp nested context parse = parseCommand interp nested' context parse := by
  have htokens : ∀ token ∈ parse.tokens, token.size ≤ script.bytes.length := by
    intro token htoken
    obtain ⟨hstart, hfinish⟩ := h.tokens token htoken
    omega
  unfold parseCommand
  by_cases hnone : parse.numWords < 1
  · rw [if_pos hnone, if_pos hnone]
  rw [if_neg hnone, if_neg hnone]
  refine bind_congr_ok (parseCommandWord_congr hagree htokens context 0) fun ⟨cmdWord, i⟩ hcmd => ?_
  refine bind_congr_ok (parseKnown_congr hagree htokens (h.first.behind_lt h.tokens hcmd))
    fun ⟨type, known, j⟩ _ => ?_
  exact bind_congr_ok (parseRest_congr hagree htokens context j) fun _ _ => rfl

/-! ## The loop of `ParseScript` -/

theorem ConsumedCommand.restOf_lt (h : ConsumedCommand text parse) (file : SourceFile) :
    (restOf file text parse).bytes.length < text.bytes.length := by
  have hle : (restOf file text parse).bytes.length ≤ _ := view_length_le file
    (parse.commandStart + parse.commandSize)
    (text.data + text.bytes.length - (parse.commandStart + parse.commandSize))
  have hprogress := h.progress
  have hfinish := h.finish
  omega

/-- A turn of the loop on a command that ends in the text, where the assertion holds. -/
theorem parseScriptFrom_turn {fuel : Nat} (hne : text.bytes ≠ [])
    (hparse : interp.parseCommand text = some parse) (h : ConsumedCommand text parse) :
    parseScriptFrom interp nested context (fuel + 1) text = (do
      let call ← parseCommand interp nested context parse
      let rest ← parseScriptFrom interp nested context fuel (restOf context.file text parse)
      return call.toList ++ rest) := by
  have hend : ¬ text.data + text.bytes.length < parse.commandStart + parse.commandSize :=
    Nat.not_lt_of_le h.finish
  rw [parseScriptFrom, if_neg hne, hparse]
  dsimp only
  simp only [if_neg hend]
  rfl

theorem parseScriptFrom_end {fuel : Nat} (h : text.bytes = [] ∨ interp.parseCommand text = none) :
    parseScriptFrom interp nested context (fuel + 1) text = .ok [] := by
  rw [parseScriptFrom]
  split
  · rfl
  · next hne =>
    rw [h.resolve_left hne]
    rfl

/-- The loop recurses into shorter texts only. -/
theorem parseScriptFrom_congr (hinterp : interp.Consumes) (fuel : Nat) : ∀ {text : StringView},
    AgreeBelow text.bytes.length nested nested' →
      parseScriptFrom interp nested context fuel text =
        parseScriptFrom interp nested' context fuel text := by
  induction fuel with
  | zero =>
    intro text _
    rfl
  | succ fuel ih =>
    intro text hagree
    by_cases hempty : text.bytes = []
    · rw [parseScriptFrom_end (.inl hempty), parseScriptFrom_end (.inl hempty)]
    cases hparse : interp.parseCommand text with
    | none => rw [parseScriptFrom_end (.inr hparse), parseScriptFrom_end (.inr hparse)]
    | some parse =>
      have hcommand := hinterp.parseCommand text parse hempty hparse
      rw [parseScriptFrom_turn hempty hparse hcommand, parseScriptFrom_turn hempty hparse hcommand]
      refine bind_congr_ok (parseCommand_congr hcommand hagree) fun call _ => ?_
      rw [ih (hagree.mono (hcommand.restOf_lt context.file).le)]

/-- A bound on the depth of nesting that is greater than the text is none. -/
theorem parseScriptAt_depth (hinterp : interp.Consumes) (depth : Nat) : ∀ {depth' : Nat}
    {context : ParseContext} {text : StringView}, text.bytes.length < depth →
      text.bytes.length < depth' →
        parseScriptAt interp depth context text = parseScriptAt interp depth' context text := by
  induction depth with
  | zero =>
    intro depth' context text hlt
    omega
  | succ depth ih =>
    intro depth' context text hlt hlt'
    obtain ⟨depth', rfl⟩ : ∃ k, depth' = k + 1 := ⟨depth' - 1, by omega⟩
    have hagree : AgreeBelow text.bytes.length (parseScriptAt interp depth)
        (parseScriptAt interp depth') := fun _ text' hshort => ih (by omega) (by omega)
    rw [parseScriptAt, parseScriptAt, parseScriptFrom_congr hinterp _ hagree]

/-- The loop itself stops nothing: a fault of it is one of `ParseCommand` on a text that it comes to. -/
theorem parseScriptFrom_fault (hinterp : interp.Consumes) {fault : Fault} (fuel : Nat) :
    ∀ {text : StringView}, text.bytes.length < fuel →
      parseScriptFrom interp nested context fuel text = .error fault →
      ∃ rest parse, Remaining interp context.file text rest ∧ rest.bytes ≠ [] ∧
        interp.parseCommand rest = some parse ∧
        parseCommand interp nested context parse = .error fault := by
  induction fuel with
  | zero =>
    intro text hlt
    omega
  | succ fuel ih =>
    intro text hlt h
    by_cases hempty : text.bytes = []
    · rw [parseScriptFrom_end (.inl hempty)] at h
      cases h
    cases hparse : interp.parseCommand text with
    | none =>
      rw [parseScriptFrom_end (.inr hparse)] at h
      cases h
    | some parse =>
      have hcommand := hinterp.parseCommand text parse hempty hparse
      rw [parseScriptFrom_turn hempty hparse hcommand] at h
      cases hcall : parseCommand interp nested context parse with
      | error fault' =>
        rw [hcall] at h
        cases h
        exact ⟨text, parse, .refl, hempty, hparse, hcall⟩
      | ok call =>
        rw [hcall] at h
        have hshort := hcommand.restOf_lt context.file
        cases hrest : parseScriptFrom interp nested context fuel (restOf context.file text parse) with
        | ok calls =>
          rw [hrest] at h
          cases h
        | error fault' =>
          rw [hrest] at h
          cases h
          obtain ⟨rest, parse', hremaining, hfound⟩ := ih (by omega) hrest
          exact ⟨rest, parse', .step hempty hparse hremaining, hfound⟩

/-! ## No fault of a parser that goes on for ever -/

/-- A recursion without end, and a length below zero. -/
def endless : List Fault := [.diverges, .underflow]

/-- The nested parser comes to an end on every text of the file. -/
def ParserEnds (nested : ScriptParser) (fileName contents : Str) : Prop :=
  ∀ context text, context.file = makeSourceFile fileName contents →
    Avoids endless (nested context text)

theorem offsetToLineByteFrom_ends {offset : Nat} {newlines : List Nat} : ∀ {i startOfLine : Nat},
    startOfLine ≤ offset → Avoids endless (offsetToLineByteFrom offset i startOfLine newlines) := by
  induction newlines with
  | nil =>
    intro i startOfLine _
    exact .error (by decide)
  | cons n newlines ih =>
    intro i startOfLine hle
    rw [offsetToLineByteFrom]
    split
    · rw [if_neg (Nat.not_lt_of_le hle)]
      exact .ok _
    · exact ih (by omega)

theorem makeSourceLocation_ends (file : SourceFile) (offset : Nat) :
    Avoids endless (makeSourceLocation file offset) :=
  (offsetToLineByteFrom_ends (Nat.zero_le offset)).bind fun _ _ => .ok _

theorem lt_of_parseWord {fuel i j : Nat} {word : Word}
    (h : parseWord nested context tokens fuel i = .ok (word, j)) : i < tokens.length := by
  cases fuel with
  | zero =>
    rw [parseWord] at h
    cases h
  | succ fuel =>
    rw [parseWord] at h
    obtain ⟨token, htoken, -⟩ := bind_eq_ok.mp h
    exact lt_of_nth htoken

/-- Each call of `ParseWord` takes a token, and each turn of a loop a word. -/
theorem parseWord_ends (hfile : context.file = makeSourceFile fileName contents)
    (hnested : ParserEnds nested fileName contents)
    (hbrackets : ∀ token ∈ tokens, token.type = .COMMAND → 2 ≤ token.size) (fuel : Nat) :
    (∀ i, 2 * (tokens.length - i) + 1 ≤ fuel →
      Avoids endless (parseWord nested context tokens fuel i)) ∧
    ∀ max i, 2 * (tokens.length - i) + 2 ≤ fuel →
      Avoids endless (parseWords nested context tokens fuel max i) := by
  induction fuel with
  | zero => exact ⟨fun i hfuel => by omega, fun max i hfuel => by omega⟩
  | succ fuel ih =>
    obtain ⟨ihword, ihwords⟩ := ih
    have hlocation := makeSourceLocation_ends context.file
    constructor
    · intro i hfuel
      rw [parseWord]
      refine (nth_avoids (by decide) tokens i).bind fun token htoken => ?_
      have hi := lt_of_nth htoken
      dsimp only
      cases htype : token.type with
      | SIMPLE_WORD => exact .ite_throw (fun _ => by decide) fun _ => ihword _ (by omega)
      | WORD | EXPAND_WORD =>
        refine (hlocation _).bind fun location _ => ?_
        exact (ihwords _ _ (by omega)).bind fun words _ => .ok _
      | TEXT | BS => exact (hlocation _).bind fun location _ => .ok _
      | COMMAND =>
        have hsize := hbrackets token (List.mem_of_getElem? (nth_eq_ok.mp htoken)) htype
        refine (hlocation _).bind fun location _ => ?_
        refine .ite_throw (fun hshort => absurd hsize (Nat.not_le_of_lt hshort)) fun _ => ?_
        exact (hnested context _ hfile).bind fun script _ => .ok _
      | VARIABLE =>
        dsimp only
        split
        · exact (ihword _ (by omega)).bind fun word _ => .ok _
        · refine (hlocation _).bind fun location _ => ?_
          refine (ihword _ (by omega)).bind fun parsed hname => ?_
          obtain ⟨name, next⟩ := parsed
          have hnext := (parseWord_lt tokens fuel).1 hname
          refine .ite_throw (fun _ => by decide) fun _ => ?_
          exact (ihwords _ _ (by omega)).bind fun index _ => .ok _
      | SUB_EXPR | OPERATOR => exact .error (by decide)
    · intro max i hfuel
      rw [parseWords]
      split
      · refine (ihword i (by omega)).bind fun parsed hword => ?_
        obtain ⟨word, next⟩ := parsed
        have hi := lt_of_parseWord hword
        have hnext := (parseWord_lt tokens fuel).1 hword
        exact (ihwords max next (by omega)).bind fun rest _ => .ok _
      · exact .ok _

section Ends

variable (hfind : ∀ list found, interp.findElement list = some found → FoundElement list found)
  (hnested : ParserEnds nested fileName contents)
  (hbrackets : ∀ token ∈ parse.tokens, token.type = .COMMAND → 2 ≤ token.size)

include hfind hnested hbrackets

theorem take_ends (context : ParseContext) (hfile : context.file = makeSourceFile fileName contents)
    (taking : Taking) (i : Nat) : Avoids endless (taking.take interp nested context parse i) := by
  have hfuel : 2 * (parse.tokens.length - i) + 1 ≤ ParseCommand.fuel parse := by
    rw [ParseCommand.fuel]
    omega
  have hword := (parseWord_ends hfile hnested hbrackets (ParseCommand.fuel parse)).1 i hfuel
  have herror : ∀ message, Avoids endless (ParseCommand.errorWord context parse message) :=
    fun message => (makeSourceLocation_ends context.file _).bind fun location _ => .ok _
  cases taking with
  | word =>
    change Avoids endless (ParseCommand.parseWord _ _ _ _)
    unfold ParseCommand.parseWord
    split
    · exact (herror _).bind fun error _ => .ok _
    · exact hword
  | args =>
    change Avoids endless (ParseCommand.parseArgs _ _ _ _ _)
    unfold ParseCommand.parseArgs
    split
    · exact (herror _).bind fun error _ => .ok _
    · refine hword.bind fun parsed hparsed => ?_
      obtain ⟨word, next⟩ := parsed
      have hin : word.InFile contents := by
        have hfits := (parseWord_pointsInto _ hparsed).fits
        rwa [hfile] at hfits
      dsimp only
      obtain ⟨list, hlist⟩ := wordToList_ok hfind hfile hin
      rw [avoids_bind_ok hlist]
      split
      · next vec hlistType hdata =>
        rcases wordToList_cases hlist with ⟨rfl, -⟩ | ⟨elements, texts, rfl, -, -, htexts⟩
        · exact absurd hlistType (parseWord_type_ne_list hparsed)
        · cases hdata
          obtain ⟨args, hargs⟩ := mapM_ok (f := wordToList interp context) fun inner hinner =>
            wordToList_ok hfind hfile (inFile_of_makes hfile htexts inner hinner)
          rw [avoids_bind_ok hargs]
          exact .ok _
      · exact .error (by decide)
      · exact .ok _
  | body =>
    change Avoids endless (ParseCommand.parseBody _ _ _ _)
    unfold ParseCommand.parseBody
    split
    · exact (herror _).bind fun error _ => .ok _
    · refine hword.bind fun parsed _ => ?_
      obtain ⟨word, next⟩ := parsed
      dsimp only
      split
      · exact (hnested context _ hfile).bind fun script _ => .ok _
      · exact .ok _

theorem parseKnown_ends (hfile : context.file = makeSourceFile fileName contents) (cmdWord : Word)
    (i : Nat) : Avoids endless (ParseCommand.parseKnown interp nested context parse cmdWord i) := by
  have htake := take_ends hfind hnested hbrackets
  have hends : BindRelation fun _ x _ => Avoids endless x := ⟨fun a => .ok a, fun hx h => hx.bind h⟩
  exact parseKnown_rule nested hends (htake context hfile .word)
    (htake context hfile .args) fun _ _ curNs j _ => htake { context with curNs } hfile .body j

theorem parseCommand_ends (hfile : context.file = makeSourceFile fileName contents) :
    Avoids endless (parseCommand interp nested context parse) := by
  unfold parseCommand
  split
  · exact .ok _
  · refine (take_ends hfind hnested hbrackets context hfile .word 0).bind fun ⟨cmdWord, i⟩ _ => ?_
    refine (parseKnown_ends hfind hnested hbrackets hfile cmdWord i).bind
      fun ⟨type, known, j⟩ _ => ?_
    have hfuel : 2 * (parse.tokens.length - j) + 2 ≤ ParseCommand.fuel parse := by
      rw [ParseCommand.fuel]
      omega
    have hrest := (parseWord_ends hfile hnested hbrackets (ParseCommand.fuel parse)).2
      parse.tokens.length j hfuel
    exact (hrest.bind fun words _ => .ok _).bind fun rest _ => .ok _

end Ends

/-- The induction is on the depth of nesting. A nested parser that is asked for shorter texts only may
as well fail on the others. -/
theorem parseScriptAt_ends (hinterp : interp.Consumes) (depth : Nat) : ∀ {context : ParseContext}
    {text : StringView}, context.file = makeSourceFile fileName contents →
      text.bytes.length < depth → Avoids endless (parseScriptAt interp depth context text) := by
  induction depth with
  | zero =>
    intro context text _ hlt
    omega
  | succ depth ih =>
    intro context text hfile hlt
    let shorter : ScriptParser := fun context' text' =>
      if text'.bytes.length < text.bytes.length then parseScriptAt interp depth context' text'
      else .error .assertion
    have hagree : AgreeBelow text.bytes.length (parseScriptAt interp depth) shorter := by
      intro context' text' hshort
      exact (if_pos hshort).symm
    have hends : ParserEnds shorter fileName contents := by
      intro context' text' hfile'
      dsimp only [shorter]
      split
      · exact ih hfile' (by omega)
      · exact .error (by decide)
    rw [parseScriptAt, parseScriptFrom_congr hinterp _ hagree]
    refine (makeSourceLocation_ends context.file _).bind fun location _ => ?_
    refine Avoids.bind ?_ fun commands _ => .ok _
    intro fault hmem hfault
    obtain ⟨rest, parse, -, hne, hparse, hcall⟩ :=
      parseScriptFrom_fault hinterp _ (Nat.lt_succ_self _) hfault
    have hbrackets := (hinterp.parseCommand rest parse hne hparse).brackets
    exact parseCommand_ends hinterp.findElement hends hbrackets hfile fault hmem hcall

/-! ## `ParseScript` -/

theorem Remaining.le (hinterp : interp.Consumes) {file : SourceFile} {rest : StringView}
    (h : Remaining interp file text rest) : rest.bytes.length ≤ text.bytes.length := by
  induction h with
  | refl => exact Nat.le_refl _
  | step hne hparse _ ih =>
    exact ih.trans ((hinterp.parseCommand _ _ hne hparse).restOf_lt file).le

/-- `ParseScript` ends on every text, and recurses into shorter texts only. Its loop takes something of
the text in each turn, and stops for no fault but one of `ParseCommand`. -/
theorem parseScript_ends (hinterp : interp.Consumes)
    (hfile : context.file = makeSourceFile fileName contents) (text : StringView) :
    Avoids endless (parseScript interp context text) ∧
    (∀ depth, text.bytes.length < depth →
      parseScriptAt interp depth context text = parseScript interp context text) ∧
    (∀ nested nested', AgreeBelow text.bytes.length nested nested' → ∀ fuel,
      parseScriptFrom interp nested context fuel text =
        parseScriptFrom interp nested' context fuel text) ∧
    (∀ rest parse, Remaining interp context.file text rest → rest.bytes ≠ [] →
      interp.parseCommand rest = some parse → rest.bytes.length ≤ text.bytes.length ∧
        parse.commandStart + parse.commandSize ≤ rest.data + rest.bytes.length ∧
        (restOf context.file rest parse).bytes.length < rest.bytes.length) ∧
    ∀ nested fault,
      parseScriptFrom interp nested context (text.bytes.length + 1) text = .error fault →
      ∃ rest parse, Remaining interp context.file text rest ∧ rest.bytes ≠ [] ∧
        interp.parseCommand rest = some parse ∧
        parseCommand interp nested context parse = .error fault := by
  refine ⟨parseScriptAt_ends hinterp _ hfile (Nat.lt_succ_self _), fun depth hdepth => ?_,
    fun nested nested' hagree fuel => parseScriptFrom_congr hinterp fuel hagree,
    fun rest parse hremaining hne hparse => ?_, fun nested fault hfault => ?_⟩
  · exact parseScriptAt_depth hinterp depth hdepth (Nat.lt_succ_self _)
  · have hcommand := hinterp.parseCommand rest parse hne hparse
    exact ⟨hremaining.le hinterp, hcommand.finish, hcommand.restOf_lt context.file⟩
  · exact parseScriptFrom_fault hinterp _ (Nat.lt_succ_self _) hfault

/-! ## Well-formed tokens -/

theorem Components.lies {first last : Nat} (h : Components first last tokens) :
    ∀ token ∈ tokens, token.LiesIn first last ∧ (token.type = .COMMAND → 2 ≤ token.size) := by
  induction h with
  | nil => simp
  | @text leaf others htype _ hin _ ih =>
    refine List.forall_mem_cons.mpr ⟨⟨hin, fun hcommand => ?_⟩, ih⟩
    rcases htype with htype | htype <;> cases htype.symm.trans hcommand
  | command _ _ hsize hin _ ih => exact List.forall_mem_cons.mpr ⟨⟨hin, fun _ => hsize⟩, ih⟩
  | @var root name index others htype _ hin hname _ hnamein _ _ ihindex ih =>
    refine List.forall_mem_cons.mpr ⟨⟨hin, fun hcommand => ?_⟩,
      List.forall_mem_cons.mpr ⟨⟨hnamein, fun hcommand => ?_⟩, List.forall_mem_append.mpr ⟨ihindex, ih⟩⟩⟩
    · cases htype.symm.trans hcommand
    · cases hname.symm.trans hcommand

theorem Token.LiesIn.mono {token : Token} {first last first' last' : Nat}
    (h : token.LiesIn first last) (hfirst : first' ≤ first) (hlast : last ≤ last') :
    token.LiesIn first' last' :=
  ⟨hfirst.trans h.1, h.2.trans hlast⟩

theorem WordTokens.lies {first last n : Nat} (h : WordTokens last first n tokens) :
    ∀ token ∈ tokens, token.LiesIn first last ∧ (token.type = .COMMAND → 2 ≤ token.size) := by
  induction h with
  | nil => simp
  | @simple first n root text others htype _ hfirst htext _ hin hrest ih =>
    have hle := hrest.le
    have hothers : ∀ token ∈ others, token.LiesIn first last ∧
        (token.type = .COMMAND → 2 ≤ token.size) := fun token htoken =>
      ⟨(ih token htoken).1.mono (by omega) (Nat.le_refl _), (ih token htoken).2⟩
    refine List.forall_mem_cons.mpr ⟨⟨⟨hfirst, hle⟩, fun hcommand => ?_⟩,
      List.forall_mem_cons.mpr ⟨⟨hin.mono hfirst hle, fun hcommand => ?_⟩, hothers⟩⟩
    · cases htype.symm.trans hcommand
    · cases htext.symm.trans hcommand
  | @compound first n root components others htype _ hfirst hcomponents hrest ih =>
    have hle := hrest.le
    refine List.forall_mem_cons.mpr ⟨⟨⟨hfirst, hle⟩, fun hcommand => ?_⟩,
      List.forall_mem_append.mpr ⟨fun token htoken => ?_, fun token htoken => ?_⟩⟩
    · rcases htype with htype | htype <;> cases htype.symm.trans hcommand
    · obtain ⟨hin, hsize⟩ := hcomponents.lies token htoken
      exact ⟨hin.mono hfirst hle, hsize⟩
    · obtain ⟨hin, hsize⟩ := ih token htoken
      exact ⟨hin.mono (by omega) (Nat.le_refl _), hsize⟩

theorem WordTokens.firstWord {first last n : Nat} (h : WordTokens last first n tokens) :
    FirstWord tokens := by
  cases h with
  | nil => exact .nil
  | simple htype _ _ htext _ hin hrest =>
    refine .simple htype htext fun other hother => ?_
    obtain ⟨⟨hstart, -⟩, -⟩ := hrest.lies other hother
    exact hin.2.trans hstart
  | compound htype => exact .compound htype

/-- Well-formed tokens have all that is left of the contract. -/
theorem TclInterp.Contract.consumes (h : interp.Contract) : interp.Consumes := by
  refine ⟨fun script parse hne hparse => ?_, h.findElement⟩
  obtain ⟨hwords, hprogress, hfinish⟩ := h.parseCommand script parse hne hparse
  exact ⟨hprogress, hfinish, fun token htoken => (hwords.lies token htoken).1,
    fun token htoken => (hwords.lies token htoken).2, hwords.firstWord⟩

theorem lastArgs_ends :
    Avoids endless (parseScript lastArgsInterp { file := lastArgs, curNs := [] }
      (lastArgs.view 0 18)) := by
  have hfile : ({ file := lastArgs, curNs := [] } : ParseContext).file =
      makeSourceFile [] (bytes "proc f {a args} {}") := rfl
  exact (parseScript_ends lastArgs_contract.consumes hfile (lastArgs.view 0 18)).1

end TclAnalyzer
