import TclAnalyzer.Analyzer.Words
import TclAnalyzer.Analyzer.Proofs.LocationProofs
import TclAnalyzer.Analyzer.Proofs.ParserRuleProofs

/-!
# The parser on tokens that keep the contract

`ParseWord` takes exactly the tokens of a word, so that each command gets the words that its type
asks for, and nested scripts are shorter than the ones around them.
-/

namespace TclAnalyzer

variable {interp : TclInterp} {nested : ScriptParser} {context : ParseContext}
  {fileName contents : Str}

/-- The parser returns a script for every text of the file shorter than `length`. -/
def ParsesShorter (nested : ScriptParser) (fileName contents : Str) (length : Nat) : Prop :=
  ∀ context data size, context.file = makeSourceFile fileName contents → data ≤ contents.length →
    (context.file.view data size).bytes.length < length →
    ∃ script, nested context (context.file.view data size) = .ok script

/-! ## Tokens of a word -/

theorem drop_eq_cons {α : Type} {l rest : List α} {i : Nat} {a : α} (h : l.drop i = a :: rest) :
    nth l i = .ok a ∧ l.drop (i + 1) = rest := by
  constructor
  · have hget : (l.drop i)[0]? = l[i + 0]? := List.getElem?_drop
    rw [h, Nat.add_zero] at hget
    exact nth_eq_ok.mpr hget.symm
  · rw [← List.drop_drop, h]
    rfl

theorem parseWords_cons {tokens : List Token} {fuel max i j j' : Nat} {word : Word} {vec : List Word}
    (hlt : i < max) (hword : parseWord nested context tokens fuel i = .ok (word, j))
    (hvec : parseWords nested context tokens fuel max j = .ok (vec, j')) :
    parseWords nested context tokens (fuel + 1) max i = .ok (word :: vec, j') := by
  rw [parseWords, if_pos hlt]
  exact bind_eq_ok.mpr ⟨_, hword, bind_eq_ok.mpr ⟨_, hvec, rfl⟩⟩

theorem parseWords_end {tokens : List Token} {fuel max i : Nat} (hle : max ≤ i) (hfuel : 0 < fuel) :
    parseWords nested context tokens fuel max i = .ok ([], i) := by
  obtain ⟨fuel, rfl⟩ : ∃ k, fuel = k + 1 := ⟨fuel - 1, by omega⟩
  rw [parseWords, if_neg (by omega)]
  rfl

theorem parseWord_text (nested : ScriptParser)
    (hfile : context.file = makeSourceFile fileName contents) {tokens : List Token} {fuel i : Nat}
    {token : Token} (hfuel : 0 < fuel) (htoken : nth tokens i = .ok token)
    (htype : token.type = .TEXT ∨ token.type = .BS) (hstart : token.start ≤ contents.length) : ∃ word,
    parseWord nested context tokens fuel i = .ok (word, i + 1) ∧ word.IsAt context token ∧
      word.IsText := by
  obtain ⟨fuel, rfl⟩ : ∃ k, fuel = k + 1 := ⟨fuel - 1, by omega⟩
  obtain ⟨location, hlocation⟩ := makeSourceLocation_ok fileName hstart
  rw [← hfile] at hlocation
  refine ⟨{ type := .TEXT, location, text := context.file.view token.start token.size,
            data := .nothing }, ?_, ⟨hlocation, rfl⟩, rfl, rfl⟩
  rw [parseWord]
  refine bind_eq_ok.mpr ⟨token, htoken, ?_⟩
  rcases htype with htype | htype
  · simp only [htype]
    exact bind_eq_ok.mpr ⟨location, hlocation, rfl⟩
  · simp only [htype]
    exact bind_eq_ok.mpr ⟨location, hlocation, rfl⟩

theorem parseWord_command (hfile : context.file = makeSourceFile fileName contents) {length : Nat}
    (hnested : ParsesShorter nested fileName contents length) {tokens : List Token} {fuel i : Nat}
    {token : Token} (hfuel : 0 < fuel) (htoken : nth tokens i = .ok token)
    (htype : token.type = .COMMAND) (hsize : 2 ≤ token.size) (hlength : token.size ≤ length)
    (hstart : token.start + token.size ≤ contents.length) :
    ∃ word script, parseWord nested context tokens fuel i = .ok (word, i + 1) ∧
      word.IsAt context token ∧ word.type = .SCRIPT ∧
      nested context (context.file.view (token.start + 1) (token.size - 2)) = .ok script ∧
      word.data = .script script := by
  obtain ⟨fuel, rfl⟩ : ∃ k, fuel = k + 1 := ⟨fuel - 1, by omega⟩
  have hle : token.start ≤ contents.length := by omega
  obtain ⟨location, hlocation⟩ := makeSourceLocation_ok fileName hle
  rw [← hfile] at hlocation
  have hview := view_length_le context.file (token.start + 1) (token.size - 2)
  obtain ⟨script, hscript⟩ :=
    hnested context (token.start + 1) (token.size - 2) hfile (by omega) (by omega)
  have hsize' : ¬ token.size < 2 := by omega
  refine ⟨{ type := .SCRIPT, location, text := context.file.view token.start token.size,
            data := .script script }, script, ?_, ⟨hlocation, rfl⟩, rfl, hscript, rfl⟩
  rw [parseWord]
  refine bind_eq_ok.mpr ⟨token, htoken, ?_⟩
  simp only [htype]
  refine bind_eq_ok.mpr ⟨location, hlocation, ?_⟩
  rw [if_neg hsize']
  exact bind_eq_ok.mpr ⟨script, hscript, rfl⟩

/-- A variable is a scalar when its name is all it counts, and else an array with an index. -/
theorem parseWord_variable (hfile : context.file = makeSourceFile fileName contents)
    {tokens indexTokens : List Token} {fuel i : Nat} {token name : Token}
    (htoken : nth tokens i = .ok token) (htype : token.type = .VARIABLE)
    (hcount : token.numComponents = indexTokens.length + 1) (hstart : token.start ≤ contents.length)
    (hname : nth tokens (i + 1) = .ok name) (hnametype : name.type = .TEXT)
    (hnamestart : name.start ≤ contents.length) (hfuel : 0 < fuel)
    (hindex : ∃ index, parseWords nested context tokens fuel (i + 2 + indexTokens.length) (i + 2) =
      .ok (index, i + 2 + indexTokens.length) ∧ ComponentWords nested context indexTokens index) :
    ∃ word, parseWord nested context tokens (fuel + 1) i = .ok (word, i + 2 + indexTokens.length) ∧
      ∀ others words, ComponentWords nested context others words →
        ComponentWords nested context (token :: name :: (indexTokens ++ others)) (word :: words) := by
  obtain ⟨nameWord, hnameWord, hat, hnametext, hnamedata⟩ :=
    parseWord_text nested hfile hfuel hname (.inl hnametype) hnamestart
  rcases List.eq_nil_or_concat' indexTokens with rfl | ⟨init, last, hindexTokens⟩
  · refine ⟨{ nameWord with type := .VARIABLE }, ?_, fun others words hothers =>
      .scalar htype hcount hnametype ⟨hat.location, hat.text⟩ rfl hnamedata hothers⟩
    rw [parseWord]
    refine bind_eq_ok.mpr ⟨token, htoken, ?_⟩
    simp only [htype]
    have hone : token.numComponents = 1 := hcount
    rw [if_pos hone]
    exact bind_eq_ok.mpr ⟨_, hnameWord, rfl⟩
  · obtain ⟨location, hlocation⟩ := makeSourceLocation_ok fileName hstart
    rw [← hfile] at hlocation
    obtain ⟨index, hindex, hwords⟩ := hindex
    have hpos : 0 < indexTokens.length := by simp [hindexTokens]
    have hmax : i + 1 + token.numComponents = i + 2 + indexTokens.length := by omega
    have hcount' : ¬ token.numComponents = 1 := by omega
    have hnametext' : ¬ nameWord.type ≠ .TEXT := not_not.mpr hnametext
    refine ⟨{ type := .ARRAY_ACCESS, location, text := context.file.view token.start token.size,
              data := .arrayAccess nameWord.text.bytes index }, ?_, fun others words hothers =>
      .array htype hcount hnametype ⟨hlocation, rfl⟩ rfl rfl hwords hothers⟩
    rw [parseWord]
    refine bind_eq_ok.mpr ⟨token, htoken, ?_⟩
    simp only [htype]
    rw [if_neg hcount']
    refine bind_eq_ok.mpr ⟨location, hlocation, bind_eq_ok.mpr ⟨_, hnameWord, ?_⟩⟩
    rw [if_neg hnametext', hmax]
    exact bind_eq_ok.mpr ⟨_, hindex, rfl⟩

/-- The induction is on the tokens; each component takes its own and leaves the others. -/
theorem parseWords_components (hfile : context.file = makeSourceFile fileName contents) {length : Nat}
    (hnested : ParsesShorter nested fileName contents length) {first last : Nat}
    (hlast : last ≤ contents.length) (hlength : last ≤ first + length) {components : List Token}
    (h : Components first last components) :
    ∀ {tokens rest : List Token} {i fuel : Nat}, tokens.drop i = components ++ rest →
      2 * components.length < fuel → ∃ vec, parseWords nested context tokens fuel
        (i + components.length) i = .ok (vec, i + components.length) ∧
          ComponentWords nested context components vec := by
  induction h with
  | nil =>
    intro tokens rest i fuel _ hfuel
    exact ⟨[], parseWords_end (Nat.le_refl i) (by omega), .nil⟩
  | @text token others htype _ hin _ ih =>
    intro tokens rest i fuel htokens hfuel
    obtain ⟨fuel, rfl⟩ : ∃ k, fuel = k + 1 := ⟨fuel - 1, by omega⟩
    rw [List.length_cons] at hfuel ⊢
    obtain ⟨htoken, hdrop⟩ := drop_eq_cons htokens
    obtain ⟨-, hfinish⟩ := hin
    have hpos : 0 < fuel := by omega
    have hfuel' : 2 * others.length < fuel := by omega
    obtain ⟨word, hword, hat, htext⟩ :=
      parseWord_text nested hfile hpos htoken htype (by omega)
    obtain ⟨vec, hvec, hwords⟩ := ih hdrop hfuel'
    rw [Nat.add_right_comm] at hvec
    exact ⟨word :: vec, parseWords_cons (by omega) hword hvec, .text htype hat htext hwords⟩
  | @command token others htype _ hsize hin _ ih =>
    intro tokens rest i fuel htokens hfuel
    obtain ⟨fuel, rfl⟩ : ∃ k, fuel = k + 1 := ⟨fuel - 1, by omega⟩
    rw [List.length_cons] at hfuel ⊢
    obtain ⟨htoken, hdrop⟩ := drop_eq_cons htokens
    obtain ⟨hstart, hfinish⟩ := hin
    have hpos : 0 < fuel := by omega
    have hfuel' : 2 * others.length < fuel := by omega
    obtain ⟨word, script, hword, hat, hwordtype, hscript, hdata⟩ :=
      parseWord_command hfile hnested hpos htoken htype hsize (by omega) (by omega)
    obtain ⟨vec, hvec, hwords⟩ := ih hdrop hfuel'
    rw [Nat.add_right_comm] at hvec
    exact ⟨word :: vec, parseWords_cons (by omega) hword hvec,
      .command htype hat hwordtype hscript hdata hwords⟩
  | @var token name index others htype hcount hin hname _ hnamein _ _ ihindex ih =>
    intro tokens rest i fuel htokens hfuel
    rw [List.length_cons, List.length_cons, List.length_append] at hfuel ⊢
    obtain ⟨fuel, rfl⟩ : ∃ k, fuel = k + 2 := ⟨fuel - 2, by omega⟩
    rw [List.cons_append, List.cons_append, List.append_assoc] at htokens
    obtain ⟨htoken, hdrop⟩ := drop_eq_cons htokens
    obtain ⟨hnametoken, hdrop⟩ := drop_eq_cons hdrop
    have hdrop' : tokens.drop (i + 2 + index.length) = others ++ rest := by
      rw [← List.drop_drop, hdrop, List.drop_left]
    obtain ⟨-, hfinish⟩ := hin
    obtain ⟨-, hnamefinish⟩ := hnamein
    have hpos : 0 < fuel := by omega
    have hindexfuel : 2 * index.length < fuel := by omega
    have hfuel' : 2 * others.length < fuel + 1 := by omega
    obtain ⟨word, hword, hwords⟩ := parseWord_variable hfile htoken htype hcount (by omega) hnametoken
      hname (by omega) hpos (ihindex hdrop hindexfuel)
    obtain ⟨vec, hvec, hothers⟩ := ih hdrop' hfuel'
    have hend : i + (index.length + others.length + 1 + 1) = i + 2 + index.length + others.length := by
      omega
    rw [hend]
    exact ⟨word :: vec, parseWords_cons (by omega) hword hvec, hwords others vec hothers⟩

/-! ## Words of a command -/

theorem WordTokens.le {last first n : Nat} {tokens : List Token} (h : WordTokens last first n tokens) :
    first ≤ last := by
  induction h with
  | nil hle => exact hle
  | simple _ _ hfirst _ _ _ _ ih => omega
  | compound _ _ hfirst _ _ ih => omega

/-- The word stands from `first` on in the file, and after the tokens up to `j` come those of the `n`
words behind it. -/
def TakesWord (file : SourceFile) (tokens : List Token) (last first n : Nat) (word : Word)
    (j : Nat) : Prop :=
  ∃ data size next, word.text = file.view data size ∧ first ≤ data ∧ data + size ≤ next ∧
    WordTokens last next n (tokens.drop j)

theorem wordGroups_append {token : Token} {components rest : List Token}
    (hcount : token.numComponents = components.length) :
    wordGroups (token :: (components ++ rest)) = (token :: components) :: wordGroups rest := by
  rw [wordGroups, hcount, List.take_left, List.drop_left]

theorem wordGroups_pair {token text : Token} {rest : List Token} (hcount : token.numComponents = 1) :
    wordGroups (token :: text :: rest) = [token, text] :: wordGroups rest := by
  rw [wordGroups, hcount]
  rfl

/-- A simple word is its component. -/
theorem parseWord_simple {tokens : List Token} {fuel i : Nat} {token : Token}
    (htoken : nth tokens i = .ok token) (htype : token.type = .SIMPLE_WORD)
    (hcount : token.numComponents = 1) {result : Word × Nat}
    (h : parseWord nested context tokens fuel (i + 1) = .ok result) :
    parseWord nested context tokens (fuel + 1) i = .ok result := by
  rw [parseWord]
  refine bind_eq_ok.mpr ⟨token, htoken, ?_⟩
  simp only [htype]
  rw [if_neg (not_not.mpr hcount)]
  exact h

/-- A compound word has the words of its components. -/
theorem parseWord_compound {tokens : List Token} {fuel i j : Nat} {token : Token} {type : WordType}
    {location : SourceLocation} {vec : List Word} (htoken : nth tokens i = .ok token)
    (htype : token.type = .WORD ∧ type = .TOKEN_LIST ∨ token.type = .EXPAND_WORD ∧ type = .EXPAND)
    (hlocation : makeSourceLocation context.file token.start = .ok location)
    (hvec : parseWords nested context tokens fuel (i + 1 + token.numComponents) (i + 1) =
      .ok (vec, j)) :
    parseWord nested context tokens (fuel + 1) i =
      .ok ({ type, location, text := context.file.view token.start token.size,
             data := .words vec }, j) := by
  rw [parseWord]
  refine bind_eq_ok.mpr ⟨token, htoken, ?_⟩
  rcases htype with ⟨htype, rfl⟩ | ⟨htype, rfl⟩
  · simp only [htype]
    exact bind_eq_ok.mpr ⟨location, hlocation, bind_eq_ok.mpr ⟨_, hvec, rfl⟩⟩
  · simp only [htype]
    exact bind_eq_ok.mpr ⟨location, hlocation, bind_eq_ok.mpr ⟨_, hvec, rfl⟩⟩

/-- `ParseWord` at the first token of a word takes its tokens. -/
theorem parseWord_word (hfile : context.file = makeSourceFile fileName contents) {length : Nat}
    (hnested : ParsesShorter nested fileName contents length) {last first n i fuel : Nat}
    {tokens : List Token} (hlast : last ≤ contents.length) (hlength : last ≤ first + length)
    (h : WordTokens last first (n + 1) (tokens.drop i))
    (hfuel : 2 * (tokens.drop i).length ≤ fuel) :
    ∃ word j group, parseWord nested context tokens fuel i = .ok (word, j) ∧
      (∃ token, nth tokens i = .ok token ∧ j = i + 1 + token.numComponents) ∧
      TakesWord context.file tokens last first n word j ∧
      wordGroups (tokens.drop i) = group :: wordGroups (tokens.drop j) ∧
      GroupWord nested context group word := by
  generalize hdrop : tokens.drop i = here at h hfuel
  cases h with
  | @simple _ _ token text rest htype hcount hfirst htext _ hin hrest =>
    rw [List.length_cons, List.length_cons] at hfuel
    obtain ⟨fuel, rfl⟩ : ∃ k, fuel = k + 1 := ⟨fuel - 1, by omega⟩
    have hpos : 0 < fuel := by omega
    obtain ⟨htoken, hdrop⟩ := drop_eq_cons hdrop
    obtain ⟨htextToken, hdrop⟩ := drop_eq_cons hdrop
    have hle := hrest.le
    obtain ⟨hstart, hfinish⟩ := hin
    have htextstart : text.start ≤ contents.length := by omega
    obtain ⟨word, hword, hat, hisText⟩ :=
      parseWord_text nested hfile hpos htextToken (.inl htext) htextstart
    refine ⟨word, i + 2, [token, text], ?_, ⟨token, htoken, by omega⟩, ⟨text.start, text.size,
      token.start + token.size, hat.text, by omega, hfinish, ?_⟩, ?_, .simple htype htext hat hisText⟩
    · exact parseWord_simple htoken htype hcount hword
    · rw [hdrop]
      exact hrest
    · rw [hdrop]
      exact wordGroups_pair hcount
  | @compound _ _ token components rest htype hcount hfirst hcomponents hrest =>
    rw [List.length_cons, List.length_append] at hfuel
    obtain ⟨fuel, rfl⟩ : ∃ k, fuel = k + 1 := ⟨fuel - 1, by omega⟩
    have hfuel' : 2 * components.length < fuel := by omega
    obtain ⟨htoken, hdrop⟩ := drop_eq_cons hdrop
    have hle := hrest.le
    have hstart : token.start ≤ contents.length := by omega
    obtain ⟨location, hlocation⟩ := makeSourceLocation_ok fileName hstart
    rw [← hfile] at hlocation
    obtain ⟨vec, hvec, hwords⟩ := parseWords_components hfile hnested (by omega) (by omega)
      hcomponents hdrop hfuel'
    rw [← hcount] at hvec
    have hdrop' : tokens.drop (i + 1 + token.numComponents) = rest := by
      rw [← List.drop_drop, hdrop, hcount, List.drop_left]
    have hgroups : wordGroups (token :: (components ++ rest)) =
        (token :: components) :: wordGroups (tokens.drop (i + 1 + token.numComponents)) := by
      rw [hdrop', wordGroups_append hcount]
    obtain ⟨type, htype⟩ : ∃ type : WordType, token.type = .WORD ∧ type = .TOKEN_LIST ∨
        token.type = .EXPAND_WORD ∧ type = .EXPAND := by
      rcases htype with htype | htype
      · exact ⟨_, .inl ⟨htype, rfl⟩⟩
      · exact ⟨_, .inr ⟨htype, rfl⟩⟩
    have htakes : TakesWord context.file tokens last first n
        { type, location, text := context.file.view token.start token.size, data := .words vec }
        (i + 1 + token.numComponents) := by
      refine ⟨token.start, token.size, token.start + token.size, rfl, hfirst, Nat.le_refl _, ?_⟩
      rw [hdrop']
      exact hrest
    exact ⟨_, i + 1 + token.numComponents, _, parseWord_compound htoken htype hlocation hvec,
      ⟨token, htoken, rfl⟩, htakes, hgroups, .compound htype ⟨hlocation, rfl⟩ rfl hwords⟩

theorem parseWords_rest (hfile : context.file = makeSourceFile fileName contents) {length : Nat}
    (hnested : ParsesShorter nested fileName contents length) {last n : Nat} {tokens : List Token}
    (hlast : last ≤ contents.length) : ∀ {first i fuel : Nat}, last ≤ first + length →
      WordTokens last first n (tokens.drop i) → 2 * (tokens.drop i).length < fuel →
      ∃ vec j, parseWords nested context tokens fuel tokens.length i = .ok (vec, j) ∧
        List.Forall₂ (GroupWord nested context) (wordGroups (tokens.drop i)) vec := by
  induction n with
  | zero =>
    intro first i fuel hlength h hfuel
    have hnil : tokens.drop i = [] := by
      generalize tokens.drop i = here at h
      cases h
      rfl
    refine ⟨[], i, parseWords_end (List.drop_eq_nil_iff.mp hnil) (by omega), ?_⟩
    rw [hnil, wordGroups]
    exact .nil
  | succ n ih =>
    intro first i fuel hlength h hfuel
    obtain ⟨fuel, rfl⟩ : ∃ k, fuel = k + 1 := ⟨fuel - 1, by omega⟩
    have hfuel' : 2 * (tokens.drop i).length ≤ fuel := by omega
    obtain ⟨word, j, group, hword, ⟨token, htoken, hj⟩, ⟨data, size, next, -, hdata, hnext, hrest⟩,
      hgroups, hgroup⟩ := parseWord_word hfile hnested hlast hlength h hfuel'
    have hi := lt_of_nth htoken
    rw [List.length_drop] at hfuel
    have hrestfuel : 2 * (tokens.drop j).length < fuel := by
      rw [List.length_drop]
      omega
    obtain ⟨vec, j', hvec, hwords⟩ := ih (by omega) hrest hrestfuel
    rw [hgroups]
    exact ⟨word :: vec, j', parseWords_cons hi hword hvec, .cons hgroup hwords⟩

/-! ## Lists -/

/-- The text of the word is in the file. -/
def Word.InFile (contents : Str) (word : Word) : Prop :=
  0 < word.text.bytes.length → word.text.data + word.text.bytes.length ≤ contents.length

theorem Word.InFile.ofView (hfile : context.file = makeSourceFile fileName contents) {word : Word}
    {data size : Nat} (h : word.text = context.file.view data size) : word.InFile contents := by
  intro hpos
  rw [h] at hpos ⊢
  have hfits := view_fits hpos
  rwa [hfile] at hfits ⊢

/-- Each turn of `WordToList` goes on in what is left of the text. -/
theorem wordToListFrom_ok
    (hfind : ∀ list found, interp.findElement list = some found → FoundElement list found)
    (hfile : context.file = makeSourceFile fileName contents) {last : Nat} (fuel : Nat) :
    ∀ {list length : Nat}, list + length = last → (0 < length → last ≤ contents.length) →
      length < fuel → ∃ vec, wordToListFrom interp context last fuel list length = .ok vec := by
  induction fuel with
  | zero =>
    intro list length _ _ hfuel
    omega
  | succ fuel ih =>
    intro list length hend hfits hfuel
    rw [wordToListFrom]
    cases hfound : interp.findElement (context.file.view list length) with
    | none => exact ⟨none, rfl⟩
    | some found =>
      have hview : (context.file.view list length).bytes.length = length := by
        rw [hfile]
        simp only [SourceFile.view, makeSourceFile, List.length_take, List.length_drop]
        omega
      obtain ⟨helement, hnext, hfinish, hprogress⟩ := hfind _ found hfound
      rw [hview] at hfinish hprogress
      have hdata : (context.file.view list length).data = list := rfl
      rw [hdata] at helement hnext hfinish hprogress
      have hunderflow : ¬ (found.next < list ∨ length < found.next - list) := by omega
      dsimp only
      rw [if_neg hunderflow]
      by_cases hlast : last ≤ found.element
      · rw [if_pos hlast]
        exact ⟨some [], rfl⟩
      · rw [if_neg hlast]
        have hstart : found.element ≤ contents.length := by omega
        obtain ⟨location, hlocation⟩ := makeSourceLocation_ok fileName hstart
        rw [← hfile] at hlocation
        have hend' : found.next + (length - (found.next - list)) = last := by omega
        have hfuel' : length - (found.next - list) < fuel := by omega
        obtain ⟨rest, hrest⟩ := ih hend' (fun _ => hfits (by omega)) hfuel'
        exact ⟨_, bind_eq_ok.mpr ⟨location, hlocation, bind_eq_ok.mpr ⟨rest, hrest, rfl⟩⟩⟩

theorem wordToList_ok
    (hfind : ∀ list found, interp.findElement list = some found → FoundElement list found)
    (hfile : context.file = makeSourceFile fileName contents) {word : Word}
    (hin : word.InFile contents) : ∃ word', wordToList interp context word = .ok word' := by
  obtain ⟨vec, hvec⟩ :=
    wordToListFrom_ok hfind hfile (word.text.bytes.length + 1) rfl hin (Nat.lt_succ_self _)
  unfold wordToList
  cases vec with
  | none => exact ⟨word, bind_eq_ok.mpr ⟨none, hvec, rfl⟩⟩
  | some vec => exact ⟨_, bind_eq_ok.mpr ⟨some vec, hvec, rfl⟩⟩

theorem inFile_of_makes (hfile : context.file = makeSourceFile fileName contents)
    {elements : List ListElement} {vec : List Word}
    (h : List.Forall₂ (fun found word => found.Makes context.file word) elements vec) :
    ∀ word ∈ vec, word.InFile contents := by
  induction h with
  | nil => simp
  | cons hmakes _ ih => exact List.forall_mem_cons.mpr ⟨.ofView hfile hmakes.text, ih⟩

theorem findsElements_iff {file : SourceFile} {last list length count : Nat} :
    FindsElements interp file last list length count ↔
      ∃ elements, SplitsFrom interp file last list length elements ∧ elements.length = count := by
  constructor
  · intro h
    induction h with
    | finish hfound hend => exact ⟨[], .finish hfound hend, rfl⟩
    | element hfound hmore _ ih =>
      obtain ⟨elements, hsplits, rfl⟩ := ih
      exact ⟨_, .element hfound hmore hsplits, rfl⟩
  · rintro ⟨elements, hsplits, rfl⟩
    induction hsplits with
    | finish hfound hend => exact .finish hfound hend
    | element hfound hmore _ ih => exact .element hfound hmore ih

theorem splitsToList_iff {file : SourceFile} {text : StringView} :
    SplitsToList interp file text ↔
      ∃ elements, SplitsInto interp file text elements ∧ elements.length ≠ 1 := by
  simp only [SplitsToList, SplitsInto, findsElements_iff]
  constructor
  · rintro ⟨count, ⟨elements, hsplits, rfl⟩, hne⟩
    exact ⟨elements, hsplits, hne⟩
  · rintro ⟨elements, hsplits, hne⟩
    exact ⟨elements.length, ⟨elements, hsplits, rfl⟩, hne⟩

theorem mapM_ok {α β : Type} {f : α → Except Fault β} {l : List α} (h : ∀ a ∈ l, ∃ b, f a = .ok b) :
    ∃ l', l.mapM f = .ok l' := by
  induction l with
  | nil => exact ⟨[], rfl⟩
  | cons a l ih =>
    obtain ⟨b, hb⟩ := h a List.mem_cons_self
    obtain ⟨l', hl'⟩ := ih fun c hc => h c (List.mem_cons_of_mem a hc)
    refine ⟨b :: l', ?_⟩
    rw [List.mapM_cons]
    exact bind_eq_ok.mpr ⟨b, hb, bind_eq_ok.mpr ⟨l', hl', rfl⟩⟩

/-! ## Commands -/

theorem TakenWords.append {call : Call} {k : Nat} {groups others : List (List Token)}
    {words vec : List Word} (h : TakenWords interp nested context call k groups words)
    (h' : TakenWords interp nested context call (k + words.length) others vec) :
    TakenWords interp nested context call k (groups ++ others) (words ++ vec) := by
  induction h with
  | nil => exact h'
  | cons hword _ ih =>
    rw [List.length_cons, Nat.add_comm _ 1, ← Nat.add_assoc] at h'
    exact .cons hword (ih h')

/-- The words that are taken as they are. -/
theorem TakenWords.ofUser {call : Call} (htype : call.type = .USER) {k : Nat}
    {groups : List (List Token)} {words : List Word}
    (h : List.Forall₂ (GroupWord nested context) groups words) :
    TakenWords interp nested context call k groups words := by
  induction h generalizing k with
  | nil => exact .nil
  | cons hword _ ih =>
    have htaking : call.type.taking k = .word := by simp [htype, CallType.taking]
    have hns : bodyNs context.curNs call k = context.curNs := bodyNs_eq_self (by simp [htype])
    refine .cons ?_ ih
    rw [htaking, hns]
    exact .word hword

section Command

variable {parse : TclParse} {length last first n i : Nat}

/-- The step takes the tokens of one word from the `i`-th on, with `n` words left. -/
def Takes (interp : TclInterp) (nested : ScriptParser) (context : ParseContext) (parse : TclParse)
    (last first n i : Nat) (taking : Taking) (step : Except Fault (Word × Nat)) : Prop :=
  ∃ word j next group, step = .ok (word, j) ∧ first ≤ next ∧
    WordTokens last next n (parse.tokens.drop j) ∧
    wordGroups (parse.tokens.drop i) = group :: wordGroups (parse.tokens.drop j) ∧
    TakenWord interp nested context taking group word

/-- The steps for a command of this type take the words that its name asks for from the `i`-th token
on, and all of its words unless it is `USER`. -/
def TakesKnown (interp : TclInterp) (nested : ScriptParser) (context : ParseContext)
    (parse : TclParse) (last first i : Nat) (cmdWord : Word) (type : CallType)
    (run : Except Fault (CallType × List Word × Nat)) : Prop :=
  ∃ words j next m groups, run = .ok (type, words, j) ∧ first ≤ next ∧
    WordTokens last next m (parse.tokens.drop j) ∧ (type = .USER ∨ m = 0) ∧
    wordGroups (parse.tokens.drop i) = groups ++ wordGroups (parse.tokens.drop j) ∧
    ∀ rest, TakenWords interp nested context
      { type, words := cmdWord :: words ++ rest, ns := context.curNs } 1 groups words

variable (hfile : context.file = makeSourceFile fileName contents)
  (hnested : ParsesShorter nested fileName contents length) (hlast : last ≤ contents.length)

include hfile hnested hlast

theorem parseWord_takes (hlength : last ≤ first + length)
    (h : WordTokens last first (n + 1) (parse.tokens.drop i)) : ∃ word j group,
    ParseCommand.parseWord nested context parse i = .ok (word, j) ∧
      TclAnalyzer.parseWord nested context parse.tokens (ParseCommand.fuel parse) i = .ok (word, j) ∧
      i < parse.tokens.length ∧ TakesWord context.file parse.tokens last first n word j ∧
      wordGroups (parse.tokens.drop i) = group :: wordGroups (parse.tokens.drop j) ∧
      GroupWord nested context group word := by
  have hfuel : 2 * (parse.tokens.drop i).length ≤ ParseCommand.fuel parse := by
    rw [List.length_drop, ParseCommand.fuel]
    omega
  obtain ⟨word, j, group, hword, ⟨token, htoken, -⟩, htakes, hgroups, hgroup⟩ :=
    parseWord_word hfile hnested hlast hlength h hfuel
  have hi := lt_of_nth htoken
  have hnot : ¬ parse.tokens.length ≤ i := by omega
  refine ⟨word, j, group, ?_, hword, hi, htakes, hgroups, hgroup⟩
  rw [ParseCommand.parseWord, if_neg hnot]
  exact hword

theorem parseArgs_takes (hcontract : interp.Contract) (hlength : last ≤ first + length)
    (h : WordTokens last first (n + 1) (parse.tokens.drop i)) :
    Takes interp nested context parse last first n i .args
      (ParseCommand.parseArgs interp nested context parse i) := by
  obtain ⟨word, j, group, -, hword, hi, ⟨data, size, next, hview, hdata, hnext, hrest⟩, hgroups,
    hgroup⟩ := parseWord_takes hfile hnested hlast hlength h
  have hnot : ¬ parse.tokens.length ≤ i := by omega
  have hin : word.InFile contents := .ofView hfile hview
  obtain ⟨word', hword'⟩ := wordToList_ok hcontract.findElement hfile hin
  suffices hparsed : ∃ args, ParseCommand.parseArgs interp nested context parse i = .ok (args, j) ∧
      TakenWord interp nested context .args group args by
    obtain ⟨args, hargs, htaken⟩ := hparsed
    exact ⟨args, j, next, group, hargs, by omega, hrest, hgroups, htaken⟩
  rw [ParseCommand.parseArgs, if_neg hnot]
  rcases wordToList_cases hword' with ⟨rfl, hone⟩ | ⟨elements, vec, rfl, hsplits, hlength', hvec⟩
  · have hne := parseWord_type_ne_list hword
    have hplain : ¬ SplitsToList interp context.file word'.text := by
      intro hlist
      obtain ⟨elements, hsplits, hmany⟩ := splitsToList_iff.mp hlist
      exact hmany (hone elements hsplits)
    refine ⟨word', bind_eq_ok.mpr ⟨_, hword, bind_eq_ok.mpr ⟨word', hword', ?_⟩⟩,
      .plain hgroup hplain⟩
    split
    · next htype _ => exact absurd htype hne
    · next htype _ => exact absurd htype hne
    · rfl
  · obtain ⟨args, hargs⟩ := mapM_ok (f := wordToList interp context) fun inner hinner => by
      exact wordToList_ok hcontract.findElement hfile (inFile_of_makes hfile hvec inner hinner)
    refine ⟨{ word with type := .LIST, data := .words args },
      bind_eq_ok.mpr ⟨_, hword, bind_eq_ok.mpr ⟨_, hword', bind_eq_ok.mpr ⟨args, hargs, rfl⟩⟩⟩,
      .list hgroup (splitsToList_iff.mpr ⟨elements, hsplits, hlength'⟩)
        (isElement_of_wordToList (isText_of_makes hvec) (forall₂_of_mapM hargs)) rfl⟩

/-- The body of a command that has something before it is shorter than the script. -/
theorem parseBody_takes (interp : TclInterp) (hlength : last < first + length)
    (h : WordTokens last first (n + 1) (parse.tokens.drop i)) :
    Takes interp nested context parse last first n i .body
      (ParseCommand.parseBody nested context parse i) := by
  obtain ⟨word, j, group, -, hword, hi, ⟨data, size, next, hview, hdata, hnext, hrest⟩, hgroups,
    hgroup⟩ := parseWord_takes hfile hnested hlast (by omega) h
  have hnot : ¬ parse.tokens.length ≤ i := by omega
  have hle := hrest.le
  have hshort := view_length_le context.file data size
  suffices hparsed : ∃ body, ParseCommand.parseBody nested context parse i = .ok (body, j) ∧
      TakenWord interp nested context .body group body by
    obtain ⟨body, hbody, htaken⟩ := hparsed
    exact ⟨body, j, next, group, hbody, by omega, hrest, hgroups, htaken⟩
  rw [ParseCommand.parseBody, if_neg hnot]
  by_cases htext : word.type = .TEXT
  · obtain ⟨script, hscript⟩ := hnested context data size hfile (by omega) (by omega)
    rw [← hview] at hscript
    refine ⟨{ word with type := .SCRIPT, data := .script script },
      bind_eq_ok.mpr ⟨_, hword, ?_⟩, .script hgroup htext hscript rfl⟩
    dsimp only
    rw [if_pos htext]
    exact bind_eq_ok.mpr ⟨script, hscript, rfl⟩
  · refine ⟨word, bind_eq_ok.mpr ⟨_, hword, ?_⟩, .unparsed hgroup htext⟩
    dsimp only
    rw [if_neg htext]
    rfl

theorem parseWord_next (interp : TclInterp) (hlength : last ≤ first + length)
    (h : WordTokens last first (n + 1) (parse.tokens.drop i)) :
    Takes interp nested context parse last first n i .word
      (ParseCommand.parseWord nested context parse i) := by
  obtain ⟨word, j, group, hword, -, -, ⟨data, size, next, -, hdata, hnext, hrest⟩, hgroups,
    hgroup⟩ := parseWord_takes hfile hnested hlast hlength h
  exact ⟨word, j, next, group, hword, by omega, hrest, hgroups, .word hgroup⟩

omit hfile hnested hlast in
theorem TakesKnown.exists {cmdWord : Word} {type : CallType}
    {run : Except Fault (CallType × List Word × Nat)}
    (h : TakesKnown interp nested context parse last first i cmdWord type run)
    (hproc : type = .PROC ↔ cmdWord.type = .TEXT ∧ cmdWord.text.bytes = bytes "proc" ∧
      parse.numWords = 4) : ∃ type words j next m groups, run = .ok (type, words, j) ∧
      first ≤ next ∧ WordTokens last next m (parse.tokens.drop j) ∧ (type = .USER ∨ m = 0) ∧
      wordGroups (parse.tokens.drop i) = groups ++ wordGroups (parse.tokens.drop j) ∧
      (∀ rest, TakenWords interp nested context
        { type, words := cmdWord :: words ++ rest, ns := context.curNs } 1 groups words) ∧
      (type = .PROC ↔ cmdWord.type = .TEXT ∧ cmdWord.text.bytes = bytes "proc" ∧
        parse.numWords = 4) := by
  obtain ⟨words, j, next, m, groups, hrun, hle, hrest, htype, hgroups, hwords⟩ := h
  exact ⟨type, words, j, next, m, groups, hrun, hle, hrest, htype, hgroups, hwords, hproc⟩

omit hfile hnested hlast in
/-- A command that is parsed by no name leaves all words after the command word. -/
theorem user_takes {cmdWord : Word} (h : WordTokens last first n (parse.tokens.drop i)) :
    TakesKnown interp nested context parse last first i cmdWord .USER (.ok (.USER, [], i)) :=
  ⟨[], i, first, n, [], rfl, Nat.le_refl _, h, .inl rfl, rfl, fun _ => .nil⟩

theorem proc_takes (hcontract : interp.Contract) {cmdWord : Word} (hshort : last < first + length)
    (h : WordTokens last first 3 (parse.tokens.drop i)) :
    TakesKnown interp nested context parse last first i cmdWord .PROC (do
      let (name, i) ← ParseCommand.parseWord nested context parse i
      let (args, i) ← ParseCommand.parseArgs interp nested context parse i
      let context' := { context with curNs := procNs context.curNs name }
      let (body, i) ← ParseCommand.parseBody nested context' parse i
      return (.PROC, [name, args, body], i)) := by
  obtain ⟨name, i1, next1, g1, hname, hle1, h1, hg1, ht1⟩ :=
    parseWord_next hfile hnested hlast interp (by omega) h
  obtain ⟨args, i2, next2, g2, hargs, hle2, h2, hg2, ht2⟩ :=
    parseArgs_takes hfile hnested hlast hcontract (by omega) h1
  have hfile' : ({ context with curNs := procNs context.curNs name } : ParseContext).file =
      makeSourceFile fileName contents := hfile
  obtain ⟨body, i3, next3, g3, hbody, hle3, h3, hg3, ht3⟩ :=
    parseBody_takes hfile' hnested hlast interp (by omega) h2
  refine ⟨[name, args, body], i3, next3, 0, [g1, g2, g3], bind_eq_ok.mpr ⟨_, hname,
    bind_eq_ok.mpr ⟨_, hargs, bind_eq_ok.mpr ⟨_, hbody, rfl⟩⟩⟩, by omega, h3, .inr rfl, ?_,
    fun rest => .cons ht1 (.cons ht2 (.cons ht3 .nil))⟩
  rw [hg1, hg2, hg3]
  rfl

theorem while_takes (interp : TclInterp) {cmdWord : Word} (hshort : last < first + length)
    (h : WordTokens last first 2 (parse.tokens.drop i)) :
    TakesKnown interp nested context parse last first i cmdWord .WHILE (do
      let (test, i) ← ParseCommand.parseWord nested context parse i
      let (body, i) ← ParseCommand.parseBody nested context parse i
      return (.WHILE, [test, body], i)) := by
  obtain ⟨test, i1, next1, g1, htest, hle1, h1, hg1, ht1⟩ :=
    parseWord_next hfile hnested hlast interp (by omega) h
  obtain ⟨body, i2, next2, g2, hbody, hle2, h2, hg2, ht2⟩ :=
    parseBody_takes hfile hnested hlast interp (by omega) h1
  refine ⟨[test, body], i2, next2, 0, [g1, g2], bind_eq_ok.mpr ⟨_, htest,
    bind_eq_ok.mpr ⟨_, hbody, rfl⟩⟩, by omega, h2, .inr rfl, ?_,
    fun rest => .cons ht1 (.cons ht2 .nil)⟩
  rw [hg1, hg2]
  rfl

theorem for_takes (interp : TclInterp) {cmdWord : Word} (hshort : last < first + length)
    (h : WordTokens last first 4 (parse.tokens.drop i)) :
    TakesKnown interp nested context parse last first i cmdWord .FOR (do
      let (start, i) ← ParseCommand.parseBody nested context parse i
      let (test, i) ← ParseCommand.parseWord nested context parse i
      let (next, i) ← ParseCommand.parseBody nested context parse i
      let (body, i) ← ParseCommand.parseBody nested context parse i
      return (.FOR, [start, test, next, body], i)) := by
  obtain ⟨start, i1, next1, g1, hstart, hle1, h1, hg1, ht1⟩ :=
    parseBody_takes hfile hnested hlast interp hshort h
  obtain ⟨test, i2, next2, g2, htest, hle2, h2, hg2, ht2⟩ :=
    parseWord_next hfile hnested hlast interp (by omega) h1
  obtain ⟨step, i3, next3, g3, hstep, hle3, h3, hg3, ht3⟩ :=
    parseBody_takes hfile hnested hlast interp (by omega) h2
  obtain ⟨body, i4, next4, g4, hbody, hle4, h4, hg4, ht4⟩ :=
    parseBody_takes hfile hnested hlast interp (by omega) h3
  refine ⟨[start, test, step, body], i4, next4, 0, [g1, g2, g3, g4],
    bind_eq_ok.mpr ⟨_, hstart, bind_eq_ok.mpr ⟨_, htest, bind_eq_ok.mpr ⟨_, hstep,
      bind_eq_ok.mpr ⟨_, hbody, rfl⟩⟩⟩⟩, by omega, h4, .inr rfl, ?_,
    fun rest => .cons ht1 (.cons ht2 (.cons ht3 (.cons ht4 .nil)))⟩
  rw [hg1, hg2, hg3, hg4]
  rfl

theorem foreach_takes (interp : TclInterp) {cmdWord : Word} (hshort : last < first + length)
    (h : WordTokens last first 3 (parse.tokens.drop i)) :
    TakesKnown interp nested context parse last first i cmdWord .FOREACH (do
      let (names, i) ← ParseCommand.parseWord nested context parse i
      let (list, i) ← ParseCommand.parseWord nested context parse i
      let (body, i) ← ParseCommand.parseBody nested context parse i
      return (.FOREACH, [names, list, body], i)) := by
  obtain ⟨names, i1, next1, g1, hnames, hle1, h1, hg1, ht1⟩ :=
    parseWord_next hfile hnested hlast interp (by omega) h
  obtain ⟨list, i2, next2, g2, hlist, hle2, h2, hg2, ht2⟩ :=
    parseWord_next hfile hnested hlast interp (by omega) h1
  obtain ⟨body, i3, next3, g3, hbody, hle3, h3, hg3, ht3⟩ :=
    parseBody_takes hfile hnested hlast interp (by omega) h2
  refine ⟨[names, list, body], i3, next3, 0, [g1, g2, g3], bind_eq_ok.mpr ⟨_, hnames,
    bind_eq_ok.mpr ⟨_, hlist, bind_eq_ok.mpr ⟨_, hbody, rfl⟩⟩⟩, by omega, h3, .inr rfl, ?_,
    fun rest => .cons ht1 (.cons ht2 (.cons ht3 .nil))⟩
  rw [hg1, hg2, hg3]
  rfl

/-- `namespace` takes its subcommand, and `namespace eval` all of its words. -/
theorem namespace_takes (interp : TclInterp) {cmdWord : Word} (hshort : last < first + length)
    (hcount : parse.numWords = n + 2) (h : WordTokens last first (n + 1) (parse.tokens.drop i)) :
    ∃ type, type ≠ .PROC ∧ TakesKnown interp nested context parse last first i cmdWord type (do
      let (subCmd, i) ← ParseCommand.parseWord nested context parse i
      if subCmd.type = .TEXT ∧ subCmd.text.bytes = bytes "eval" ∧ parse.numWords = 4 then
        let (arg, i) ← ParseCommand.parseWord nested context parse i
        let context' := { context with curNs := namespaceEvalNs context.curNs arg }
        let (body, i) ← ParseCommand.parseBody nested context' parse i
        return (.NAMESPACE_EVAL, [subCmd, arg, body], i)
      else return (.USER, [subCmd], i)) := by
  obtain ⟨subCmd, i1, next1, g1, hsub, hle1, h1, hg1, ht1⟩ :=
    parseWord_next hfile hnested hlast interp (by omega) h
  by_cases heval : subCmd.type = .TEXT ∧ subCmd.text.bytes = bytes "eval" ∧ parse.numWords = 4
  · obtain rfl : n = 2 := by omega
    obtain ⟨arg, i2, next2, g2, harg, hle2, h2, hg2, ht2⟩ :=
      parseWord_next hfile hnested hlast interp (by omega) h1
    have hfile' : ({ context with curNs := namespaceEvalNs context.curNs arg } :
        ParseContext).file = makeSourceFile fileName contents := hfile
    obtain ⟨body, i3, next3, g3, hbody, hle3, h3, hg3, ht3⟩ :=
      parseBody_takes hfile' hnested hlast interp (by omega) h2
    refine ⟨.NAMESPACE_EVAL, nofun, [subCmd, arg, body], i3, next3, 0, [g1, g2, g3],
      bind_eq_ok.mpr ⟨_, hsub, ?_⟩, by omega, h3, .inr rfl, ?_,
      fun rest => .cons ht1 (.cons ht2 (.cons ht3 .nil))⟩
    · dsimp only
      rw [if_pos heval]
      exact bind_eq_ok.mpr ⟨_, harg, bind_eq_ok.mpr ⟨_, hbody, rfl⟩⟩
    · rw [hg1, hg2, hg3]
      rfl
  · refine ⟨.USER, nofun, [subCmd], i1, next1, n, [g1], bind_eq_ok.mpr ⟨_, hsub, ?_⟩, hle1, h1,
      .inl rfl, hg1, fun rest => .cons ht1 .nil⟩
    dsimp only
    rw [if_neg heval]
    rfl

/-- A command word that is not empty leaves a shorter script, and each command that is parsed by its
name has the words that are taken of it. -/
theorem parseKnown_takes (hcontract : interp.Contract) {cmdWord : Word}
    (hcount : parse.numWords = n + 1)
    (hcmd : cmdWord.text.bytes ≠ [] → last < first + length)
    (h : WordTokens last first n (parse.tokens.drop i)) : ∃ type words j next m groups,
    ParseCommand.parseKnown interp nested context parse cmdWord i = .ok (type, words, j) ∧
      first ≤ next ∧ WordTokens last next m (parse.tokens.drop j) ∧ (type = .USER ∨ m = 0) ∧
      wordGroups (parse.tokens.drop i) = groups ++ wordGroups (parse.tokens.drop j) ∧
      (∀ rest, TakenWords interp nested context
        { type, words := cmdWord :: words ++ rest, ns := context.curNs } 1 groups words) ∧
      (type = .PROC ↔ cmdWord.type = .TEXT ∧ cmdWord.text.bytes = bytes "proc" ∧
        parse.numWords = 4) := by
  have hshort : ∀ cmd : String, bytes cmd ≠ [] → cmdWord.text.bytes = bytes cmd →
      last < first + length := by
    intro cmd hne heq
    exact hcmd (heq ▸ hne)
  unfold ParseCommand.parseKnown
  by_cases htext : cmdWord.type = .TEXT
  · rw [if_pos htext]
    dsimp only
    split
    · next hproc =>
      obtain rfl : n = 3 := by omega
      exact (proc_takes hfile hnested hlast hcontract (hshort "proc" (by decide +kernel) hproc.1)
        h).exists (iff_of_true rfl ⟨htext, hproc⟩)
    next hproc =>
    have hnotProc : ¬ (cmdWord.type = .TEXT ∧ cmdWord.text.bytes = bytes "proc" ∧
        parse.numWords = 4) := fun h => hproc h.2
    split
    · next hwhile =>
      obtain rfl : n = 2 := by omega
      exact (while_takes hfile hnested hlast interp (hshort "while" (by decide +kernel) hwhile.1)
        h).exists (iff_of_false nofun hnotProc)
    split
    · next hfor =>
      obtain rfl : n = 4 := by omega
      exact (for_takes hfile hnested hlast interp (hshort "for" (by decide +kernel) hfor.1)
        h).exists (iff_of_false nofun hnotProc)
    split
    · next hforeach =>
      obtain rfl : n = 3 := by omega
      exact (foreach_takes hfile hnested hlast interp
        (hshort "foreach" (by decide +kernel) hforeach.1) h).exists (iff_of_false nofun hnotProc)
    split
    · next hnamespace =>
      obtain ⟨n, rfl⟩ : ∃ k, n = k + 1 := ⟨n - 1, by omega⟩
      obtain ⟨type, hne, htakes⟩ := namespace_takes hfile hnested hlast interp
        (hshort "namespace" (by decide +kernel) hnamespace.1) hcount h
      exact htakes.exists (iff_of_false hne hnotProc)
    · exact (user_takes h).exists (iff_of_false nofun hnotProc)
  · rw [if_neg htext]
    exact (user_takes h).exists (iff_of_false nofun fun hproc => htext hproc.1)

/-- `ParseCommand` on a command of the script: one word of each group of tokens. -/
theorem parseCommand_takes (hcontract : interp.Contract) (hlength : last ≤ first + length)
    (hcount : 1 ≤ parse.numWords) (h : WordTokens last first parse.numWords parse.tokens) :
    ∃ call cmdWord, parseCommand interp nested context parse = .ok (some call) ∧
      call.ns = context.curNs ∧
      TakenWords interp nested context call 0 (wordGroups parse.tokens) call.words ∧
      call.words[0]? = some cmdWord ∧ (call.type = .PROC ↔ cmdWord.type = .TEXT ∧
        cmdWord.text.bytes = bytes "proc" ∧ parse.numWords = 4) := by
  have hnot : ¬ parse.numWords < 1 := by omega
  unfold parseCommand
  rw [if_neg hnot]
  obtain ⟨n, hn⟩ : ∃ k, parse.numWords = k + 1 := ⟨parse.numWords - 1, by omega⟩
  rw [hn] at h
  obtain ⟨cmdWord, i, group, hcmd, -, -, ⟨data, size, next, hview, hdata, hnext, hrest⟩, hgroups,
    hgroup⟩ := parseWord_takes hfile hnested hlast hlength (i := 0) h
  rw [List.drop_zero] at hgroups
  have hshort : cmdWord.text.bytes ≠ [] → last < next + length := by
    intro hne
    have hpos := List.length_pos_iff.mpr hne
    have hsize := view_length_le context.file data size
    rw [hview] at hpos
    omega
  obtain ⟨type, known, j, next', m, groups, hknown, hle, hrest', htype, hknownGroups, hknownWords,
    hproc⟩ := parseKnown_takes hfile hnested hlast hcontract hn hshort hrest
  have hfuel : 2 * (parse.tokens.drop j).length < ParseCommand.fuel parse := by
    rw [List.length_drop, ParseCommand.fuel]
    omega
  obtain ⟨vec, j', hvec, hvecWords⟩ := parseWords_rest hfile hnested hlast (by omega) hrest' hfuel
  refine ⟨{ type, words := cmdWord :: known ++ vec, ns := context.curNs }, cmdWord, ?_, rfl, ?_, rfl,
    hproc⟩
  · refine bind_eq_ok.mpr ⟨_, hcmd, bind_eq_ok.mpr ⟨_, hknown, bind_eq_ok.mpr ⟨vec, ?_, rfl⟩⟩⟩
    exact bind_eq_ok.mpr ⟨_, hvec, rfl⟩
  · rw [hgroups, hknownGroups]
    have hcmdTaking : type.taking 0 = .word := by cases type <;> rfl
    refine .cons ?_ ((hknownWords vec).append ?_)
    · rw [bodyNs_eq_self (by simp), hcmdTaking]
      exact .word hgroup
    · rcases htype with rfl | rfl
      · exact .ofUser rfl hvecWords
      · -- all words of the command are taken by its name
        have hnil : parse.tokens.drop j = [] := by
          generalize parse.tokens.drop j = here at hrest'
          cases hrest'
          rfl
        rw [hnil, wordGroups] at hvecWords ⊢
        cases hvecWords
        exact .nil

end Command

/-! ## Scripts -/

/-- The loop of `ParseScript` goes on behind each command. -/
theorem parseScriptFrom_ok (hcontract : interp.Contract)
    (hfile : context.file = makeSourceFile fileName contents) {length : Nat}
    (hnested : ParsesShorter nested fileName contents length) (fuel : Nat) : ∀ data size : Nat,
    data ≤ contents.length → (context.file.view data size).bytes.length ≤ length →
    (context.file.view data size).bytes.length < fuel → ∃ calls,
    parseScriptFrom interp nested context fuel (context.file.view data size) = .ok calls ∧
      ScriptCalls interp nested context (context.file.view data size) calls := by
  induction fuel with
  | zero =>
    intro data size _ _ hfuel
    omega
  | succ fuel ih =>
    intro data size hdata hlength hfuel
    rw [parseScriptFrom]
    by_cases hempty : (context.file.view data size).bytes = []
    · rw [if_pos hempty]
      exact ⟨[], rfl, .finish (.inl hempty)⟩
    · rw [if_neg hempty]
      cases hparse : interp.parseCommand (context.file.view data size) with
      | none => exact ⟨[], rfl, .finish (.inr hparse)⟩
      | some parse =>
        obtain ⟨hwords, hprogress, hfinish⟩ := hcontract.parseCommand _ parse hempty hparse
        have hlast : data + (context.file.view data size).bytes.length ≤ contents.length := by
          have hle := view_finish_le context.file data size
          rw [hfile] at hle ⊢
          exact hle hdata
        have hview : (context.file.view data size).data = data := rfl
        rw [hview] at hwords hprogress hfinish
        set start := parse.commandStart + parse.commandSize with hstart
        set last := data + (context.file.view data size).bytes.length with hlastdef
        have hrest := view_length_le context.file start (last - start)
        obtain ⟨calls, hcalls, hscript⟩ := ih start (last - start) (by omega) (by omega) (by omega)
        have hend : ¬ last < start := by omega
        suffices hcall : ∃ call, parseCommand interp nested context parse = .ok call ∧
            ScriptCalls interp nested context (context.file.view data size) (call.toList ++ calls) by
          obtain ⟨call, hcall, hall⟩ := hcall
          refine ⟨call.toList ++ calls, bind_eq_ok.mpr ⟨call, hcall, ?_⟩, hall⟩
          dsimp only
          rw [hview, ← hstart, ← hlastdef, if_neg hend]
          exact bind_eq_ok.mpr ⟨calls, hcalls, rfl⟩
        by_cases hcount : parse.numWords < 1
        · refine ⟨none, ?_, .empty hempty hparse hcount hscript⟩
          rw [parseCommand, if_pos hcount]
          rfl
        · obtain ⟨call, -, hcall, hns, htaken, -⟩ :=
            parseCommand_takes hfile hnested hlast hcontract (by omega) (by omega) hwords
          exact ⟨some call, hcall, .command hempty hparse hns htaken hscript⟩

/-- `ParseScript` on a text shorter than the bound, with the calls of its commands. -/
theorem parseScriptAt_calls (hcontract : interp.Contract) {depth : Nat}
    (hfile : context.file = makeSourceFile fileName contents)
    (hnested : ParsesShorter (parseScriptAt interp depth) fileName contents depth) {data size : Nat}
    (hdata : data ≤ contents.length) (hlength : (context.file.view data size).bytes.length ≤ depth) :
    ∃ script, parseScriptAt interp (depth + 1) context (context.file.view data size) = .ok script ∧
      ScriptCalls interp (parseScriptAt interp depth) context (context.file.view data size)
        script.commands := by
  obtain ⟨location, hlocation⟩ := makeSourceLocation_ok fileName hdata
  rw [← hfile] at hlocation
  obtain ⟨calls, hcalls, hscript⟩ :=
    parseScriptFrom_ok hcontract hfile hnested _ data size hdata hlength (Nat.lt_succ_self _)
  exact ⟨{ location, commands := calls },
    bind_eq_ok.mpr ⟨location, hlocation, bind_eq_ok.mpr ⟨calls, hcalls, rfl⟩⟩, hscript⟩

theorem parseScriptAt_ok (hcontract : interp.Contract) (fileName contents : Str) (depth : Nat) :
    ParsesShorter (parseScriptAt interp depth) fileName contents depth := by
  induction depth with
  | zero =>
    intro context data size _ _ hlt
    omega
  | succ depth ih =>
    intro context data size hfile hdata hlt
    have hle : (context.file.view data size).bytes.length ≤ depth := Nat.le_of_lt_succ hlt
    obtain ⟨script, hscript, -⟩ := parseScriptAt_calls hcontract hfile ih hdata hle
    exact ⟨script, hscript⟩

/-- `ParseScript` returns a script for every text of a file. -/
theorem parseScript_ok (hcontract : interp.Contract)
    (hfile : context.file = makeSourceFile fileName contents) {data : Nat}
    (hdata : data ≤ contents.length) (size : Nat) :
    ∃ script, parseScript interp context (context.file.view data size) = .ok script :=
  parseScriptAt_ok hcontract fileName contents _ context data size hfile hdata (Nat.lt_succ_self _)

end TclAnalyzer
