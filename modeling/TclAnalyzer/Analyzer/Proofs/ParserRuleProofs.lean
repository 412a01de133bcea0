import TclAnalyzer.Analyzer.Arguments
import TclAnalyzer.Analyzer.Words

/-!
# Induction over what the parser builds

A property of words, calls and scripts that the parser keeps in each way it builds one of them holds
of every parse tree. The property can speak about the namespace string of the place.
-/

namespace TclAnalyzer

variable {interp : TclInterp} {nested : ScriptParser} {context : ParseContext}
  {W : Str → Word → Prop} {C : Str → Call → Prop} {S : Str → Script → Prop}

/-- The ways in which the parser builds words, calls and scripts. -/
structure ParserRule (W : Str → Word → Prop) (C : Str → Call → Prop) (S : Str → Script → Prop) :
    Prop where
  text : ∀ {curNs word}, word.IsText → W curNs word
  missing : ∀ {curNs word}, word.type = .ERROR → word.data = .nothing → W curNs word
  components : ∀ {curNs word vec}, word.type = .TOKEN_LIST ∨ word.type = .EXPAND →
    word.data = .words vec → (∀ inner ∈ vec, W curNs inner) → W curNs word
  scalar : ∀ {curNs word}, W curNs word → W curNs { word with type := .VARIABLE }
  array : ∀ {curNs word name index}, word.type = .ARRAY_ACCESS →
    word.data = .arrayAccess name index → (∀ inner ∈ index, W curNs inner) → W curNs word
  nested : ∀ {curNs word script}, word.type = .SCRIPT → word.data = .script script →
    S curNs script → W curNs word
  list : ∀ {curNs word vec}, word.type = .LIST → word.data = .words vec →
    (∀ inner ∈ vec, inner.IsElement) → W curNs word
  call : ∀ {curNs call}, call.ns = curNs → call.Shaped →
    (∀ k word, call.words[k]? = some word → W (bodyNs curNs call k) word) → C curNs call
  script : ∀ {curNs script}, (∀ call ∈ script.commands, C curNs call) → S curNs script

/-- A parser whose scripts have the property. -/
def ParserKeeps (S : Str → Script → Prop) (nested : ScriptParser) : Prop :=
  ∀ context view script, nested context view = .ok script → S context.curNs script

theorem ite_throw_eq_ok {α : Type} {c : Prop} [Decidable c] {fault : Fault} {x : Except Fault α}
    {a : α} (h : (if c then (do throw fault; x) else x) = .ok a) : ¬ c ∧ x = .ok a := by
  split at h
  · obtain ⟨u, hthrow, -⟩ := bind_eq_ok.mp h
    cases hthrow
  · next hc => exact ⟨hc, h⟩

theorem ite_throw_ok {α : Type} {c : Prop} [Decidable c] {fault : Fault} {x : Except Fault α} {a : α}
    (h : (if c then (do throw fault; x) else x) = .ok a) : x = .ok a :=
  (ite_throw_eq_ok h).2

/-! ## Words -/

theorem parseWord_cases {tokens : List Token} {fuel i j : Nat} {word : Word}
    (h : parseWord nested context tokens (fuel + 1) i = .ok (word, j)) :
    WordCase nested context tokens fuel i word j := by
  rw [parseWord] at h
  obtain ⟨token, htoken, h⟩ := bind_eq_ok.mp h
  have htoken := nth_eq_ok.mp htoken
  dsimp only at h
  cases htype : token.type with
  | SIMPLE_WORD =>
    simp only [htype] at h
    obtain ⟨hcount, h⟩ := ite_throw_eq_ok h
    exact .simple htoken htype (not_not.mp hcount) h
  | WORD =>
    simp only [htype] at h
    obtain ⟨location, hlocation, h⟩ := bind_eq_ok.mp h
    obtain ⟨⟨vec, i'⟩, hvec, h⟩ := bind_eq_ok.mp h
    cases h
    exact .compound htoken (.inl ⟨htype, rfl⟩) ⟨hlocation, rfl⟩ rfl hvec
  | EXPAND_WORD =>
    simp only [htype] at h
    obtain ⟨location, hlocation, h⟩ := bind_eq_ok.mp h
    obtain ⟨⟨vec, i'⟩, hvec, h⟩ := bind_eq_ok.mp h
    cases h
    exact .compound htoken (.inr ⟨htype, rfl⟩) ⟨hlocation, rfl⟩ rfl hvec
  | TEXT =>
    simp only [htype] at h
    obtain ⟨location, hlocation, h⟩ := bind_eq_ok.mp h
    cases h
    exact .text htoken (.inl htype) ⟨hlocation, rfl⟩ ⟨rfl, rfl⟩
  | BS =>
    simp only [htype] at h
    obtain ⟨location, hlocation, h⟩ := bind_eq_ok.mp h
    cases h
    exact .text htoken (.inr htype) ⟨hlocation, rfl⟩ ⟨rfl, rfl⟩
  | COMMAND =>
    simp only [htype] at h
    obtain ⟨location, hlocation, h⟩ := bind_eq_ok.mp h
    obtain ⟨hsize, h⟩ := ite_throw_eq_ok h
    obtain ⟨script, hscript, h⟩ := bind_eq_ok.mp h
    cases h
    exact .command htoken htype (Nat.le_of_not_lt hsize) ⟨hlocation, rfl⟩ rfl hscript rfl
  | VARIABLE =>
    simp only [htype] at h
    by_cases hcount : token.numComponents = 1
    · rw [if_pos hcount] at h
      obtain ⟨⟨inner, i'⟩, hinner, h⟩ := bind_eq_ok.mp h
      cases h
      exact .scalar htoken htype hcount hinner
    · rw [if_neg hcount] at h
      obtain ⟨location, hlocation, h⟩ := bind_eq_ok.mp h
      obtain ⟨⟨name, i'⟩, hname, h⟩ := bind_eq_ok.mp h
      obtain ⟨htext, h⟩ := ite_throw_eq_ok h
      obtain ⟨⟨index, i''⟩, hindex, h⟩ := bind_eq_ok.mp h
      cases h
      exact .array htoken htype hcount hname (not_not.mp htext) hindex ⟨hlocation, rfl⟩ rfl rfl
  | SUB_EXPR | OPERATOR =>
    simp only [htype] at h
    cases h

theorem parseWords_cases {tokens : List Token} {fuel max i j : Nat} {words : List Word}
    (h : parseWords nested context tokens (fuel + 1) max i = .ok (words, j)) :
    (words = [] ∧ j = i) ∨ ∃ word rest next, words = word :: rest ∧
      parseWord nested context tokens fuel i = .ok (word, next) ∧
      parseWords nested context tokens fuel max next = .ok (rest, j) := by
  rw [parseWords] at h
  split at h
  · obtain ⟨⟨word, next⟩, hword, h⟩ := bind_eq_ok.mp h
    obtain ⟨⟨rest, j'⟩, hrest, h⟩ := bind_eq_ok.mp h
    cases h
    exact .inr ⟨word, rest, next, rfl, hword, hrest⟩
  · cases h
    exact .inl ⟨rfl, rfl⟩

/-- The induction is on the fuel, for one word and for a sequence of words at once. -/
theorem ParserRule.parseWord (rule : ParserRule W C S) (hn : ParserKeeps S nested) (tokens : List Token)
    (fuel : Nat) :
    (∀ i word j, parseWord nested context tokens fuel i = .ok (word, j) →
      W context.curNs word ∧ word.type ≠ .LIST ∧ (word.type = .TEXT → word.data = .nothing)) ∧
    ∀ max i words j, parseWords nested context tokens fuel max i = .ok (words, j) →
      ∀ word ∈ words, W context.curNs word := by
  induction fuel with
  | zero =>
    refine ⟨fun i word j h => ?_, fun max i words j h => ?_⟩
    · rw [TclAnalyzer.parseWord] at h
      cases h
    · rw [parseWords] at h
      cases h
  | succ fuel ih =>
    obtain ⟨ihword, ihwords⟩ := ih
    constructor
    · intro i word j h
      cases parseWord_cases h with
      | simple _ _ _ hword => exact ihword _ _ _ hword
      | compound _ htype _ hdata hvec =>
        have hword : word.type = .TOKEN_LIST ∨ word.type = .EXPAND := htype.imp And.right And.right
        refine ⟨rule.components hword hdata (ihwords _ _ _ _ hvec), fun hlist => ?_, fun htext => ?_⟩
        · rcases hword with hword | hword <;> cases hword.symm.trans hlist
        · rcases hword with hword | hword <;> cases hword.symm.trans htext
      | text _ _ _ htext =>
        refine ⟨rule.text htext, fun hlist => ?_, fun _ => htext.2⟩
        cases htext.1.symm.trans hlist
      | command _ _ _ _ htype hscript hdata =>
        refine ⟨rule.nested htype hdata (hn _ _ _ hscript), fun hlist => ?_, fun htext => ?_⟩
        · cases htype.symm.trans hlist
        · cases htype.symm.trans htext
      | scalar _ _ _ hword => exact ⟨rule.scalar (ihword _ _ _ hword).1, nofun, nofun⟩
      | array _ _ _ _ _ hindex _ htype hdata =>
        refine ⟨rule.array htype hdata (ihwords _ _ _ _ hindex), fun hlist => ?_, fun htext => ?_⟩
        · cases htype.symm.trans hlist
        · cases htype.symm.trans htext
    · intro max i words j h
      rcases parseWords_cases h with ⟨rfl, -⟩ | ⟨first, rest, next, rfl, hfirst, hrest⟩
      · simp
      · exact List.forall_mem_cons.mpr ⟨(ihword _ _ _ hfirst).1, ihwords _ _ _ _ hrest⟩

/-- A list is only made of a word after it is parsed. -/
theorem parseWord_type_ne_list {fuel i j : Nat} {tokens : List Token} {word : Word}
    (h : parseWord nested context tokens fuel i = .ok (word, j)) : word.type ≠ .LIST := by
  have rule : ParserRule (fun _ _ => True) (fun _ _ => True) (fun _ _ => True) := by
    constructor <;> intros <;> trivial
  have hkeeps : ParserKeeps (fun _ _ => True) nested := fun _ _ _ _ => trivial
  exact ((rule.parseWord hkeeps tokens fuel).1 i word j h).2.1

/-! ## Lists -/

theorem SplitsFrom.unique {file : SourceFile} {last list length : Nat}
    {elements others : List ListElement} (h : SplitsFrom interp file last list length elements)
    (h' : SplitsFrom interp file last list length others) : elements = others := by
  induction h generalizing others with
  | finish hfound hend =>
    cases h' with
    | finish => rfl
    | element hfound' hmore =>
      cases hfound.symm.trans hfound'
      exact absurd hend (Nat.not_le_of_lt hmore)
  | element hfound hmore _ ih =>
    cases h' with
    | finish hfound' hend =>
      cases hfound.symm.trans hfound'
      exact absurd hend (Nat.not_le_of_lt hmore)
    | element hfound' _ hrest =>
      cases hfound.symm.trans hfound'
      rw [ih hrest]

/-- A turn of the loop: the text is no list, or it is at its end, or the word of an element comes before
those of the next turns. -/
theorem wordToListFrom_cases {last fuel list length : Nat} {result : Option (List Word)}
    (h : wordToListFrom interp context last (fuel + 1) list length = .ok result) :
    (interp.findElement (context.file.view list length) = none ∧ result = none) ∨
    ∃ found, interp.findElement (context.file.view list length) = some found ∧
      ((last ≤ found.element ∧ result = some []) ∨
      found.element < last ∧ ∃ word rest, found.Makes context.file word ∧
        wordToListFrom interp context last fuel found.next (length - (found.next - list)) = .ok rest ∧
        result = rest.map (word :: ·)) := by
  rw [wordToListFrom] at h
  cases hfound : interp.findElement (context.file.view list length) with
  | none =>
    rw [hfound] at h
    cases h
    exact .inl ⟨rfl, rfl⟩
  | some found =>
    rw [hfound] at h
    have h := ite_throw_ok h
    refine .inr ⟨found, rfl, ?_⟩
    by_cases hend : last ≤ found.element
    · rw [if_pos hend] at h
      cases h
      exact .inl ⟨hend, rfl⟩
    · rw [if_neg hend] at h
      obtain ⟨location, hlocation, h⟩ := bind_eq_ok.mp h
      obtain ⟨rest, hrest, h⟩ := bind_eq_ok.mp h
      cases h
      exact .inr ⟨Nat.lt_of_not_le hend, _, rest, ⟨rfl, hlocation, rfl, rfl⟩, hrest, rfl⟩

/-- The loop makes a word of each element, and gives up on a text that is no list. -/
theorem wordToListFrom_splits {last fuel list length : Nat} {result : Option (List Word)}
    (h : wordToListFrom interp context last fuel list length = .ok result) :
    (∀ elements, SplitsFrom interp context.file last list length elements → result.isSome) ∧
    ∀ vec, result = some vec → ∃ elements, SplitsFrom interp context.file last list length elements ∧
      List.Forall₂ (fun found word => found.Makes context.file word) elements vec := by
  induction fuel generalizing list length result with
  | zero => cases h
  | succ fuel ih =>
    rcases wordToListFrom_cases h with ⟨hnone, rfl⟩ |
      ⟨found, hfound, ⟨hend, rfl⟩ | ⟨hmore, word, rest, hmakes, hrest, rfl⟩⟩
    · refine ⟨fun elements hsplits => ?_, nofun⟩
      cases hsplits with
      | finish hfound => cases hnone.symm.trans hfound
      | element hfound => cases hnone.symm.trans hfound
    · refine ⟨fun _ _ => rfl, fun vec hvec => ?_⟩
      cases hvec
      exact ⟨[], .finish hfound hend, .nil⟩
    · obtain ⟨hsome, hwords⟩ := ih hrest
      constructor
      · intro elements hsplits
        cases hsplits with
        | finish hfound' hend =>
          cases hfound.symm.trans hfound'
          exact absurd hend (Nat.not_le_of_lt hmore)
        | element hfound' _ hsplits =>
          cases hfound.symm.trans hfound'
          rw [Option.isSome_map]
          exact hsome _ hsplits
      · intro vec hvec
        obtain ⟨tail, rfl, rfl⟩ := Option.map_eq_some_iff.mp hvec
        obtain ⟨elements, hsplits, htail⟩ := hwords tail rfl
        exact ⟨found :: elements, .element hfound hmore hsplits, .cons hmakes htail⟩

/-- `WordToList` leaves a word alone, or makes a list of the elements its text splits into. -/
theorem wordToList_cases {word word' : Word} (h : wordToList interp context word = .ok word') :
    (word' = word ∧ ∀ elements, SplitsInto interp context.file word.text elements →
      elements.length = 1) ∨
    ∃ elements vec, word' = { word with type := .LIST, data := .words vec } ∧
      SplitsInto interp context.file word.text elements ∧ elements.length ≠ 1 ∧
      List.Forall₂ (fun found word => found.Makes context.file word) elements vec := by
  obtain ⟨result, hresult, h⟩ := bind_eq_ok.mp h
  obtain ⟨hsome, hwords⟩ := wordToListFrom_splits hresult
  cases result with
  | none =>
    cases h
    refine .inl ⟨rfl, fun elements hsplits => ?_⟩
    cases hsome elements hsplits
  | some vec =>
    obtain ⟨elements, hsplits, hvec⟩ := hwords vec rfl
    by_cases hone : vec.length = 1
    · simp only [hone, if_true] at h
      cases h
      refine .inl ⟨rfl, fun others hothers => ?_⟩
      rw [← hsplits.unique hothers, hvec.length_eq, hone]
    · simp only [hone, if_false] at h
      cases h
      exact .inr ⟨elements, vec, rfl, hsplits, by rwa [hvec.length_eq], hvec⟩

theorem isText_of_makes {file : SourceFile} {elements : List ListElement} {vec : List Word}
    (h : List.Forall₂ (fun found word => found.Makes file word) elements vec) :
    ∀ word ∈ vec, word.IsText := by
  induction h with
  | nil => simp
  | cons hmakes _ ih => exact List.forall_mem_cons.mpr ⟨⟨hmakes.type, hmakes.data⟩, ih⟩

theorem wordToList_isElement {word word' : Word} (hword : word.IsText)
    (h : wordToList interp context word = .ok word') : word'.IsElement := by
  rcases wordToList_cases h with ⟨rfl, -⟩ | ⟨elements, vec, rfl, -, -, hvec⟩
  · exact Or.inl hword
  · exact Or.inr ⟨rfl, vec, rfl, isText_of_makes hvec⟩

theorem isElement_of_wordToList {vec vec' : List Word} (hvec : ∀ word ∈ vec, word.IsText)
    (h : List.Forall₂ (fun word arg => wordToList interp context word = .ok arg) vec vec') :
    ∀ arg ∈ vec', arg.IsElement := by
  induction h with
  | nil => simp
  | cons hword _ ih =>
    obtain ⟨hfirst, hrest⟩ := List.forall_mem_cons.mp hvec
    exact List.forall_mem_cons.mpr ⟨wordToList_isElement hfirst hword, ih hrest⟩

/-! ## Commands -/

section Commands

variable {parse : TclParse}

theorem ParserRule.parseRest (rule : ParserRule W C S) (hn : ParserKeeps S nested) {i : Nat}
    {words : List Word} (h : ParseCommand.parseRest nested context parse i = .ok words) :
    ∀ word ∈ words, W context.curNs word := by
  obtain ⟨⟨vec, j⟩, hvec, h⟩ := bind_eq_ok.mp h
  cases h
  exact (rule.parseWord hn _ _).2 _ _ _ _ hvec

theorem errorWord_ok {message : String} {word : Word}
    (h : ParseCommand.errorWord context parse message = .ok word) :
    word.type = .ERROR ∧ word.data = .nothing := by
  obtain ⟨location, -, h⟩ := bind_eq_ok.mp h
  cases h
  exact ⟨rfl, rfl⟩

/-- What `parseWord` takes: the next word, unless there is none. -/
theorem parseCommandWord_cases {i j : Nat} {word : Word}
    (h : ParseCommand.parseWord nested context parse i = .ok (word, j)) :
    (ParseCommand.errorWord context parse "Expected word!" = .ok word ∧ j = i) ∨
      TclAnalyzer.parseWord nested context parse.tokens (ParseCommand.fuel parse) i =
        .ok (word, j) := by
  unfold ParseCommand.parseWord at h
  split at h
  · obtain ⟨error, herror, h⟩ := bind_eq_ok.mp h
    cases h
    exact .inl ⟨herror, rfl⟩
  · exact .inr h

/-- What `parseBody` takes: a text is parsed as a script. -/
theorem parseBody_cases {i j : Nat} {body : Word}
    (h : ParseCommand.parseBody nested context parse i = .ok (body, j)) :
    (ParseCommand.errorWord context parse "Expected body!" = .ok body ∧ j = i) ∨
    ∃ word, TclAnalyzer.parseWord nested context parse.tokens (ParseCommand.fuel parse) i =
      .ok (word, j) ∧
      ((body = word ∧ word.type ≠ .TEXT) ∨
      ∃ script, nested context word.text = .ok script ∧
        word.type = .TEXT ∧ body = { word with type := .SCRIPT, data := .script script }) := by
  unfold ParseCommand.parseBody at h
  split at h
  · obtain ⟨error, herror, h⟩ := bind_eq_ok.mp h
    cases h
    exact .inl ⟨herror, rfl⟩
  · obtain ⟨⟨word, next⟩, hword, h⟩ := bind_eq_ok.mp h
    by_cases htext : word.type = .TEXT
    · simp only [htext, if_true] at h
      obtain ⟨script, hscript, h⟩ := bind_eq_ok.mp h
      cases h
      exact .inr ⟨word, hword, .inr ⟨script, hscript, htext, rfl⟩⟩
    · simp only [htext, if_false] at h
      cases h
      exact .inr ⟨_, hword, .inl ⟨rfl, htext⟩⟩

theorem ParserRule.parseCommandWord (rule : ParserRule W C S) (hn : ParserKeeps S nested) {i j : Nat}
    {word : Word} (h : ParseCommand.parseWord nested context parse i = .ok (word, j)) :
    W context.curNs word := by
  rcases parseCommandWord_cases h with ⟨herror, -⟩ | hword
  · obtain ⟨htype, hdata⟩ := errorWord_ok herror
    exact rule.missing htype hdata
  · exact ((rule.parseWord hn _ _).1 _ _ _ hword).1

theorem ParserRule.parseBody (rule : ParserRule W C S) (hn : ParserKeeps S nested) {i j : Nat} {word : Word}
    (h : ParseCommand.parseBody nested context parse i = .ok (word, j)) : W context.curNs word := by
  rcases parseBody_cases h with ⟨herror, -⟩ |
    ⟨inner, hinner, ⟨rfl, -⟩ | ⟨script, hscript, -, rfl⟩⟩
  · obtain ⟨htype, hdata⟩ := errorWord_ok herror
    exact rule.missing htype hdata
  · exact ((rule.parseWord hn _ _).1 _ _ _ hinner).1
  · exact rule.nested rfl rfl (hn _ _ _ hscript)

/-- What `parseArgs` takes: the text of a word and its elements are split, unless there is no word. -/
theorem parseArgs_cases {i j : Nat} {args : Word}
    (h : ParseCommand.parseArgs interp nested context parse i = .ok (args, j)) :
    (ParseCommand.errorWord context parse "Expected list!" = .ok args ∧ j = i) ∨
    ∃ word, TclAnalyzer.parseWord nested context parse.tokens (ParseCommand.fuel parse) i =
      .ok (word, j) ∧
      ((args = word ∧ ∀ elements, SplitsInto interp context.file word.text elements →
        elements.length = 1) ∨
      ∃ elements texts vec, args = { word with type := .LIST, data := .words vec } ∧
        SplitsInto interp context.file word.text elements ∧ elements.length ≠ 1 ∧
        List.Forall₂ (fun found word => found.Makes context.file word) elements texts ∧
        List.Forall₂ (fun text arg => wordToList interp context text = .ok arg) texts vec) := by
  unfold ParseCommand.parseArgs at h
  split at h
  · obtain ⟨error, herror, h⟩ := bind_eq_ok.mp h
    cases h
    exact .inl ⟨herror, rfl⟩
  · obtain ⟨⟨word, next⟩, hword, h⟩ := bind_eq_ok.mp h
    obtain ⟨list, hlist, hresult⟩ := bind_eq_ok.mp h
    have hnolist := parseWord_type_ne_list hword
    rcases wordToList_cases hlist with ⟨rfl, hone⟩ | ⟨elements, texts, rfl, hsplits, hlength, htexts⟩
    · split at hresult
      · next vec htype _ => exact absurd htype hnolist
      · next htype _ => exact absurd htype hnolist
      · cases hresult
        exact .inr ⟨_, hword, .inl ⟨rfl, hone⟩⟩
    · obtain ⟨vec, hvec, hresult⟩ := bind_eq_ok.mp hresult
      cases hresult
      exact .inr ⟨word, hword, .inr
        ⟨elements, texts, vec, rfl, hsplits, hlength, htexts, forall₂_of_mapM hvec⟩⟩

/-- The argument word of a `proc`. -/
theorem ParserRule.parseArgs (rule : ParserRule W C S) (hn : ParserKeeps S nested) {i j : Nat} {word : Word}
    (h : ParseCommand.parseArgs interp nested context parse i = .ok (word, j)) :
    W context.curNs word ∧
      (word.type = .LIST → ∃ vec, word.data = .words vec ∧ ∀ arg ∈ vec, arg.IsElement) := by
  rcases parseArgs_cases h with ⟨herror, -⟩ |
    ⟨plain, hplain, ⟨rfl, -⟩ | ⟨elements, texts, vec, rfl, -, -, htexts, hvec⟩⟩
  · obtain ⟨htype, hdata⟩ := errorWord_ok herror
    refine ⟨rule.missing htype hdata, fun hlist => ?_⟩
    cases htype.symm.trans hlist
  · obtain ⟨hword, hnolist, -⟩ := (rule.parseWord hn _ _).1 _ _ _ hplain
    exact ⟨hword, fun hlist => absurd hlist hnolist⟩
  · have helements := isElement_of_wordToList (isText_of_makes htexts) hvec
    exact ⟨rule.list rfl rfl helements, fun _ => ⟨vec, rfl, helements⟩⟩

theorem ParserRule.take (rule : ParserRule W C S) (hn : ParserKeeps S nested) {taking : Taking}
    {i j : Nat} {word : Word} (h : taking.take interp nested context parse i = .ok (word, j)) :
    W context.curNs word := by
  cases taking with
  | word => exact rule.parseCommandWord hn h
  | args => exact (rule.parseArgs hn h).1
  | body => exact rule.parseBody hn h

/-- Only the bodies of `proc` and `namespace eval` have another namespace string. -/
theorem bodyNs_eq_self {curNs : Str} {call : Call} {k : Nat}
    (h : k = 3 → call.type ≠ .PROC ∧ call.type ≠ .NAMESPACE_EVAL) : bodyNs curNs call k = curNs := by
  unfold bodyNs
  split
  · next hproc => exact absurd hproc (h rfl).1
  · next heval => exact absurd heval (h rfl).2
  · rfl

/-- The words of a call up to the rest are taken one after the other. -/
theorem parseKnown_takings {cmdWord : Word} {i j : Nat} {type : CallType} {known : List Word}
    (h : ParseCommand.parseKnown interp nested context parse cmdWord i = .ok (type, known, j)) :
    (∀ rest, Takings interp nested context parse
      { type, words := cmdWord :: known ++ rest, ns := context.curNs } 1 i known j) ∧
    (type = .PROC ∨ type = .NAMESPACE_EVAL → known.length = 3) := by
  unfold ParseCommand.parseKnown at h
  dsimp only at h
  by_cases htext : cmdWord.type = .TEXT
  · rw [if_pos htext] at h
    by_cases hproc : cmdWord.text.bytes = bytes "proc" ∧ parse.numWords = 4
    · rw [if_pos hproc] at h
      obtain ⟨⟨name, i1⟩, hname, h⟩ := bind_eq_ok.mp h
      obtain ⟨⟨args, i2⟩, hargs, h⟩ := bind_eq_ok.mp h
      obtain ⟨⟨body, i3⟩, hbody, h⟩ := bind_eq_ok.mp h
      cases h
      exact ⟨fun rest => .cons hname (.cons hargs (.cons hbody .nil)), fun _ => rfl⟩
    rw [if_neg hproc] at h
    by_cases hwhile : cmdWord.text.bytes = bytes "while" ∧ parse.numWords = 3
    · rw [if_pos hwhile] at h
      obtain ⟨⟨test, i1⟩, htest, h⟩ := bind_eq_ok.mp h
      obtain ⟨⟨body, i2⟩, hbody, h⟩ := bind_eq_ok.mp h
      cases h
      exact ⟨fun rest => .cons htest (.cons hbody .nil), by simp⟩
    rw [if_neg hwhile] at h
    by_cases hfor : cmdWord.text.bytes = bytes "for" ∧ parse.numWords = 5
    · rw [if_pos hfor] at h
      obtain ⟨⟨start, i1⟩, hstart, h⟩ := bind_eq_ok.mp h
      obtain ⟨⟨test, i2⟩, htest, h⟩ := bind_eq_ok.mp h
      obtain ⟨⟨next, i3⟩, hnext, h⟩ := bind_eq_ok.mp h
      obtain ⟨⟨body, i4⟩, hbody, h⟩ := bind_eq_ok.mp h
      cases h
      exact ⟨fun rest => .cons hstart (.cons htest (.cons hnext (.cons hbody .nil))), by simp⟩
    rw [if_neg hfor] at h
    by_cases hforeach : cmdWord.text.bytes = bytes "foreach" ∧ parse.numWords = 4
    · rw [if_pos hforeach] at h
      obtain ⟨⟨names, i1⟩, hnames, h⟩ := bind_eq_ok.mp h
      obtain ⟨⟨list, i2⟩, hlist, h⟩ := bind_eq_ok.mp h
      obtain ⟨⟨body, i3⟩, hbody, h⟩ := bind_eq_ok.mp h
      cases h
      exact ⟨fun rest => .cons hnames (.cons hlist (.cons hbody .nil)), by simp⟩
    rw [if_neg hforeach] at h
    by_cases hns : cmdWord.text.bytes = bytes "namespace" ∧ parse.numWords > 1
    · rw [if_pos hns] at h
      obtain ⟨⟨subCmd, i1⟩, hsub, h⟩ := bind_eq_ok.mp h
      dsimp only at h
      by_cases heval : subCmd.type = .TEXT ∧ subCmd.text.bytes = bytes "eval" ∧ parse.numWords = 4
      · rw [if_pos heval] at h
        obtain ⟨⟨arg, i2⟩, harg, h⟩ := bind_eq_ok.mp h
        obtain ⟨⟨body, i3⟩, hbody, h⟩ := bind_eq_ok.mp h
        cases h
        exact ⟨fun rest => .cons hsub (.cons harg (.cons hbody .nil)), fun _ => rfl⟩
      · rw [if_neg heval] at h
        cases h
        exact ⟨fun rest => .cons hsub .nil, by simp⟩
    · rw [if_neg hns] at h
      cases h
      exact ⟨fun rest => .nil, by simp⟩
  · rw [if_neg htext] at h
    cases h
    exact ⟨fun rest => .nil, by simp⟩

/-- Only a call that its command word makes special takes another word as a body. -/
theorem parseKnown_user {cmdWord : Word} {i j : Nat} {type : CallType} {known : List Word}
    (h : ParseCommand.parseKnown interp nested context parse cmdWord i = .ok (type, known, j))
    (htype : type ≠ .USER) : cmdWord.text.bytes ≠ [] := by
  intro hempty
  have hcmd : ∀ {cmd : String}, bytes cmd ≠ [] → ∀ p, ¬ (cmdWord.text.bytes = bytes cmd ∧ p) :=
    fun hne p heq => hne (heq.1.symm.trans hempty)
  unfold ParseCommand.parseKnown at h
  dsimp only at h
  split at h
  · rw [if_neg (hcmd (by decide +kernel) _), if_neg (hcmd (by decide +kernel) _),
      if_neg (hcmd (by decide +kernel) _), if_neg (hcmd (by decide +kernel) _),
      if_neg (hcmd (by decide +kernel) _)] at h
    cases h
    exact htype rfl
  · cases h
    exact htype rfl

/-- How a call gets its words: the command word, the ones its type asks for, and the rest. -/
theorem parseCommand_takings {call : Call}
    (h : parseCommand interp nested context parse = .ok (some call)) :
    ∃ cmdWord known rest i j, call.ns = context.curNs ∧ call.words = cmdWord :: known ++ rest ∧
      ParseCommand.parseWord nested context parse 0 = .ok (cmdWord, i) ∧
      Takings interp nested context parse call 1 i known j ∧
      ParseCommand.parseRest nested context parse j = .ok rest ∧
      (call.type = .PROC ∨ call.type = .NAMESPACE_EVAL → known.length = 3) ∧
      (call.type ≠ .USER → cmdWord.text.bytes ≠ []) := by
  unfold parseCommand at h
  by_cases hwords : parse.numWords < 1
  · rw [if_pos hwords] at h
    cases h
  rw [if_neg hwords] at h
  obtain ⟨⟨cmdWord, i⟩, hcmd, h⟩ := bind_eq_ok.mp h
  obtain ⟨⟨type, known, j⟩, hknown, h⟩ := bind_eq_ok.mp h
  obtain ⟨rest, hrest, h⟩ := bind_eq_ok.mp h
  cases h
  obtain ⟨htakings, hlength⟩ := parseKnown_takings hknown
  exact ⟨cmdWord, known, rest, i, j, rfl, rfl, hcmd, htakings rest, hrest, hlength,
    parseKnown_user hknown⟩

/-- The word at its place in the call, with what it was taken by. -/
theorem Takings.get {call : Call} {k i j : Nat} {words : List Word}
    (h : Takings interp nested context parse call k i words j) : ∀ {n : Nat} {word : Word},
    words[n]? = some word → ∃ i' j', (call.type.taking (k + n)).take interp nested
      { context with curNs := bodyNs context.curNs call (k + n) } parse i' = .ok (word, j') := by
  induction h with
  | nil =>
    intro n word hn
    cases hn
  | @cons k i next j first words hfirst _ ih =>
    intro n word hn
    cases n with
    | zero =>
      cases hn
      exact ⟨i, next, hfirst⟩
    | succ n =>
      obtain ⟨i', j', hword⟩ := ih hn
      rw [Nat.add_assoc, Nat.add_comm 1 n] at hword
      exact ⟨i', j', hword⟩

theorem ParserRule.parseCommand (rule : ParserRule W C S) (hn : ParserKeeps S nested) {call : Call}
    (h : parseCommand interp nested context parse = .ok (some call)) : C context.curNs call := by
  obtain ⟨cmdWord, known, rest, i, j, hns, hwords, hcmd, htakings, hrest, hlength, -⟩ :=
    parseCommand_takings h
  refine rule.call hns ⟨?_, fun hbody => ?_, fun args hproc hargs hlist => ?_⟩ fun k word hk => ?_
  · rw [hwords]
    exact List.cons_ne_nil _ _
  · rw [hwords, List.cons_append, List.length_cons, List.length_append, hlength hbody]
    omega
  · -- the arguments are the second word that the call asks for
    rw [hwords, List.cons_append, List.getElem?_cons_succ,
      List.getElem?_append_left (by rw [hlength (.inl hproc)]; decide)] at hargs
    obtain ⟨i', j', htaken⟩ := htakings.get hargs
    rw [hproc] at htaken
    exact (rule.parseArgs hn htaken).2 hlist
  · rw [hwords] at hk
    cases k with
    | zero =>
      cases hk
      rw [bodyNs_eq_self (by simp)]
      exact rule.parseCommandWord hn hcmd
    | succ k =>
      rw [List.cons_append, List.getElem?_cons_succ] at hk
      by_cases hlt : k < known.length
      · rw [List.getElem?_append_left hlt] at hk
        obtain ⟨i', j', htaken⟩ := htakings.get hk
        rw [Nat.add_comm 1 k] at htaken
        exact rule.take hn htaken
      · rw [List.getElem?_append_right (by omega)] at hk
        have hself : bodyNs context.curNs call (k + 1) = context.curNs := by
          refine bodyNs_eq_self fun hthree => not_or.mp fun hbody => hlt ?_
          rw [hlength hbody]
          omega
        rw [hself]
        exact rule.parseRest hn hrest word (List.mem_of_getElem? hk)

end Commands

/-! ## Scripts -/

theorem ParserRule.parseScriptFrom (rule : ParserRule W C S) (hn : ParserKeeps S nested) {fuel : Nat}
    {view : StringView} {commands : List Call}
    (h : parseScriptFrom interp nested context fuel view = .ok commands) :
    ∀ call ∈ commands, C context.curNs call := by
  induction fuel generalizing view commands with
  | zero => cases h
  | succ fuel ih =>
    rw [TclAnalyzer.parseScriptFrom] at h
    by_cases hempty : view.bytes = []
    · rw [if_pos hempty] at h
      cases h
      simp
    rw [if_neg hempty] at h
    cases hparse : interp.parseCommand view with
    | none =>
      rw [hparse] at h
      cases h
      simp
    | some parse =>
      rw [hparse] at h
      obtain ⟨call, hcall, h⟩ := bind_eq_ok.mp h
      obtain ⟨rest, hrest, h⟩ := bind_eq_ok.mp (ite_throw_ok h)
      cases h
      intro c hc
      rcases List.mem_append.mp hc with hc | hc
      · rw [Option.mem_toList] at hc
        cases hc
        exact rule.parseCommand hn hcall
      · exact ih hrest c hc

/-- The induction is on the depth of nesting. -/
theorem ParserRule.parseScriptAt (rule : ParserRule W C S) (interp : TclInterp) (depth : Nat) :
    ParserKeeps S (parseScriptAt interp depth) := by
  induction depth with
  | zero =>
    intro context view script h
    cases h
  | succ depth ih =>
    intro context view script h
    obtain ⟨location, -, h⟩ := bind_eq_ok.mp h
    obtain ⟨commands, hcommands, h⟩ := bind_eq_ok.mp h
    cases h
    exact rule.script (rule.parseScriptFrom ih hcommands)

theorem ParserRule.parseScript (rule : ParserRule W C S) {view : StringView} {script : Script}
    (h : parseScript interp context view = .ok script) : S context.curNs script :=
  rule.parseScriptAt interp _ context view script h

end TclAnalyzer
