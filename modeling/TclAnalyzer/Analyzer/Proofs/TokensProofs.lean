import TclAnalyzer.Analyzer.Proofs.SubstitutionProofs

/-!
# One tree of tokens at a time

Every token is followed by the tokens that it counts as its own. Wherever `ParseWord` starts, it stops
behind them, so that the words of a command come out as many as the command has.
-/

namespace TclAnalyzer

variable {interp : TclInterp} {nested : ScriptParser} {context : ParseContext}
  {fileName contents : Str} {first last length n : Nat}

/-! ## Trees of tokens -/

/-- The token with this index and the ones it counts as its own. -/
structure TreeAt (tokens : List Token) (i : Nat) (token : Token) (own rest : List Token) : Prop where
  drop : tokens.drop i = token :: (own ++ rest)
  count : own.length = token.numComponents

theorem TreeAt.le {tokens own rest : List Token} {i : Nat} {token : Token}
    (h : TreeAt tokens i token own rest) : i + 1 + token.numComponents ≤ tokens.length := by
  have hlength := congrArg List.length h.drop
  rw [List.length_drop, List.length_cons, List.length_append, h.count] at hlength
  omega

theorem TreeAt.cons {tokens own rest : List Token} {i : Nat} {token : Token}
    (h : TreeAt tokens i token own rest) (before : Token) :
    TreeAt (before :: tokens) (i + 1) token own rest :=
  ⟨h.drop, h.count⟩

/-- A tree in the first part of the tokens. -/
theorem TreeAt.left {tokens own rest : List Token} {i : Nat} {token : Token}
    (h : TreeAt tokens i token own rest) (hi : i < tokens.length) (more : List Token) :
    TreeAt (tokens ++ more) i token own (rest ++ more) := by
  refine ⟨?_, h.count⟩
  rw [List.drop_append_of_le_length (Nat.le_of_lt hi), h.drop, List.cons_append, List.append_assoc]

theorem drop_append_right {α : Type} {before : List α} {i : Nat} (hi : before.length ≤ i)
    (l : List α) : (before ++ l).drop i = l.drop (i - before.length) := by
  rw [List.drop_append, List.drop_eq_nil_of_le hi, List.nil_append]

/-- A tree behind the first part of the tokens. -/
theorem TreeAt.right {before tokens own rest : List Token} {i : Nat} {token : Token}
    (h : TreeAt tokens (i - before.length) token own rest) (hi : before.length ≤ i) :
    TreeAt (before ++ tokens) i token own rest := by
  refine ⟨?_, h.count⟩
  rw [drop_append_right hi, h.drop]

/-- Each token of components is the root of a tree of components. -/
theorem Components.tree {components : List Token} (h : Components first last components) :
    ∀ {i : Nat} {token : Token}, components[i]? = some token →
      ∃ own rest, TreeAt components i token own rest ∧ Components first last (token :: own) := by
  induction h with
  | nil =>
    intro i token htoken
    cases htoken
  | @text leaf others htype hcount hin _ ih =>
    intro i token htoken
    cases i with
    | zero =>
      cases htoken
      exact ⟨[], others, ⟨rfl, hcount.symm⟩, .text htype hcount hin .nil⟩
    | succ i =>
      obtain ⟨own, rest, htree, hown⟩ := ih htoken
      exact ⟨own, rest, htree.cons leaf, hown⟩
  | @command leaf others htype hcount hsize hin _ ih =>
    intro i token htoken
    cases i with
    | zero =>
      cases htoken
      exact ⟨[], others, ⟨rfl, hcount.symm⟩, .command htype hcount hsize hin .nil⟩
    | succ i =>
      obtain ⟨own, rest, htree, hown⟩ := ih htoken
      exact ⟨own, rest, htree.cons leaf, hown⟩
  | @var root name index others htype hcount hin hname hnamecount hnamein hindex _ ihindex ih =>
    intro i token htoken
    match i, htoken with
    | 0, htoken =>
      cases htoken
      refine ⟨name :: index, others, ⟨rfl, hcount.symm⟩, ?_⟩
      have hroot := Components.var htype hcount hin hname hnamecount hnamein hindex .nil
      rwa [List.append_nil] at hroot
    | 1, htoken =>
      cases htoken
      exact ⟨[], index ++ others, ⟨rfl, hnamecount.symm⟩, .text (.inl hname) hnamecount hnamein .nil⟩
    | i + 2, htoken =>
      have htoken' : (index ++ others)[i]? = some token := htoken
      by_cases hi : i < index.length
      · rw [List.getElem?_append_left hi] at htoken'
        obtain ⟨own, rest, htree, hown⟩ := ihindex htoken'
        exact ⟨own, rest ++ others, ((htree.left hi others).cons name).cons root, hown⟩
      · rw [List.getElem?_append_right (by omega)] at htoken'
        obtain ⟨own, rest, htree, hown⟩ := ih htoken'
        exact ⟨own, rest, ((htree.right (by omega)).cons name).cons root, hown⟩

/-- The token is the root of a word, or of a component of one. -/
def RootOf (tokens : List Token) (first last i : Nat) (token : Token) (own : List Token) : Prop :=
  (∃ n first', first ≤ first' ∧ WordTokens last first' (n + 1) (tokens.drop i)) ∨
    ∃ first' last', first ≤ first' ∧ last' ≤ last ∧ Components first' last' (token :: own)

theorem WordTokens.tree {tokens : List Token} (h : WordTokens last first n tokens) :
    ∀ {i : Nat} {token : Token}, tokens[i]? = some token →
      ∃ own rest, TreeAt tokens i token own rest ∧ RootOf tokens first last i token own := by
  induction h with
  | nil =>
    intro i token htoken
    cases htoken
  | @simple first n root text others htype hcount hfirst htext htextcount hin hrest ih =>
    intro i token htoken
    have hle := hrest.le
    match i, htoken with
    | 0, htoken =>
      cases htoken
      exact ⟨[text], others, ⟨rfl, hcount.symm⟩, .inl ⟨n, first, Nat.le_refl first,
        .simple htype hcount hfirst htext htextcount hin hrest⟩⟩
    | 1, htoken =>
      cases htoken
      exact ⟨[], others, ⟨rfl, htextcount.symm⟩, .inr ⟨_, _, hfirst, hle,
        .text (.inl htext) htextcount hin .nil⟩⟩
    | i + 2, htoken =>
      obtain ⟨own, rest, htree, hroot⟩ := ih htoken
      refine ⟨own, rest, (htree.cons text).cons root, ?_⟩
      rcases hroot with ⟨m, first', hfirst', hwords⟩ | ⟨first', last', hfirst', hlast', hcomponents⟩
      · exact .inl ⟨m, first', by omega, hwords⟩
      · exact .inr ⟨first', last', by omega, hlast', hcomponents⟩
  | @compound first n root components others htype hcount hfirst hcomponents hrest ih =>
    intro i token htoken
    have hle := hrest.le
    cases i with
    | zero =>
      cases htoken
      exact ⟨components, others, ⟨rfl, hcount.symm⟩, .inl ⟨n, first, Nat.le_refl first,
        .compound htype hcount hfirst hcomponents hrest⟩⟩
    | succ i =>
      have htoken' : (components ++ others)[i]? = some token := htoken
      by_cases hi : i < components.length
      · rw [List.getElem?_append_left hi] at htoken'
        obtain ⟨own, rest, htree, hown⟩ := hcomponents.tree htoken'
        exact ⟨own, rest ++ others, (htree.left hi others).cons root, .inr ⟨_, _, hfirst, hle, hown⟩⟩
      · rw [List.getElem?_append_right (by omega)] at htoken'
        obtain ⟨own, rest, htree, hroot⟩ := ih htoken'
        refine ⟨own, rest, (htree.right (by omega)).cons root, ?_⟩
        rcases hroot with ⟨m, first', hfirst', hwords⟩ | ⟨first', last', hfirst', hlast', hown⟩
        · refine .inl ⟨m, first', by omega, ?_⟩
          rwa [List.drop_succ_cons, drop_append_right (by omega)]
        · exact .inr ⟨first', last', by omega, hlast', hown⟩

/-! ## `ParseWord` -/

/-- `ParseWord` at a component takes the tokens of the component. -/
theorem parseWord_component (hfile : context.file = makeSourceFile fileName contents)
    (hnested : ParsesShorter nested fileName contents length) (hlast : last ≤ contents.length)
    (hlength : last ≤ first + length) {tokens own rest : List Token} {i fuel : Nat} {token : Token}
    (htree : TreeAt tokens i token own rest) (h : Components first last (token :: own))
    (hfuel : 2 * own.length + 1 < fuel) : ∃ word,
    parseWord nested context tokens fuel i = .ok (word, i + 1 + token.numComponents) := by
  obtain ⟨htokens, hcount⟩ := htree
  obtain ⟨htoken, hdrop⟩ := drop_eq_cons htokens
  have hpos : 0 < fuel := by omega
  cases h with
  | text htype hzero hin =>
    obtain ⟨-, hfinish⟩ := hin
    obtain ⟨word, hword, -⟩ := parseWord_text nested hfile hpos htoken htype (by omega)
    rw [hzero]
    exact ⟨word, hword⟩
  | command htype hzero hsize hin =>
    obtain ⟨hstart, hfinish⟩ := hin
    obtain ⟨word, -, hword, -⟩ :=
      parseWord_command hfile hnested hpos htoken htype hsize (by omega) (by omega)
    rw [hzero]
    exact ⟨word, hword⟩
  | @var _ name index others htype hnum hin hname _ hnamein hindex _ =>
    rw [List.length_cons, List.length_append] at hcount hfuel
    obtain ⟨fuel, rfl⟩ : ∃ k, fuel = k + 1 := ⟨fuel - 1, by omega⟩
    obtain ⟨-, hfinish⟩ := hin
    obtain ⟨-, hnamefinish⟩ := hnamein
    rw [List.cons_append, List.append_assoc] at hdrop
    obtain ⟨hnametoken, hdrop⟩ := drop_eq_cons hdrop
    have hindexfuel : 2 * index.length < fuel := by omega
    have hwords := parseWords_components hfile hnested hlast hlength hindex hdrop hindexfuel
    obtain ⟨word, hword, -⟩ := parseWord_variable hfile htoken htype hnum (by omega) hnametoken hname
      (by omega) (by omega) hwords
    have hend : i + 1 + token.numComponents = i + 2 + index.length := by omega
    rw [hend]
    exact ⟨word, hword⟩

/-- `ParseWord` takes exactly one tree, from wherever it starts. -/
theorem parseWord_tree (hfile : context.file = makeSourceFile fileName contents)
    (hnested : ParsesShorter nested fileName contents length) (hlast : last ≤ contents.length)
    (hlength : last ≤ first + length) {tokens : List Token} (h : WordTokens last first n tokens)
    {i fuel : Nat} {token : Token} (htoken : tokens[i]? = some token)
    (hfuel : 2 * tokens.length + 1 < fuel) : i + 1 + token.numComponents ≤ tokens.length ∧
      ∃ word, parseWord nested context tokens fuel i = .ok (word, i + 1 + token.numComponents) := by
  obtain ⟨own, rest, htree, hroot⟩ := h.tree htoken
  refine ⟨htree.le, ?_⟩
  rcases hroot with ⟨m, first', hfirst', hwords⟩ | ⟨first', last', hfirst', hlast', hcomponents⟩
  · have hdropfuel : 2 * (tokens.drop i).length ≤ fuel := by
      rw [List.length_drop]
      omega
    obtain ⟨word, j, -, hword, ⟨token', htoken', rfl⟩, -⟩ :=
      parseWord_word hfile hnested hlast (by omega) hwords hdropfuel
    cases (nth_eq_ok.mp htoken').symm.trans htoken
    exact ⟨word, hword⟩
  · have hle := htree.le
    have hcount := htree.count
    exact parseWord_component hfile hnested (by omega) (by omega) htree hcomponents (by omega)

/-! ## The words of a call -/

theorem GroupWord.type_ne_error {group : List Token} {word : Word}
    (h : GroupWord nested context group word) : word.type ≠ .ERROR := by
  intro herror
  cases h with
  | simple _ _ _ htext => cases htext.1.symm.trans herror
  | compound htype =>
    rcases htype with ⟨-, htype⟩ | ⟨-, htype⟩ <;> cases htype.symm.trans herror

theorem TakenWord.type_ne_error {taking : Taking} {group : List Token} {word : Word}
    (h : TakenWord interp nested context taking group word) : word.type ≠ .ERROR := by
  cases h with
  | word hgroup => exact hgroup.type_ne_error
  | plain hgroup => exact hgroup.type_ne_error
  | unparsed hgroup => exact hgroup.type_ne_error
  | list _ _ _ heq =>
    rw [heq]
    nofun
  | script _ _ _ heq =>
    rw [heq]
    nofun

theorem TakenWords.type_ne_error {call : Call} {k : Nat} {groups : List (List Token)}
    {words : List Word} (h : TakenWords interp nested context call k groups words) :
    ∀ word ∈ words, word.type ≠ .ERROR := by
  induction h with
  | nil => exact fun _ hmem => absurd hmem List.not_mem_nil
  | cons hword _ ih =>
    intro word hmem
    rcases List.mem_cons.mp hmem with rfl | hmem
    · exact hword.type_ne_error
    · exact ih word hmem

/-- On well-formed tokens `ParseWord` leaves each tree right behind it, inside the array, and
`ParseCommand` appends as many words as it reserved, none of them an error. -/
theorem parseCommand_tokens (hcontract : interp.Contract)
    (hfile : context.file = makeSourceFile fileName contents) {parse : TclParse}
    (hlast : last ≤ contents.length) (h : WordTokens last first parse.numWords parse.tokens) :
    (∀ i token, parse.tokens[i]? = some token →
      i + 1 + token.numComponents ≤ parse.tokens.length ∧
      ∃ word, parseWord (parseScript interp) context parse.tokens (ParseCommand.fuel parse) i =
        .ok (word, i + 1 + token.numComponents)) ∧
    (1 ≤ parse.numWords → ∃ call,
      parseCommand interp (parseScript interp) context parse = .ok (some call) ∧
      call.words.length = parse.numWords ∧ ∀ word ∈ call.words, word.type ≠ .ERROR) := by
  have hnested : ParsesShorter (parseScript interp) fileName contents (contents.length + 1) := by
    intro context' data' size' hfile' hdata' _
    exact parseScript_ok hcontract hfile' hdata' size'
  constructor
  · intro i token htoken
    exact parseWord_tree hfile hnested hlast (by omega) h htoken (by rw [ParseCommand.fuel]; omega)
  · intro hwords
    obtain ⟨call, -, hcall, -, htaken, -⟩ :=
      parseCommand_takes hfile hnested hlast hcontract (by omega) hwords h
    refine ⟨call, hcall, ?_, htaken.type_ne_error⟩
    rw [htaken.length_eq, wordGroups_length h]

theorem lastArgs_tokens :
    (∀ i token, lastArgsParse.tokens[i]? = some token →
      i + 1 + token.numComponents ≤ lastArgsParse.tokens.length ∧
      ∃ word, parseWord (parseScript lastArgsInterp) { file := lastArgs, curNs := [] }
        lastArgsParse.tokens (ParseCommand.fuel lastArgsParse) i =
          .ok (word, i + 1 + token.numComponents)) ∧
    (1 ≤ lastArgsParse.numWords → ∃ call,
      parseCommand lastArgsInterp (parseScript lastArgsInterp) { file := lastArgs, curNs := [] }
        lastArgsParse = .ok (some call) ∧
      call.words.length = lastArgsParse.numWords ∧ ∀ word ∈ call.words, word.type ≠ .ERROR) := by
  have hfile : ({ file := lastArgs, curNs := [] } : ParseContext).file =
      makeSourceFile [] (bytes "proc f {a args} {}") := rfl
  have hlast : 18 ≤ (bytes "proc f {a args} {}").length := by decide +kernel
  exact parseCommand_tokens lastArgs_contract hfile hlast lastArgs_words

end TclAnalyzer
