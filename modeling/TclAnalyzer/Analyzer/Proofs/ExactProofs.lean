import TclAnalyzer.Analyzer.Proofs.SpansProofs
import TclAnalyzer.Analyzer.Proofs.TerminationProofs

/-!
# Spans are exact and nested

Every word that the parser makes has the text that stands at its location, and what is inside it
stands inside of its text. Components, indices and nested scripts take this over from the tokens, and
the elements of lists from the text that they are found in.
-/

namespace TclAnalyzer

variable {interp : TclInterp} {nested : ScriptParser} {context : ParseContext}
  {fileName contents : Str} {file : SourceFile} {first last next depth : Nat} {word : Word}
  {words others : List Word} {token : Token} {parse : TclParse} {text : StringView}

/-! ## Exact words -/

theorem makeSourceLocation_offset {offset : Nat} {location : SourceLocation}
    (h : makeSourceLocation file offset = .ok location) : location.offset = offset := by
  obtain ⟨pos, -, h⟩ := bind_eq_ok.mp h
  cases h
  rfl

theorem Word.Exact.ofView {data size : Nat} (hlocation : makeSourceLocation file data = .ok word.location)
    (htext : word.text = file.view data size) : word.Exact file := by
  have hoffset := makeSourceLocation_offset hlocation
  constructor
  · rwa [hoffset]
  · rw [hoffset, htext, view_view]

theorem Word.IsAt.exact (h : word.IsAt context token) : word.Exact context.file :=
  .ofView h.location h.text

theorem ListElement.Makes.exact {found : ListElement} (h : found.Makes file word) : word.Exact file :=
  .ofView h.location h.text

theorem Word.Exact.start_eq (h : word.Exact file) : word.location.offset = word.start := by
  rw [Word.start, h.text]
  rfl

theorem Word.start_le_finish (word : Word) : word.start ≤ word.finish := Nat.le_add_right _ _

/-! ## Words with their contents -/

/-- The word is exact and what is inside it is nested, all the way in. -/
inductive Word.Spans (file : SourceFile) : Word → Prop
  | mk {word : Word} : word.Exact file →
    Between Word.start Word.finish word.finish word.start word.contents →
    (∀ inner ∈ word.contents, Word.Spans file inner) → Word.Spans file word

/-- The words stand one after the other between two offsets, with all that is inside them. -/
structure SpanWords (file : SourceFile) (first last : Nat) (words : List Word) : Prop where
  between : Between Word.start Word.finish last first words
  spans : ∀ word ∈ words, word.Spans file

theorem Word.Spans.exact (h : word.Spans file) : word.Exact file := by
  cases h with
  | mk hexact => exact hexact

theorem Word.Spans.inside (h : word.Spans file) :
    SpanWords file word.start word.finish word.contents := by
  cases h with
  | mk _ hbetween hinside => exact ⟨hbetween, hinside⟩

theorem SpanWords.nil (h : first ≤ last) : SpanWords file first last [] := ⟨.nil h, by simp⟩

theorem SpanWords.mono {first' last' : Nat} (h : SpanWords file first last words)
    (hfirst : first' ≤ first) (hlast : last ≤ last') : SpanWords file first' last' words :=
  ⟨h.between.mono hfirst hlast, h.spans⟩

theorem SpanWords.append (h : SpanWords file first next words) (h' : SpanWords file next last others) :
    SpanWords file first last (words ++ others) :=
  ⟨h.between.append h'.between, List.forall_mem_append.mpr ⟨h.spans, h'.spans⟩⟩

theorem SpanWords.cons (hword : word.Spans file) (hfirst : first ≤ word.start)
    (hnext : word.finish ≤ next) (h : SpanWords file next last words) :
    SpanWords file first last (word :: words) :=
  ⟨.cons hfirst word.start_le_finish (h.between.mono hnext (Nat.le_refl _)),
    List.forall_mem_cons.mpr ⟨hword, h.spans⟩⟩

theorem Word.spans_of_contents (hexact : word.Exact file)
    (h : SpanWords file word.start word.finish word.contents) : word.Spans file :=
  .mk hexact h.between h.spans

theorem Word.spans_of_leaf (hexact : word.Exact file) (h : word.data = .nothing) : word.Spans file := by
  refine Word.spans_of_contents hexact ?_
  rw [Word.contents, h]
  exact .nil word.start_le_finish

/-! ## Words at their tokens -/

theorem Word.IsAt.finish_le (h : word.IsAt context token) :
    word.finish ≤ token.start + token.size := by
  have hlength := view_length_le context.file token.start token.size
  rw [Word.finish, h.data_eq, h.text]
  omega

theorem Word.IsAt.finish_eq (h : word.IsAt context token)
    (hle : token.start + token.size ≤ context.file.contents.length) :
    word.finish = token.start + token.size := by
  rw [Word.finish, h.data_eq, h.text, view_length_eq hle]

/-- The scripts that are returned for texts of the file shorter than `depth` stand in the text. -/
def KeepsSpans (nested : ScriptParser) (fileName contents : Str) (depth : Nat) : Prop :=
  ∀ context text script, context.file = makeSourceFile fileName contents →
    (∃ size, text = context.file.view text.data size) → text.data ≤ contents.length →
    text.bytes.length < depth → nested context text = .ok script →
    SpanWords context.file text.data (text.data + text.bytes.length) script.words

theorem ComponentsNested.le {tokens : List Token} (h : ComponentsNested last first tokens) :
    first ≤ last := by
  induction h with
  | nil hle => exact hle
  | single _ _ hfirst _ ih => omega
  | var _ _ hfirst hname _ _ ihindex ih => omega

theorem GroupsNested.le {groups : List (List Token)} (h : GroupsNested last first groups) :
    first ≤ last := by
  induction h with
  | nil hle => exact hle
  | simple _ hfirst hstart hfinish _ ih => omega
  | compound _ hfirst _ _ ih => omega

theorem ComponentsNested.single_inv {rest : List Token}
    (h : ComponentsNested last first (token :: rest)) (htype : token.type ≠ .VARIABLE) :
    first ≤ token.start ∧ (token.type = .COMMAND → 2 ≤ token.size) ∧
      ComponentsNested last (token.start + token.size) rest := by
  cases h with
  | single _ hsize hfirst hrest => exact ⟨hfirst, hsize, hrest⟩
  | var hvar => exact absurd hvar htype

theorem ComponentsNested.var_inv {name : Token} {index rest : List Token}
    (h : ComponentsNested last first (token :: name :: (index ++ rest)))
    (htype : token.type = .VARIABLE) (hcount : token.numComponents = index.length + 1) :
    first ≤ token.start ∧ token.start ≤ name.start ∧
      ComponentsNested (token.start + token.size) (name.start + name.size) index ∧
      ComponentsNested last (token.start + token.size) rest := by
  generalize htail : name :: (index ++ rest) = tail at h
  cases h with
  | single hnot => exact absurd htype hnot
  | var _ hcount' hfirst hname hindex hrest =>
    obtain ⟨rfl, happend⟩ := List.cons.inj htail
    obtain ⟨rfl, rfl⟩ := List.append_inj happend (by omega)
    exact ⟨hfirst, hname, hindex, hrest⟩

section Depth

variable (hfile : context.file = makeSourceFile fileName contents)
  (hnested : KeepsSpans nested fileName contents depth)

include hfile hnested

/-- The script between brackets stands in the word that has them. -/
theorem Word.IsAt.script_spans {script : Script} (hat : word.IsAt context token)
    (hdata : word.data = .script script) (hsize : 2 ≤ token.size) (hdepth : token.size ≤ depth)
    (hle : token.start + token.size ≤ contents.length)
    (hscript : nested context (context.file.view (token.start + 1) (token.size - 2)) = .ok script) :
    word.Spans context.file := by
  refine Word.spans_of_contents hat.exact ?_
  have hlength := view_length_le context.file (token.start + 1) (token.size - 2)
  have hstart : (context.file.view (token.start + 1) (token.size - 2)).data = token.start + 1 := rfl
  have hfinish : word.finish = token.start + token.size := by
    refine hat.finish_eq ?_
    rwa [hfile]
  rw [Word.contents, hdata, hfinish, Word.start, hat.data_eq]
  exact (hnested context _ script hfile ⟨_, rfl⟩ (by omega) (by omega) hscript).mono (by omega)
    (by omega)

/-- Nested components make nested words. -/
theorem ComponentWords.spans {tokens : List Token} (h : ComponentWords nested context tokens words) :
    ∀ {first last : Nat}, last ≤ first + depth → last ≤ contents.length →
      ComponentsNested last first tokens → SpanWords context.file first last words := by
  induction h with
  | nil =>
    intro first last _ _ horder
    exact .nil horder.le
  | @text token tokens word words htype hat htext _ ih =>
    intro first last hdepth hlast horder
    obtain ⟨hfirst, -, hrest⟩ := horder.single_inv (Token.not_variable_of_text htype)
    refine .cons (Word.spans_of_leaf hat.exact htext.2) ?_ hat.finish_le (ih (by omega) hlast hrest)
    rwa [Word.start, hat.data_eq]
  | @command token tokens word words script htype hat hwordtype hscript hdata _ ih =>
    intro first last hdepth hlast horder
    obtain ⟨hfirst, hsize, hrest⟩ := horder.single_inv (Token.not_variable_of_command htype)
    have hle := hrest.le
    have hword := hat.script_spans hfile hnested hdata (hsize htype) (by omega) (by omega) hscript
    refine .cons hword ?_ hat.finish_le (ih (by omega) hlast hrest)
    rwa [Word.start, hat.data_eq]
  | @scalar token name tokens word words htype hcount hname hat hwordtype hdata _ ih =>
    intro first last hdepth hlast horder
    have horder : ComponentsNested last first (token :: name :: ([] ++ tokens)) := horder
    obtain ⟨hfirst, hstart, hindex, hrest⟩ := horder.var_inv htype hcount
    refine .cons (Word.spans_of_leaf hat.exact hdata) ?_ (hat.finish_le.trans hindex.le)
      (ih (by omega) hlast hrest)
    rw [Word.start, hat.data_eq]
    exact hfirst.trans hstart
  | @array token name indexTokens tokens word arrayName index words htype hcount hname hat hwordtype
      hdata _ _ ihindex ih =>
    intro first last hdepth hlast horder
    obtain ⟨hfirst, hstart, hindex, hrest⟩ := horder.var_inv htype hcount
    have hle := hrest.le
    have hfinish : word.finish = token.start + token.size := by
      refine hat.finish_eq ?_
      rw [hfile]
      exact hle.trans hlast
    have hword : word.Spans context.file := by
      refine Word.spans_of_contents hat.exact ?_
      rw [Word.contents, hdata, hfinish, Word.start, hat.data_eq]
      exact (ihindex (by omega) (by omega) hindex).mono (by omega) (Nat.le_refl _)
    refine .cons hword ?_ hat.finish_le (ih (by omega) hlast hrest)
    rwa [Word.start, hat.data_eq]

/-- The word of the first group stands before the other groups. -/
theorem GroupWord.spans {group : List Token} {groups : List (List Token)}
    (h : GroupWord nested context group word) (hdepth : last ≤ first + depth)
    (hlast : last ≤ contents.length) (horder : GroupsNested last first (group :: groups)) :
    ∃ next, word.Spans context.file ∧ first ≤ word.start ∧ word.finish ≤ next ∧
      GroupsNested last next groups := by
  cases h with
  | @simple token text _ htype _ hat htext =>
    cases horder with
    | simple _ hfirst hstart hfinish hrest =>
      refine ⟨token.start + token.size, Word.spans_of_leaf hat.exact htext.2, ?_,
        hat.finish_le.trans hfinish, hrest⟩
      rw [Word.start, hat.data_eq]
      exact hfirst.trans hstart
    | compound hnot => exact absurd htype hnot
  | @compound token components _ vec htype hat hdata hwords =>
    cases horder with
    | simple hsimple =>
      rcases htype with ⟨htype, -⟩ | ⟨htype, -⟩ <;> cases htype.symm.trans hsimple
    | compound _ hfirst hcomponents hrest =>
      have hle := hrest.le
      have hfinish : word.finish = token.start + token.size := by
        refine hat.finish_eq ?_
        rw [hfile]
        exact hle.trans hlast
      refine ⟨token.start + token.size, Word.spans_of_contents hat.exact ?_, ?_, hat.finish_le, hrest⟩
      · rw [Word.contents, hdata, hfinish, Word.start, hat.data_eq]
        exact hwords.spans hfile hnested (by omega) (hle.trans hlast) hcomponents
      · rwa [Word.start, hat.data_eq]

end Depth

/-! ## Lists -/

/-- A list has the elements that its text splits into, each of them split again. -/
def ListSplit (interp : TclInterp) (context : ParseContext) (word : Word) : Prop :=
  word.type = .LIST → ∃ elements texts vec, word.data = .words vec ∧
    SplitsInto interp context.file word.text elements ∧
    List.Forall₂ (fun found word => found.Makes context.file word) elements texts ∧
    List.Forall₂ (fun text arg => wordToList interp context text = .ok arg) texts vec

theorem parseArgs_listSplit {i j : Nat}
    (h : ParseCommand.parseArgs interp nested context parse i = .ok (word, j)) :
    ListSplit interp context word := by
  rcases parseArgs_cases h with ⟨herror, -⟩ | ⟨plain, hplain, ⟨rfl, -⟩ |
    ⟨elements, texts, vec, rfl, hsplits, -, htexts, hvec⟩⟩
  · intro htype
    cases (errorWord_ok herror).1.symm.trans htype
  · exact fun htype => absurd htype (parseWord_type_ne_list hplain)
  · exact fun _ => ⟨elements, texts, vec, rfl, hsplits, htexts, hvec⟩

section Lists

variable (hfind : ∀ list found, interp.findElement list = some found → FoundElement list found)
  (hnested : interp.TokensNested)

include hfind hnested

theorem SplitsFrom.spans {list length : Nat} {elements : List ListElement}
    (h : SplitsFrom interp file last list length elements) : ∀ {texts : List Word},
    list + length = last → List.Forall₂ (fun found word => found.Makes file word) elements texts →
      SpanWords file list last texts := by
  induction h with
  | finish =>
    intro texts hend htexts
    cases htexts
    exact .nil (by omega)
  | @element list length found rest hfound _ _ ih =>
    intro texts hend htexts
    cases htexts with
    | @cons _ word _ texts hmakes htexts =>
      obtain ⟨helement, hnext, hfinish, -⟩ := hfind _ found hfound
      have hsize := hnested.findElement _ found hfound
      have hlength := view_length_le file list length
      have hdata : (file.view list length).data = list := rfl
      have htext : word.text = file.view found.element found.size := hmakes.text
      have hword := view_length_le file found.element found.size
      have hwordFinish : word.finish ≤ found.next := by
        rw [Word.finish, htext]
        exact (Nat.add_le_add_left hword _).trans hsize
      refine .cons (Word.spans_of_leaf hmakes.exact hmakes.data) ?_ hwordFinish
        (ih (by omega) htexts)
      rw [Word.start, htext]
      exact helement

/-- An element is split in its place. -/
theorem wordToList_spans {arg : Word} (hword : word.Exact context.file) (hdata : word.data = .nothing)
    (h : wordToList interp context word = .ok arg) : arg.Spans context.file ∧
      arg.start = word.start ∧ arg.finish = word.finish := by
  rcases wordToList_cases h with ⟨rfl, -⟩ | ⟨elements, vec, rfl, hsplits, -, hvec⟩
  · exact ⟨Word.spans_of_leaf hword hdata, rfl, rfl⟩
  · exact ⟨Word.spans_of_contents ⟨hword.location, hword.text⟩
      (SplitsFrom.spans hfind hnested hsplits rfl hvec), rfl, rfl⟩

theorem elements_spans {elements : List ListElement} {texts vec : List Word}
    (htexts : List.Forall₂ (fun found word => found.Makes context.file word) elements texts)
    (hvec : List.Forall₂ (fun text arg => wordToList interp context text = .ok arg) texts vec) :
    (∀ arg ∈ vec, arg.Spans context.file) ∧
      List.Forall₂ (fun text arg => arg.start = text.start ∧ arg.finish = text.finish) texts vec := by
  induction htexts generalizing vec with
  | nil =>
    cases hvec
    exact ⟨by simp, .nil⟩
  | cons hmakes _ ih =>
    cases hvec with
    | cons harg hrest =>
      obtain ⟨hspans, hsame⟩ := wordToList_spans hfind hnested hmakes.exact hmakes.data harg
      obtain ⟨hall, hsames⟩ := ih hrest
      exact ⟨List.forall_mem_cons.mpr ⟨hspans, hall⟩, .cons hsame hsames⟩

theorem ListSplit.spans (h : ListSplit interp context word) (htype : word.type = .LIST)
    (hword : word.Exact context.file) : word.Spans context.file := by
  obtain ⟨elements, texts, vec, hdata, hsplits, htexts, hvec⟩ := h htype
  obtain ⟨hspans, hsame⟩ := elements_spans hfind hnested htexts hvec
  have hplaces := SplitsFrom.spans hfind hnested hsplits rfl htexts
  refine Word.spans_of_contents hword ?_
  rw [Word.contents, hdata]
  exact ⟨hplaces.between.congr hsame, hspans⟩

end Lists

/-! ## Commands -/

section Commands

variable (hcontract : interp.Contract) (hinterp : interp.TokensNested)
  (hfile : context.file = makeSourceFile fileName contents)
  (hnested : KeepsSpans nested fileName contents depth) (hlast : last ≤ contents.length)

include hcontract hinterp hfile hnested hlast

theorem TakenWord.spans {taking : Taking} {group : List Token} {groups : List (List Token)}
    (h : TakenWord interp nested context taking group word)
    (hlist : taking = .args → ListSplit interp context word) (hdepth : last ≤ first + depth)
    (hbody : taking = .body → last < first + depth)
    (horder : GroupsNested last first (group :: groups)) :
    ∃ next, word.Spans context.file ∧ first ≤ word.start ∧ word.finish ≤ next ∧
      GroupsNested last next groups := by
  cases h with
  | word hgroup => exact hgroup.spans hfile hnested hdepth hlast horder
  | plain hgroup _ => exact hgroup.spans hfile hnested hdepth hlast horder
  | unparsed hgroup _ => exact hgroup.spans hfile hnested hdepth hlast horder
  | list hgroup _ _ hword =>
    obtain ⟨next, hplain, hfirst, hfinish, hrest⟩ := hgroup.spans hfile hnested hdepth hlast horder
    have hsplit := hlist rfl
    subst hword
    exact ⟨next, hsplit.spans hcontract.findElement hinterp rfl
      ⟨hplain.exact.location, hplain.exact.text⟩, hfirst, hfinish, hrest⟩
  | @script _ plain _ script hgroup htype hscript hword =>
    obtain ⟨next, hplain, hfirst, hfinish, hrest⟩ := hgroup.spans hfile hnested hdepth hlast horder
    have hshort := hbody rfl
    have hle := hrest.le
    have hview : ∃ size, plain.text = context.file.view plain.text.data size := by
      refine ⟨plain.text.bytes.length, ?_⟩
      rw [← Word.start, ← hplain.exact.start_eq]
      exact hplain.exact.text
    rw [Word.start] at hfirst
    rw [Word.finish] at hfinish
    have hinside := hnested context plain.text script hfile hview (by omega) (by omega) hscript
    subst hword
    exact ⟨next, Word.spans_of_contents ⟨hplain.exact.location, hplain.exact.text⟩ hinside, hfirst,
      hfinish, hrest⟩

/-- Each word stands before the words of the other groups. -/
theorem TakenWords.spans {call : Call} {k : Nat} {groups : List (List Token)}
    (h : TakenWords interp nested context call k groups words) : ∀ {first : Nat},
    (∀ n word, words[n]? = some word → call.type.taking (k + n) = .args →
      ListSplit interp { context with curNs := bodyNs context.curNs call (k + n) } word) →
    last ≤ first + depth → (call.type ≠ .USER → last < first + depth) →
    GroupsNested last first groups → SpanWords context.file first last words := by
  induction h with
  | nil =>
    intro first _ _ _ horder
    exact .nil horder.le
  | @cons k group groups word words hword _ ih =>
    intro first hlists hdepth hbody horder
    have hfile' : ({ context with curNs := bodyNs context.curNs call k } : ParseContext).file =
        makeSourceFile fileName contents := hfile
    have hbody' : call.type.taking k = .body → last < first + depth := by
      refine fun htaking => hbody fun huser => ?_
      rw [huser] at htaking
      cases htaking
    obtain ⟨next, hspans, hfirst, hfinish, hrest⟩ :=
      hword.spans hcontract hinterp hfile' hnested hlast (hlists 0 word rfl) hdepth hbody' horder
    have hself := word.start_le_finish
    refine .cons hspans hfirst hfinish (ih (fun n word hn htaking => ?_) (by omega)
      (fun huser => ?_) hrest)
    · have hlist := hlists (n + 1) word hn
      rw [← Nat.add_assoc, Nat.add_right_comm] at hlist
      exact hlist htaking
    · have hshort := hbody huser
      omega

/-- A call that takes a body has a command word with some bytes, so that what is behind that is shorter
than the script. -/
theorem TakenWords.command_spans {call : Call} {groups : List (List Token)}
    (h : TakenWords interp nested context call 0 groups words)
    (hlists : ∀ n word, words[n]? = some word → call.type.taking n = .args →
      ListSplit interp { context with curNs := bodyNs context.curNs call n } word)
    (hcommand : ∀ cmdWord, words[0]? = some cmdWord → call.type ≠ .USER →
      cmdWord.text.bytes ≠ [])
    (hdepth : last ≤ first + depth) (horder : GroupsNested last first groups) :
    SpanWords context.file first last words := by
  cases h with
  | nil => exact .nil horder.le
  | @cons _ group groups word words hword hwords =>
    have htaking : call.type.taking 0 = .word := by cases call.type <;> rfl
    rw [htaking, bodyNs_eq_self (by simp)] at hword
    obtain ⟨next, hspans, hfirst, hfinish, hrest⟩ := hword.spans hcontract hinterp hfile hnested hlast
      nofun hdepth nofun horder
    have hself := word.start_le_finish
    refine .cons hspans hfirst hfinish (hwords.spans hcontract hinterp hfile hnested hlast
      (fun n inner hn htaking => ?_) (by omega) (fun huser => ?_) hrest)
    · have hlist := hlists (n + 1) inner hn
      rw [Nat.add_comm 0 1, Nat.add_comm 1 n]
      rw [Nat.add_comm 0 1, Nat.add_comm 1 n] at htaking
      exact hlist htaking
    · have hpos := List.length_pos_iff.mpr (hcommand word rfl huser)
      rw [Word.finish] at hfinish
      rw [Word.start] at hfirst
      omega

end Commands

theorem parseCommand_spans (hcontract : interp.Contract) (hinterp : interp.TokensNested)
    (hfile : context.file = makeSourceFile fileName contents)
    (hnested : KeepsSpans nested fileName contents depth) {call : Call}
    (hcommand : ParsedCommand text parse)
    (htext : text.data + text.bytes.length ≤ contents.length) (hdepth : text.bytes.length ≤ depth)
    (hshorter : ParsesShorter nested fileName contents depth)
    (horder : GroupsNested (parse.commandStart + parse.commandSize) text.data
      (wordGroups parse.tokens))
    (h : parseCommand interp nested context parse = .ok (some call)) :
    SpanWords context.file text.data (parse.commandStart + parse.commandSize) call.words := by
  obtain ⟨cmdWord, known, rest, i, j, -, hwords, -, htakings, -, hlength, hname⟩ :=
    parseCommand_takings h
  have hcount : 1 ≤ parse.numWords := by
    by_contra hnone
    rw [parseCommand, if_pos (by omega)] at h
    cases h
  obtain ⟨call', -, hcall, -, htaken, -⟩ := parseCommand_takes hfile hshorter htext hcontract
    (Nat.add_le_add_left hdepth _) hcount hcommand.words
  cases h.symm.trans hcall
  have hfinish := hcommand.finish
  refine htaken.command_spans hcontract hinterp hfile hnested (hfinish.trans htext) ?_ ?_
    (by omega) horder
  · -- only the arguments of a `proc` are split
    intro n word hn htaking
    obtain ⟨hproc, rfl⟩ : call.type = .PROC ∧ n = 2 := by
      unfold CallType.taking at htaking
      split at htaking <;> first | exact ⟨‹_›, rfl⟩ | cases htaking
    obtain ⟨name, args, body, rfl⟩ := List.length_eq_three.mp (hlength (.inl hproc))
    rw [hwords] at hn
    cases hn
    obtain ⟨i', j', htake⟩ := htakings.get (n := 1) rfl
    rw [htaking] at htake
    exact parseArgs_listSplit htake
  · intro first hfirst huser
    rw [hwords] at hfirst
    cases hfirst
    exact hname huser

/-! ## Scripts -/

/-- The commands stand one after the other in their text. -/
theorem parseScriptFrom_spans (hcontract : interp.Contract) (hinterp : interp.TokensNested)
    (hfile : context.file = makeSourceFile fileName contents)
    (hnested : KeepsSpans nested fileName contents depth)
    (hshorter : ParsesShorter nested fileName contents depth) (fuel : Nat) :
    ∀ {text : StringView} {calls : List Call}, text.data + text.bytes.length ≤ contents.length →
      text.bytes.length ≤ depth → parseScriptFrom interp nested context fuel text = .ok calls →
      SpanWords context.file text.data (text.data + text.bytes.length)
        (calls.flatMap Call.words) := by
  induction fuel with
  | zero => exact fun _ _ h => by cases h
  | succ fuel ih =>
    intro text calls htext hdepth h
    have hle : text.data ≤ text.data + text.bytes.length := Nat.le_add_right _ _
    by_cases hempty : text.bytes = []
    · rw [parseScriptFrom_end (.inl hempty)] at h
      cases h
      exact .nil hle
    cases hparse : interp.parseCommand text with
    | none =>
      rw [parseScriptFrom_end (.inr hparse)] at h
      cases h
      exact .nil hle
    | some parse =>
      have hcommand := hcontract.parseCommand text parse hempty hparse
      obtain ⟨hstart, hfinish, hlength⟩ := hcommand.restOf_within context.file
      rw [parseScriptFrom_turn hempty hparse (hcontract.consumes.parseCommand text parse hempty hparse)]
        at h
      obtain ⟨call, hcall, h⟩ := bind_eq_ok.mp h
      obtain ⟨rest, hrest, h⟩ := bind_eq_ok.mp h
      cases h
      have hothers := (ih (hfinish.trans htext) (hlength.trans hdepth) hrest).mono (Nat.le_refl _)
        hfinish
      rw [List.flatMap_append]
      cases call with
      | none => exact hothers.mono hstart (Nat.le_refl _)
      | some call =>
        rw [Option.toList_some, List.flatMap_singleton]
        exact (parseCommand_spans hcontract hinterp hfile hnested hcommand htext hdepth hshorter
          (hinterp.parseCommand text parse hempty hparse) hcall).append hothers

theorem parseScriptAt_keepsSpans (hcontract : interp.Contract) (hinterp : interp.TokensNested)
    (fileName contents : Str) (depth : Nat) :
    KeepsSpans (parseScriptAt interp depth) fileName contents depth := by
  induction depth with
  | zero =>
    intro context text script _ _ _ hlt
    omega
  | succ depth ih =>
    intro context text script hfile hview hdata hlt h
    obtain ⟨size, hsize⟩ := hview
    have hcontents : text.data + text.bytes.length ≤ contents.length := by
      have hfinish := view_finish_le context.file text.data size
      rw [← hsize, hfile] at hfinish
      exact hfinish hdata
    obtain ⟨location, -, h⟩ := bind_eq_ok.mp h
    obtain ⟨commands, hcommands, h⟩ := bind_eq_ok.mp h
    cases h
    exact parseScriptFrom_spans hcontract hinterp hfile ih
      (parseScriptAt_ok hcontract fileName contents depth) _ hcontents (Nat.le_of_lt_succ hlt) hcommands

/-! ## Document order -/

mutual

theorem script_listing : ∀ script : Script, Listing Word.contents script.words script.allWords
  | ⟨_, commands⟩ => by
    rw [Script.allWords]
    exact calls_listing commands

theorem calls_listing : ∀ calls : List Call,
    Listing Word.contents (calls.flatMap Call.words) (allWordsOfCalls calls)
  | [] => by
    rw [allWordsOfCalls]
    exact .nil
  | ⟨_, words, _⟩ :: calls => by
    rw [allWordsOfCalls, List.flatMap_cons]
    exact (words_listing words).append (calls_listing calls)

theorem words_listing : ∀ words : List Word, Listing Word.contents words (allWords words)
  | [] => by
    rw [allWords]
    exact .nil
  | ⟨type, location, text, data⟩ :: words => by
    rw [allWords]
    exact .cons (data_listing data) (words_listing words)

theorem data_listing : ∀ {type : WordType} {location : SourceLocation} {text : StringView}
    (data : WordData),
    Listing Word.contents (Word.contents ⟨type, location, text, data⟩) (allWordsOfData data)
  | _, _, _, .nothing => by
    rw [allWordsOfData]
    exact .nil
  | _, _, _, .arrayAccess _ index => by
    rw [allWordsOfData]
    exact words_listing index
  | _, _, _, .script script => by
    rw [allWordsOfData]
    exact script_listing script
  | _, _, _, .words words => by
    rw [allWordsOfData]
    exact words_listing words

end

theorem Word.Spans.nest (h : word.Spans file) : Nested Word.start Word.finish Word.contents word := by
  induction h with
  | mk _ hbetween _ ih => exact .mk hbetween ih

/-- A location with a greater offset, or the same one, starts after what the first one starts after. -/
theorem startsAfter_of_le {a b : Word} (ha : a.Exact file) (hb : b.Exact file)
    (hle : a.location.offset ≤ b.location.offset) {pos : LinePos}
    (h : startsAfter a.location pos = true) : startsAfter b.location pos = true := by
  rw [startsAfter_eq_true_iff] at h ⊢
  rcases Nat.eq_or_lt_of_le hle with heq | hlt
  · have hsame := ha.location
    rw [heq, hb.location] at hsame
    rwa [Except.ok.inj hsame]
  · have horder := offsetToLineByteFrom_lt hlt (location_of_makeSourceLocation ha.location)
      (location_of_makeSourceLocation hb.location)
    dsimp only at horder
    omega

/-- The words of a tree have the texts that stand at their locations. What is inside a word stands in
its span, and all words of the calls of a script one after the other; so their locations never go back
in document order. -/
theorem parseScript_spans (hcontract : interp.Contract) (hinterp : interp.TokensNested)
    (hfile : context.file = makeSourceFile fileName contents) {data size : Nat} {script : Script}
    (hdata : data ≤ contents.length)
    (h : parseScript interp context (context.file.view data size) = .ok script) :
    (∀ word ∈ script.allWords, word.Exact context.file ∧
      Between Word.start Word.finish word.finish word.start word.contents) ∧
    Between Word.start Word.finish (data + (context.file.view data size).bytes.length) data
      script.words ∧
    script.allWords.Pairwise fun a b => a.location.offset ≤ b.location.offset ∧
      ∀ pos, startsAfter a.location pos = true → startsAfter b.location pos = true := by
  have hwords := parseScriptAt_keepsSpans hcontract hinterp fileName contents _ context _ script hfile
    ⟨size, rfl⟩ hdata (Nat.lt_succ_self _) h
  have hlisting := script_listing script
  have hall : ∀ word ∈ script.allWords, word.Spans context.file :=
    hlisting.forall_mem (fun word hword => hword.inside.spans) hwords.spans
  refine ⟨fun word hword => ⟨(hall word hword).exact, (hall word hword).inside.between⟩,
    hwords.between, ?_⟩
  obtain ⟨hsorted, -⟩ := hlisting.sorted hwords.between fun word hword => (hwords.spans word hword).nest
  refine hsorted.imp_of_mem fun {a b} ha hb hle => ?_
  have hexactA := (hall a ha).exact
  have hexactB := (hall b hb).exact
  rw [← hexactA.start_eq, ← hexactB.start_eq] at hle
  exact ⟨hle, fun pos => startsAfter_of_le hexactA hexactB hle⟩

theorem lastArgs_tokensNested : lastArgsInterp.TokensNested := by
  constructor
  · intro script parse _ hparse
    simp only [lastArgsInterp] at hparse
    split at hparse
    · next hview =>
      cases hparse
      rw [hview]
      simp only [lastArgsParse, wordGroups, List.take, List.drop]
      have hbody : GroupsNested 18 15 [[⟨.SIMPLE_WORD, 16, 2, 1⟩, ⟨.TEXT, 17, 0, 0⟩]] :=
        .simple rfl (by decide) (by decide) (by decide) (.nil (by decide))
      have hargs : GroupsNested 18 6 ([⟨.SIMPLE_WORD, 7, 8, 1⟩, ⟨.TEXT, 8, 6, 0⟩] :: _) :=
        .simple rfl (by decide) (by decide) (by decide) hbody
      have hname : GroupsNested 18 4 ([⟨.SIMPLE_WORD, 5, 1, 1⟩, ⟨.TEXT, 5, 1, 0⟩] :: _) :=
        .simple rfl (by decide) (by decide) (by decide) hargs
      exact .simple rfl (by decide) (by decide) (by decide) hname
    · cases hparse
  · intro list found hfound
    simp only [lastArgsInterp] at hfound
    split at hfound
    · cases hfound
      decide
    split at hfound
    · cases hfound
      decide
    split at hfound
    · cases hfound
      decide
    split at hfound
    · cases hfound
      exact Nat.le_refl _
    · cases hfound

theorem lastArgs_spans :
    (∀ word ∈ lastArgsTree.allWords, word.Exact lastArgs ∧
      Between Word.start Word.finish word.finish word.start word.contents) ∧
    Between Word.start Word.finish (0 + (lastArgs.view 0 18).bytes.length) 0 lastArgsTree.words ∧
    lastArgsTree.allWords.Pairwise fun a b => a.location.offset ≤ b.location.offset ∧
      ∀ pos, startsAfter a.location pos = true → startsAfter b.location pos = true := by
  have hfile : ({ file := lastArgs, curNs := [] } : ParseContext).file =
      makeSourceFile [] (bytes "proc f {a args} {}") := rfl
  exact parseScript_spans lastArgs_contract lastArgs_tokensNested hfile (Nat.zero_le _) lastArgs_parsed

end TclAnalyzer
