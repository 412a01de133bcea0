import TclAnalyzer.Analyzer.TokenOrder
import TclAnalyzer.Analyzer.Proofs.CursorProofs
import TclAnalyzer.Analyzer.Proofs.ContractProofs

/-!
# Parse trees are in source order

Words take over the order of their tokens, and the words of a nested script stand in the text that it
was parsed from. The induction is on the depth of nesting.
-/

namespace TclAnalyzer

variable {interp : TclInterp} {nested : ScriptParser} {context : ParseContext}
  {fileName contents : Str} {file : SourceFile} {first last depth : Nat} {word : Word}
  {words : List Word} {token : Token}

/-! ## Words one after the other -/

theorem Word.start_lt_stop (word : Word) : word.text.data < word.stop := by
  unfold Word.stop
  omega

theorem WordsWithin.nil : WordsWithin file first last [] := ⟨by simp, .nil⟩

theorem WordsWithin.mono {first' last' : Nat} (h : WordsWithin file first last words)
    (hfirst : first' ≤ first) (hlast : last ≤ last') : WordsWithin file first' last' words := by
  refine ⟨fun word hword => ?_, h.order⟩
  obtain ⟨hordered, hstart, hstop⟩ := h.word word hword
  exact ⟨hordered, hfirst.trans hstart, hstop.trans hlast⟩

theorem WordsWithin.append {next : Nat} {more : List Word} (h : WordsWithin file first next words)
    (hmore : WordsWithin file next last more) (hfirst : first ≤ next) (hlast : next ≤ last) :
    WordsWithin file first last (words ++ more) := by
  constructor
  · intro word hword
    rcases List.mem_append.mp hword with hword | hword
    · exact (h.mono (Nat.le_refl first) hlast).word word hword
    · exact (hmore.mono hfirst (Nat.le_refl last)).word word hword
  · refine List.pairwise_append.mpr ⟨h.order, hmore.order, fun a ha b hb => ?_⟩
    obtain ⟨-, -, hstop⟩ := h.word a ha
    obtain ⟨-, hstart, -⟩ := hmore.word b hb
    exact hstop.trans hstart

theorem WordsWithin.cons {next : Nat} (hordered : word.Ordered Word.stop file)
    (hfirst : first ≤ word.text.data) (hstop : word.stop ≤ next)
    (h : WordsWithin file next last words) (hlast : next ≤ last) :
    WordsWithin file first last (word :: words) := by
  have hself := word.start_lt_stop
  constructor
  · intro inner hinner
    rcases List.mem_cons.mp hinner with rfl | hinner
    · exact ⟨hordered, hfirst, hstop.trans hlast⟩
    · exact (h.mono (by omega) (Nat.le_refl last)).word inner hinner
  · refine List.pairwise_cons.mpr ⟨fun inner hinner => ?_, h.order⟩
    obtain ⟨-, hstart, -⟩ := h.word inner hinner
    exact hstop.trans hstart

/-- A word is in order when the words in it are. -/
theorem Word.ordered_of_within (hlocated : makeSourceLocation file word.text.data = .ok word.location)
    (h : WordsWithin file word.text.data word.stop word.inside) : word.Ordered Word.stop file :=
  .mk hlocated word.start_lt_stop.le (fun inner hinner => (h.word inner hinner).1)
    (fun inner hinner => (h.word inner hinner).2) h.order

theorem Word.ordered_of_leaf (hlocated : makeSourceLocation file word.text.data = .ok word.location)
    (h : word.inside = []) : word.Ordered Word.stop file := by
  refine Word.ordered_of_within hlocated ?_
  rw [h]
  exact .nil

/-! ## Words at their tokens -/

theorem Word.IsAt.data_eq (h : word.IsAt context token) : word.text.data = token.start := by
  rw [h.text]
  rfl

theorem Word.IsAt.located (h : word.IsAt context token) :
    makeSourceLocation context.file word.text.data = .ok word.location := by
  rw [h.data_eq]
  exact h.location

theorem Word.IsAt.stop_le (h : word.IsAt context token) : word.stop ≤ token.stop := by
  have hlength := view_length_le context.file token.start token.size
  have hstart : (context.file.view token.start token.size).data = token.start := rfl
  unfold Word.stop Word.finish Token.stop
  rw [h.text, hstart]
  omega

theorem Word.IsAt.stop_le_of_pos (h : word.IsAt context token) (hsize : 0 < token.size) :
    word.stop ≤ token.start + token.size := by
  have hstop := h.stop_le
  rwa [Token.stop, Nat.max_eq_left (by omega)] at hstop

theorem Word.IsAt.le_stop (h : word.IsAt context token)
    (hle : token.start + token.size ≤ context.file.contents.length) :
    token.start + token.size ≤ word.stop := by
  have hlength := view_length_eq hle
  unfold Word.stop Word.finish
  rw [h.data_eq, h.text, hlength]
  exact Nat.le_max_left _ _

theorem Word.inside_text (h : word.type = .TEXT) : word.inside = [] := by
  obtain ⟨type, location, text, data⟩ := word
  obtain rfl : type = .TEXT := h
  cases data <;> rfl

/-! ## Components -/

/-- The words of the scripts that are returned for texts of the file shorter than `depth` stand in the
text. -/
def KeepsOrder (nested : ScriptParser) (fileName contents : Str) (depth : Nat) : Prop :=
  ∀ context text script, context.file = makeSourceFile fileName contents →
    (∃ size, text = context.file.view text.data size) → text.data ≤ contents.length →
    text.bytes.length < depth → nested context text = .ok script →
    WordsWithin context.file text.data (text.data + text.bytes.length)
      (script.arguments.map Argument.word)

theorem ComponentsInOrder.single_inv {rest : List Token}
    (h : ComponentsInOrder last first (token :: rest)) (htype : token.type ≠ .VARIABLE) :
    first ≤ token.start ∧ 0 < token.size ∧
      ComponentsInOrder last (token.start + token.size) rest := by
  cases h with
  | single _ hsize hfirst hrest => exact ⟨hfirst, hsize, hrest⟩
  | var hvar => exact absurd hvar htype

theorem ComponentsInOrder.var_inv {name : Token} {index rest : List Token}
    (h : ComponentsInOrder last first (token :: name :: (index ++ rest)))
    (htype : token.type = .VARIABLE) (hcount : token.numComponents = index.length + 1) :
    first ≤ token.start ∧ token.start ≤ name.start ∧ name.stop ≤ token.start + token.size ∧
      ComponentsInOrder last (token.start + token.size) rest := by
  generalize htail : name :: (index ++ rest) = tail at h
  cases h with
  | single hnot => exact absurd htype hnot
  | var _ hcount' hfirst hname hstop hrest =>
    obtain ⟨rfl, happend⟩ := List.cons.inj htail
    obtain ⟨-, rfl⟩ := List.append_inj happend (by omega)
    exact ⟨hfirst, hname, hstop, hrest⟩

theorem Token.not_variable_of_text (h : token.type = .TEXT ∨ token.type = .BS) :
    token.type ≠ .VARIABLE := by
  intro hvar
  rcases h with h | h <;> cases h.symm.trans hvar

theorem Token.not_variable_of_command (h : token.type = .COMMAND) : token.type ≠ .VARIABLE := by
  intro hvar
  cases h.symm.trans hvar

theorem GroupsInOrder.le {groups : List (List Token)} (h : GroupsInOrder last first groups) :
    first ≤ last := by
  induction h with
  | nil hle => exact hle
  | simple _ hfirst hstart hstop _ ih => omega
  | compound _ _ hfirst _ _ ih => omega

theorem Token.start_lt_stop (token : Token) : token.start < token.stop := by
  unfold Token.stop
  omega

theorem ComponentsInOrder.le {tokens : List Token} (h : ComponentsInOrder last first tokens) :
    first ≤ last := by
  induction h with
  | nil hle => exact hle
  | single _ _ hfirst _ ih => omega
  | var _ _ hfirst _ _ _ ih => omega

section Depth

variable (hfile : context.file = makeSourceFile fileName contents)
  (hnested : KeepsOrder nested fileName contents depth) (hlast : last ≤ contents.length)

include hfile hnested hlast

/-- The script between brackets stands in the word that has them. -/
theorem Word.IsAt.script_ordered {script : Script} (hat : word.IsAt context token)
    (htype : word.type = .SCRIPT) (hdata : word.data = .script script) (hsize : 0 < token.size)
    (hdepth : token.size ≤ depth) (hle : token.start + token.size ≤ last)
    (hscript : nested context (context.file.view (token.start + 1) (token.size - 2)) = .ok script) :
    word.Ordered Word.stop context.file := by
  refine Word.ordered_of_within hat.located ?_
  have hinside : word.inside = script.arguments.map Argument.word := by
    rw [Word.inside, htype, hdata]
  rw [hinside]
  have hlength := view_length_le context.file (token.start + 1) (token.size - 2)
  have hstart : (context.file.view (token.start + 1) (token.size - 2)).data = token.start + 1 := rfl
  have hcontents : token.start + 1 ≤ contents.length := by omega
  have hstop : token.start + token.size ≤ word.stop := by
    refine hat.le_stop ?_
    rw [hfile]
    exact hle.trans hlast
  have hself := word.start_lt_stop
  rw [hat.data_eq] at hself
  refine (hnested context _ script hfile ⟨_, rfl⟩ hcontents (by omega) hscript).mono ?_ ?_
  · rw [hat.data_eq]
    omega
  · omega

/-- Components in order make words in order. -/
theorem ComponentWords.within {tokens : List Token} (h : ComponentWords nested context tokens words) :
    ∀ {first : Nat}, last ≤ first + depth → ComponentsInOrder last first tokens →
      WordsWithin context.file first last words := by
  induction h with
  | nil =>
    intro first _ _
    exact .nil
  | @text token tokens word words htype hat htext _ ih =>
    intro first hdepth horder
    obtain ⟨hfirst, hsize, hrest⟩ := horder.single_inv (Token.not_variable_of_text htype)
    have hword : word.Ordered Word.stop context.file :=
      Word.ordered_of_leaf hat.located (Word.inside_text htext.1)
    have hstop := hat.stop_le_of_pos (by omega)
    exact .cons hword (hfirst.trans_eq hat.data_eq.symm) hstop (ih (by omega) hrest) hrest.le
  | @command token tokens word words script htype hat hwordtype hscript hdata _ ih =>
    intro first hdepth horder
    obtain ⟨hfirst, hsize, hrest⟩ := horder.single_inv (Token.not_variable_of_command htype)
    have hle := hrest.le
    have hword : word.Ordered Word.stop context.file :=
      hat.script_ordered hfile hnested hlast hwordtype hdata hsize (by omega) hle hscript
    have hstop := hat.stop_le_of_pos (by omega)
    exact .cons hword (hfirst.trans_eq hat.data_eq.symm) hstop (ih (by omega) hrest) hle
  | @scalar token name tokens word words htype hcount hname hat hwordtype hdata _ ih =>
    intro first hdepth horder
    have horder : ComponentsInOrder last first (token :: name :: ([] ++ tokens)) := horder
    obtain ⟨hfirst, hstart, hnamestop, hrest⟩ := horder.var_inv htype hcount
    have hinside : word.inside = [] := by
      rw [Word.inside, hwordtype, hdata]
    have hword : word.Ordered Word.stop context.file := Word.ordered_of_leaf hat.located hinside
    have hnamestart := name.start_lt_stop
    have hle : first ≤ word.text.data := (hfirst.trans hstart).trans_eq hat.data_eq.symm
    exact .cons hword hle (hat.stop_le.trans hnamestop) (ih (by omega) hrest) hrest.le
  | @array token name indexTokens tokens word arrayName index words htype hcount hname hat hwordtype
      hdata _ _ _ ih =>
    intro first hdepth horder
    obtain ⟨hfirst, hstart, hnamestop, hrest⟩ := horder.var_inv htype hcount
    have hinside : word.inside = [] := by
      rw [Word.inside, hwordtype, hdata]
    have hword : word.Ordered Word.stop context.file := Word.ordered_of_leaf hat.located hinside
    have hnamestart := name.start_lt_stop
    have hstop := hat.stop_le_of_pos (by omega)
    exact .cons hword (hfirst.trans_eq hat.data_eq.symm) hstop (ih (by omega) hrest) hrest.le

/-! ## Words of a command -/

/-- The word of the first group stands before the other groups. -/
theorem GroupWord.ordered {group : List Token} {groups : List (List Token)}
    (h : GroupWord nested context group word) (hdepth : last ≤ first + depth)
    (horder : GroupsInOrder last first (group :: groups)) :
    ∃ next, word.Ordered Word.stop context.file ∧ first ≤ word.text.data ∧ word.stop ≤ next ∧
      GroupsInOrder last next groups := by
  cases h with
  | @simple token text _ htype _ hat htext =>
    cases horder with
    | simple _ hfirst hstart hstop hrest =>
      have hword := Word.ordered_of_leaf hat.located (Word.inside_text htext.1)
      refine ⟨token.start + token.size, hword, ?_, hat.stop_le.trans hstop, hrest⟩
      rw [hat.data_eq]
      exact hfirst.trans hstart
    | compound hnot => exact absurd htype hnot
  | @compound token components _ vec htype hat hdata hwords =>
    cases horder with
    | simple hsimple =>
      rcases htype with ⟨htype, -⟩ | ⟨htype, -⟩ <;> cases htype.symm.trans hsimple
    | compound _ hsize hfirst hcomponents hrest =>
      have hle := hrest.le
      have hinside : word.inside = vec := by
        rcases htype with ⟨-, htype⟩ | ⟨-, htype⟩ <;> rw [Word.inside, htype, hdata]
      have hstop := hat.stop_le_of_pos (by omega)
      refine ⟨token.start + token.size, Word.ordered_of_within hat.located ?_, ?_, hstop, hrest⟩
      · have hcontents : token.start + token.size ≤ context.file.contents.length := by
          rw [hfile]
          exact hle.trans hlast
        rw [hinside]
        refine (hwords.within hfile hnested (hle.trans hlast) (by omega) hcomponents).mono ?_ ?_
        · rw [hat.data_eq]
        · exact hat.le_stop hcontents
      · rw [hat.data_eq]
        exact hfirst

/-- A text that is taken as a body is shorter than the command, which has a word before it. -/
theorem TakenWord.ordered {taking : Taking} {group : List Token} {groups : List (List Token)}
    (h : TakenWord interp nested context taking group word) (hdepth : last < first + depth)
    (horder : GroupsInOrder last first (group :: groups)) :
    ∃ next, word.Ordered Word.stop context.file ∧ first ≤ word.text.data ∧ word.stop ≤ next ∧
      GroupsInOrder last next groups := by
  cases h with
  | word hgroup => exact hgroup.ordered hfile hnested hlast hdepth.le horder
  | plain hgroup _ => exact hgroup.ordered hfile hnested hlast hdepth.le horder
  | unparsed hgroup _ => exact hgroup.ordered hfile hnested hlast hdepth.le horder
  | list hgroup _ _ hword =>
    obtain ⟨next, hplain, hfirst, hstop, hrest⟩ := hgroup.ordered hfile hnested hlast hdepth.le horder
    subst hword
    exact ⟨next, Word.ordered_of_leaf hplain.located rfl, hfirst, hstop, hrest⟩
  | @script _ plain _ script hgroup htype hscript hword =>
    obtain ⟨next, hplain, hfirst, hstop, hrest⟩ := hgroup.ordered hfile hnested hlast hdepth.le horder
    have hle := hrest.le
    have hview : ∃ size, plain.text = context.file.view plain.text.data size := by
      cases hgroup with
      | simple _ _ hat _ => exact ⟨_, hat.data_eq ▸ hat.text⟩
      | compound _ hat _ _ => exact ⟨_, hat.data_eq ▸ hat.text⟩
    have hfinish : plain.text.data + plain.text.bytes.length ≤ plain.stop := Nat.le_max_left _ _
    subst hword
    refine ⟨next, Word.ordered_of_within hplain.located ?_, hfirst, hstop, hrest⟩
    exact (hnested context plain.text script hfile hview (by omega) (by omega) hscript).mono
      (Nat.le_refl _) hfinish

/-- Each word stands before the words of the other groups. -/
theorem TakenWords.within {call : Call} {k : Nat} {groups : List (List Token)}
    (h : TakenWords interp nested context call k groups words) :
    ∀ {first : Nat}, last < first + depth → GroupsInOrder last first groups →
      WordsWithin context.file first last words := by
  induction h with
  | nil =>
    intro first _ _
    exact .nil
  | @cons k group groups word words hword _ ih =>
    intro first hdepth horder
    have hfile' : ({ context with curNs := bodyNs context.curNs call k } : ParseContext).file =
        makeSourceFile fileName contents := hfile
    obtain ⟨next, hordered, hfirst, hstop, hrest⟩ :=
      hword.ordered hfile' hnested hlast hdepth horder
    have hself := word.start_lt_stop
    exact .cons hordered hfirst hstop (ih (by omega) hrest) hrest.le

/-- The command word is no body, so that the bound holds for it as well. -/
theorem TakenWords.command_within {call : Call} {groups : List (List Token)}
    (h : TakenWords interp nested context call 0 groups words) (hdepth : last ≤ first + depth)
    (horder : GroupsInOrder last first groups) : WordsWithin context.file first last words := by
  cases h with
  | nil => exact .nil
  | @cons _ group groups word words hword hwords =>
    have htaking : call.type.taking 0 = .word := by cases call.type <;> rfl
    rw [htaking, bodyNs_eq_self (by simp)] at hword
    cases hword with
    | word hgroup =>
      obtain ⟨next, hordered, hfirst, hstop, hrest⟩ :=
        hgroup.ordered hfile hnested hlast hdepth horder
      have hself := word.start_lt_stop
      exact .cons hordered hfirst hstop
        (hwords.within hfile hnested hlast (by omega) hrest) hrest.le

end Depth

/-! ## Scripts -/

theorem argumentsFrom_words (i k : Nat) (words : List Word) :
    (argumentsFrom i k words).map Argument.word = words := by
  induction words generalizing k with
  | nil => rfl
  | cons word words ih => rw [argumentsFrom, List.map_cons, ih]

theorem ParsedCommand.restOf_within (file : SourceFile) {text : StringView} {parse : TclParse}
    (h : ParsedCommand text parse) : text.data ≤ (restOf file text parse).data ∧
      (restOf file text parse).data + (restOf file text parse).bytes.length ≤
        text.data + text.bytes.length ∧
      (restOf file text parse).bytes.length ≤ text.bytes.length := by
  obtain ⟨-, hprogress, hfinish⟩ := h
  have hlength := view_length_le file (parse.commandStart + parse.commandSize)
    (text.data + text.bytes.length - (parse.commandStart + parse.commandSize))
  have hdata : (restOf file text parse).data = parse.commandStart + parse.commandSize := rfl
  change (restOf file text parse).bytes.length ≤ _ at hlength
  omega

/-- The commands stand one after the other in their text. -/
theorem ScriptCalls.within (hcontract : interp.Contract) (horder : interp.InOrder)
    (hfile : context.file = makeSourceFile fileName contents)
    (hnested : KeepsOrder nested fileName contents depth) {text : StringView} {calls : List Call}
    (h : ScriptCalls interp nested context text calls) :
    (∃ size, text = context.file.view text.data size) →
    text.data + text.bytes.length ≤ contents.length → text.bytes.length ≤ depth →
    ∀ i, WordsWithin context.file text.data (text.data + text.bytes.length)
      ((callsArguments i calls).map Argument.word) := by
  induction h with
  | finish =>
    intro _ _ _ i
    exact .nil
  | @empty text parse calls hne hparse _ _ ih =>
    intro _ hcontents hdepth i
    obtain ⟨hstart, hfinish, hlength⟩ :=
      (hcontract.parseCommand text parse hne hparse).restOf_within context.file
    exact (ih ⟨_, rfl⟩ (hfinish.trans hcontents) (hlength.trans hdepth) i).mono hstart hfinish
  | @command text parse call calls hne hparse _ hwords _ ih =>
    intro _ hcontents hdepth i
    have hparsed := hcontract.parseCommand text parse hne hparse
    obtain ⟨hstart, hfinish, hlength⟩ := hparsed.restOf_within context.file
    have hend := hparsed.finish
    have hcall := hwords.command_within hfile hnested (hend.trans hcontents) (by omega)
      (horder text parse hne hparse)
    have hrest := ih ⟨_, rfl⟩ (hfinish.trans hcontents) (hlength.trans hdepth) (i + 1)
    rw [callsArguments, List.map_append, argumentsFrom_words]
    exact hcall.append (hrest.mono (Nat.le_refl _) hfinish) hstart hend

theorem parseScriptAt_keepsOrder (hcontract : interp.Contract) (horder : interp.InOrder)
    (fileName contents : Str) (depth : Nat) :
    KeepsOrder (parseScriptAt interp depth) fileName contents depth := by
  induction depth with
  | zero =>
    intro context text script _ _ _ hlt
    omega
  | succ depth ih =>
    intro context text script hfile hview hdata hlt hscript
    obtain ⟨size, hsize⟩ := hview
    have hle : text.bytes.length ≤ depth := Nat.le_of_lt_succ hlt
    have hcontents : text.data + text.bytes.length ≤ contents.length := by
      have hfinish := view_finish_le context.file text.data size
      rw [← hsize, hfile] at hfinish
      exact hfinish hdata
    have hnested := parseScriptAt_ok hcontract fileName contents depth
    rw [hsize] at hle
    obtain ⟨script', hscript', hcalls⟩ := parseScriptAt_calls hcontract hfile hnested hdata hle
    rw [← hsize] at hle hcalls hscript'
    cases hscript.symm.trans hscript'
    exact hcalls.within hcontract horder hfile ih ⟨size, hsize⟩ hcontents hle 0

/-- The tree that `ParseScript` makes is in source order. -/
theorem parseScript_ordered (hcontract : interp.Contract) (horder : interp.InOrder)
    (hfile : context.file = makeSourceFile fileName contents) {data size : Nat} {script : Script}
    (hdata : data ≤ contents.length)
    (h : parseScript interp context (context.file.view data size) = .ok script) :
    script.Ordered Word.stop context.file := by
  have hwords := parseScriptAt_keepsOrder hcontract horder fileName contents _ context _ script hfile
    ⟨size, rfl⟩ hdata (Nat.lt_succ_self _) h
  refine ⟨fun arg harg => ?_, hwords.order⟩
  obtain ⟨hordered, -, -⟩ := hwords.word arg.word (List.mem_map_of_mem harg)
  exact hordered

end TclAnalyzer
