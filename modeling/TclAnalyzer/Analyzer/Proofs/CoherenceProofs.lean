import TclAnalyzer.Analyzer.Samples
import TclAnalyzer.Analyzer.Proofs.PlacesProofs

/-!
# Coherent cursors

A cursor is taken over from a nested script as a whole, and what follows the script in the same word
only changes the word of the cursor. So the cursor is coherent unless the search ends on such a word.
-/

namespace TclAnalyzer

variable {pos : LinePos} {path : TreePath} {result cursor : PlaceCursor}

/-! ## Parts and arguments in the tree -/

/-- The parts of a word are reached through components only. -/
theorem component_parts_path {n : Nat} {words : List Word} {part : TreePath × Word}
    (h : part ∈ componentParts n words) :
    ∃ k word rest, words[k]? = some word ∧ (rest, part.2) ∈ word.parts ∧
      part.1 = .component (n + k) :: rest := by
  induction words generalizing n with
  | nil => cases h
  | cons word words ih =>
    rw [componentParts] at h
    rcases List.mem_append.mp h with h | h
    · obtain ⟨inner, hinner, rfl⟩ := List.mem_map.mp h
      exact ⟨0, word, inner.1, rfl, hinner, rfl⟩
    · obtain ⟨k, word', rest, hk, hrest, hpath⟩ := ih h
      refine ⟨k + 1, word', rest, hk, hrest, ?_⟩
      rw [hpath, Nat.add_assoc, Nat.add_comm 1]

/-- A part is the word itself or a part of one of the components. -/
theorem Word.mem_parts {word : Word} {part : TreePath × Word} (h : part ∈ word.parts) :
    part = ([], word) ∨ ∃ words k inner rest, word.isComposite = true ∧ word.data = .words words ∧
      words[k]? = some inner ∧ (rest, part.2) ∈ inner.parts ∧ part.1 = .component k :: rest := by
  obtain ⟨type, location, text, data⟩ := word
  rw [Word.parts] at h
  rcases List.mem_cons.mp h with h | h
  · exact Or.inl h
  · right
    cases data with
    | nothing | script | arrayAccess => cases h
    | words words =>
      cases type with
      | TOKEN_LIST | EXPAND =>
        obtain ⟨k, inner, rest, hk, hrest, hpath⟩ := component_parts_path h
        rw [Nat.zero_add] at hpath
        exact ⟨words, k, inner, rest, rfl, rfl, hk, hrest, hpath⟩
      | TEXT | VARIABLE | ARRAY_ACCESS | SCRIPT | LIST | ERROR => cases h

theorem Word.parts_path {p : TreePath} {word inner : Word} (h : (p, inner) ∈ word.parts) :
    (∀ step ∈ p, ∃ n, step = .component n) ∧ nodeAt (.word word) p = some (.word inner) := by
  induction p generalizing word with
  | nil =>
    rcases Word.mem_parts h with heq | ⟨words, k, component, rest, -, -, -, -, hpath⟩
    · cases heq
      exact ⟨by simp, rfl⟩
    · cases hpath
  | cons step p ih =>
    rcases Word.mem_parts h with heq | ⟨words, k, component, rest, -, hdata, hk, hrest, hpath⟩
    · cases heq
    · cases hpath
      obtain ⟨hsteps, hnode⟩ := ih hrest
      refine ⟨?_, ?_⟩
      · intro step hstep
        rcases List.mem_cons.mp hstep with rfl | hstep
        · exact ⟨k, rfl⟩
        · exact hsteps step hstep
      · rw [nodeAt, childAt, hdata]
        dsimp only
        rw [hk]
        exact hnode

theorem mem_argumentsFrom {i k : Nat} {words : List Word} {arg : Argument}
    (h : arg ∈ argumentsFrom i k words) :
    arg.call = i ∧ ∃ n, arg.argument = k + n ∧ words[n]? = some arg.word := by
  induction words generalizing k with
  | nil => cases h
  | cons word words ih =>
    rcases List.mem_cons.mp h with rfl | h
    · exact ⟨rfl, 0, rfl, rfl⟩
    · obtain ⟨hcall, n, hargument, hn⟩ := ih h
      exact ⟨hcall, n + 1, by omega, hn⟩

theorem mem_callsArguments {i : Nat} {commands : List Call} {arg : Argument}
    (h : arg ∈ callsArguments i commands) : ∃ n call, arg.call = i + n ∧
      commands[n]? = some call ∧ call.words[arg.argument]? = some arg.word := by
  induction commands generalizing i with
  | nil => cases h
  | cons call commands ih =>
    rcases List.mem_append.mp h with h | h
    · obtain ⟨hcall, n, hargument, hn⟩ := mem_argumentsFrom h
      refine ⟨0, call, hcall, rfl, ?_⟩
      rw [hargument, Nat.zero_add]
      exact hn
    · obtain ⟨n, call', hcall, hn, hword⟩ := ih h
      exact ⟨n + 1, call', by omega, hn, hword⟩

/-- An argument is a word of a call of the script. -/
theorem Script.mem_arguments {script : Script} {arg : Argument} (h : arg ∈ script.arguments) :
    ∃ call, script.commands[arg.call]? = some call ∧ call.words[arg.argument]? = some arg.word := by
  obtain ⟨n, call, hcall, hn, hword⟩ := mem_callsArguments h
  rw [Nat.zero_add] at hcall
  exact ⟨call, hcall ▸ hn, hword⟩

theorem Script.lastReached_mem {script : Script} {arg : Argument}
    (h : script.lastReached pos = some arg) : arg ∈ script.arguments := by
  have hmem := List.mem_of_getLast? h
  exact (List.takeWhile_prefix _).subset hmem

theorem nodeAt_argument {script : Script} {arg : Argument} (h : arg ∈ script.arguments) :
    (∃ call, nodeAt (.script script) [.call arg.call] = some (.call call) ∧
      arg.argument < call.words.length) ∧
    nodeAt (.script script) arg.path = some (.word arg.word) := by
  obtain ⟨call, hcall, hword⟩ := Script.mem_arguments h
  have hnode : nodeAt (.script script) [.call arg.call] = some (.call call) := by
    rw [nodeAt, childAt, hcall]
    rfl
  refine ⟨⟨call, hnode, (List.getElem?_eq_some_iff.mp hword).1⟩, ?_⟩
  rw [Argument.path, ← List.singleton_append, nodeAt_concat hnode, childAt, hword]
  rfl

/-! ## Induction over nested scripts -/

theorem sizeOf_part_le {p : TreePath} {word inner : Word} (h : (p, inner) ∈ word.parts) :
    sizeOf inner ≤ sizeOf word := by
  induction p generalizing word with
  | nil =>
    rcases Word.mem_parts h with heq | ⟨words, k, component, rest, -, -, -, -, hpath⟩
    · cases heq
      exact Nat.le_refl _
    · cases hpath
  | cons step p ih =>
    rcases Word.mem_parts h with heq | ⟨words, k, component, rest, -, hdata, hk, hrest, hpath⟩
    · cases heq
    · cases hpath
      have hle := ih hrest
      have hlt := List.sizeOf_lt_of_mem (List.mem_of_getElem? hk)
      obtain ⟨type, location, text, data⟩ := word
      cases hdata
      simp only [Word.mk.sizeOf_spec, WordData.words.sizeOf_spec]
      omega

theorem sizeOf_argument_lt {script : Script} {arg : Argument} (h : arg ∈ script.arguments) :
    sizeOf arg.word < sizeOf script := by
  obtain ⟨call, hcall, hword⟩ := Script.mem_arguments h
  have hcall := List.sizeOf_lt_of_mem (List.mem_of_getElem? hcall)
  have hword := List.sizeOf_lt_of_mem (List.mem_of_getElem? hword)
  obtain ⟨type, words, ns⟩ := call
  obtain ⟨location, commands⟩ := script
  simp only [Call.mk.sizeOf_spec, Script.mk.sizeOf_spec] at *
  omega

theorem sizeOf_script_lt {word : Word} {script : Script} (h : word.data = .script script) :
    sizeOf script < sizeOf word := by
  obtain ⟨type, location, text, data⟩ := word
  cases h
  simp only [Word.mk.sizeOf_spec, WordData.script.sizeOf_spec]
  omega

/-- What holds of a script when it holds of the scripts in its words holds of all scripts. -/
theorem Script.nested_induction {P : Script → Prop}
    (step : ∀ script : Script, (∀ arg ∈ script.arguments, ∀ part ∈ arg.word.parts, ∀ inner,
      part.2.data = .script inner → P inner) → P script) (script : Script) : P script := by
  induction hsize : sizeOf script using Nat.strong_induction_on generalizing script with
  | _ size ih =>
    refine step script fun arg harg part hpart inner hdata => ih (sizeOf inner) ?_ inner rfl
    have h1 := sizeOf_argument_lt harg
    have h2 := sizeOf_part_le hpart
    have h3 := sizeOf_script_lt hdata
    omega

/-! ## Going through the parts -/

/-- A composite word is passed by, so that only the terminals count. -/
theorem foldlM_terminals (word : Word) (path : TreePath) (result : PlaceCursor) :
    word.parts.foldlM (visit pos path) result = word.terminals.foldlM (visit pos path) result := by
  unfold Word.terminals
  generalize word.parts = parts
  induction parts generalizing result with
  | nil => rfl
  | cons part parts ih =>
    rw [List.foldlM_cons]
    cases hcomposite : part.2.isComposite with
    | false =>
      rw [List.filter_cons_of_pos (by simp [hcomposite]), List.foldlM_cons]
      exact congrArg _ (funext ih)
    | true =>
      have hvisit : visit pos path result part = .ok result := by
        have htype : part.2.type = .TOKEN_LIST ∨ part.2.type = .EXPAND := of_decide_eq_true hcomposite
        unfold visit
        rcases htype with htype | htype
        · rw [htype]
          rfl
        · rw [htype]
          rfl
      rw [List.filter_cons_of_neg (by simp [hcomposite]), hvisit]
      exact ih result

theorem Word.mem_terminals {word : Word} {part : TreePath × Word} (h : part ∈ word.terminals) :
    part ∈ word.parts ∧ part.2.isComposite = false := by
  obtain ⟨hmem, hcomposite⟩ := List.mem_filter.mp h
  exact ⟨hmem, by simpa using hcomposite⟩

/-- A terminal is the word of the cursor, or its script is searched. -/
theorem visit_terminal {part : TreePath × Word} (hpart : part.2.isComposite = false)
    (h : visit pos path result part = .ok cursor) :
    (part.2.type ≠ .SCRIPT ∧ cursor = { result with word := some (path ++ part.1) }) ∨
    ∃ inner, part.2.type = .SCRIPT ∧ part.2.data = .script inner ∧
      locateInScript pos (path ++ part.1 ++ [.script]) inner = .ok cursor := by
  obtain ⟨p, type, location, text, data⟩ := part
  cases type with
  | TOKEN_LIST | EXPAND => cases hpart
  | SCRIPT =>
    cases data with
    | script inner => exact Or.inr ⟨inner, rfl, rfl, h⟩
    | nothing | words | arrayAccess => cases h
  | TEXT | VARIABLE | ARRAY_ACCESS | LIST | ERROR =>
    cases h
    exact Or.inl ⟨nofun, rfl⟩

/-- What every visit keeps is kept by the run over the parts. -/
theorem foldlM_visit_keeps {I : PlaceCursor → Prop} {parts : List (TreePath × Word)}
    (hkeeps : ∀ part ∈ parts, ∀ r r', I r → visit pos path r part = .ok r' → I r')
    (hresult : I result) (h : parts.foldlM (visit pos path) result = .ok cursor) : I cursor := by
  induction parts generalizing result with
  | nil =>
    cases h
    exact hresult
  | cons part parts ih =>
    obtain ⟨next, hnext, h⟩ := bind_eq_ok.mp h
    exact ih (fun p hp => hkeeps p (List.mem_cons_of_mem part hp))
      (hkeeps part List.mem_cons_self result next hresult hnext) h

/-- The pointer is null or points below the path. -/
def Within (path : TreePath) (pointer : Option TreePath) : Prop :=
  ∀ place, pointer = some place → ∃ rest, place = path ++ rest

theorem Within.none : Within path none := nofun

theorem Within.below (rest : TreePath) : Within path (some (path ++ rest)) := by
  rintro place ⟨⟩
  exact ⟨rest, rfl⟩

theorem Within.of_append {more : TreePath} {pointer : Option TreePath}
    (h : Within (path ++ more) pointer) : Within path pointer := by
  intro place hplace
  obtain ⟨rest, rfl⟩ := h place hplace
  exact ⟨more ++ rest, List.append_assoc _ _ _⟩

/-- The search in a script stays below the script. -/
theorem locateInScript_within (script : Script) : ∀ (path : TreePath) (cursor : PlaceCursor),
    locateInScript pos path script = .ok cursor →
    Within path cursor.call ∧ Within path cursor.word := by
  induction script using Script.nested_induction with
  | step script ih =>
    intro path cursor h
    have hended := locateInScript_ended h
    cases hlast : script.lastReached pos with
    | none =>
      rw [hlast] at hended
      rw [hended]
      exact ⟨Within.none, Within.none⟩
    | some arg =>
      rw [hlast] at hended
      dsimp only at hended
      rw [foldlM_terminals] at hended
      refine foldlM_visit_keeps (I := fun r => Within path r.call ∧ Within path r.word)
        (fun part hpart r r' hr hvisit => ?_) ⟨Within.below _, Within.none⟩ hended
      obtain ⟨hmem, hcomposite⟩ := Word.mem_terminals hpart
      rcases visit_terminal hcomposite hvisit with ⟨-, rfl⟩ | ⟨inner, -, hdata, hinner⟩
      · refine ⟨hr.1, ?_⟩
        rw [List.append_assoc]
        exact Within.below _
      · obtain ⟨hcall, hword⟩ := ih arg (Script.lastReached_mem hlast) part hmem inner hdata _ r' hinner
        rw [List.append_assoc, List.append_assoc] at hcall hword
        exact ⟨hcall.of_append, hword.of_append⟩

/-! ## The call of the cursor -/

/-- A call in a script below components of the word at the path. -/
def CallInside (path : TreePath) (result : PlaceCursor) : Prop :=
  ∀ callPath, result.call = some callPath → ∃ components rest,
    callPath = path ++ (components ++ .script :: rest)

/-- Text does not change the call and the argument. -/
theorem foldlM_text {parts : List (TreePath × Word)}
    (hcomposite : ∀ part ∈ parts, part.2.isComposite = false)
    (htext : ¬ ∃ part ∈ parts, part.2.type = .SCRIPT)
    (h : parts.foldlM (visit pos path) result = .ok cursor) :
    cursor.call = result.call ∧ cursor.argument = result.argument := by
  refine foldlM_visit_keeps (I := fun r => r.call = result.call ∧ r.argument = result.argument)
    (fun part hpart r r' hr hvisit => ?_) ⟨rfl, rfl⟩ h
  rcases visit_terminal (hcomposite part hpart) hvisit with ⟨-, rfl⟩ | ⟨inner, htype, -, -⟩
  · exact hr
  · exact absurd ⟨part, hpart, htype⟩ htext

theorem callInside_of_script {part : TreePath × Word} {inner : Script}
    (h : locateInScript pos (path ++ part.1 ++ [.script]) inner = .ok cursor) :
    CallInside path cursor := by
  intro callPath hcall
  obtain ⟨rest, rfl⟩ := (locateInScript_within inner _ cursor h).1 callPath hcall
  exact ⟨part.1, rest, by simp⟩

/-- After a script the call of the cursor is in a script. -/
theorem foldlM_callInside {parts : List (TreePath × Word)}
    (hcomposite : ∀ part ∈ parts, part.2.isComposite = false)
    (hscript : ∃ part ∈ parts, part.2.type = .SCRIPT)
    (h : parts.foldlM (visit pos path) result = .ok cursor) : CallInside path cursor := by
  obtain ⟨part, hmem, htype⟩ := hscript
  obtain ⟨before, after, rfl⟩ := List.append_of_mem hmem
  rw [List.foldlM_append] at h
  obtain ⟨r, -, h⟩ := bind_eq_ok.mp h
  obtain ⟨r', hvisit, h⟩ := bind_eq_ok.mp h
  refine foldlM_visit_keeps (fun p hp r1 r2 hr hvisit => ?_) ?_ h
  · have hp := hcomposite p (List.mem_append_right _ (List.mem_cons_of_mem part hp))
    rcases visit_terminal hp hvisit with ⟨-, rfl⟩ | ⟨inner, -, -, hinner⟩
    · exact hr
    · exact callInside_of_script hinner
  · rcases visit_terminal (hcomposite part hmem) hvisit with ⟨htext, -⟩ | ⟨inner, -, -, hinner⟩
    · exact absurd htype htext
    · exact callInside_of_script hinner

/-! ## Where the search ends -/

theorem Script.textAfterScript_iff {script : Script} {arg : Argument}
    {before : List (TreePath × Word)} {last : TreePath × Word}
    (hlast : script.lastReached pos = some arg) (hterminals : arg.word.terminals = before ++ [last]) :
    script.TextAfterScript pos ↔
      (last.2.type ≠ .SCRIPT ∧ ∃ part ∈ before, part.2.type = .SCRIPT) ∨
      (last.2.type = .SCRIPT ∧ ∃ inner, last.2.data = .script inner ∧ inner.TextAfterScript pos) := by
  constructor
  · intro h
    cases h with
    | here hlast' hterminals' htype hscript =>
      cases hlast.symm.trans hlast'
      obtain ⟨rfl, heq⟩ := List.append_inj' (hterminals.symm.trans hterminals') rfl
      cases heq
      exact Or.inl ⟨htype, hscript⟩
    | nested hlast' hterminals' htype hdata hinner =>
      cases hlast.symm.trans hlast'
      obtain ⟨rfl, heq⟩ := List.append_inj' (hterminals.symm.trans hterminals') rfl
      cases heq
      exact Or.inr ⟨htype, _, hdata, hinner⟩
  · rintro (⟨htype, hscript⟩ | ⟨htype, inner, hdata, hinner⟩)
    · exact .here hlast hterminals htype hscript
    · exact .nested hlast hterminals htype hdata hinner

/-- Where it ends nowhere, or at a word without terminals, no text comes after a script. -/
theorem Script.not_textAfterScript {script : Script}
    (h : ∀ arg, script.lastReached pos = some arg → arg.word.terminals = []) :
    ¬ script.TextAfterScript pos := by
  intro htext
  cases htext with
  | here hlast hterminals _ _ =>
    rw [h _ hlast] at hterminals
    exact absurd hterminals.symm (by simp)
  | nested hlast hterminals _ _ _ =>
    rw [h _ hlast] at hterminals
    exact absurd hterminals.symm (by simp)

theorem coherent_of_word_eq_none (root : Script) (h : cursor.word = none) : cursor.Coherent root := by
  intro place hplace
  rw [h] at hplace
  cases hplace

/-- Where a part of an argument is in the tree. -/
theorem nodeAt_part {root script : Script} {path : TreePath} {arg : Argument}
    {part : TreePath × Word} (hpath : nodeAt (.script root) path = some (.script script))
    (harg : arg ∈ script.arguments) (hpart : part ∈ arg.word.parts) :
    nodeAt (.script root) (path ++ arg.path ++ part.1) = some (.word part.2) := by
  obtain ⟨-, hnode⟩ := nodeAt_argument harg
  rw [List.append_assoc, nodeAt_append, hpath, Option.bind_some, nodeAt_append, hnode]
  exact (Word.parts_path hpart).2

/-- The word of the cursor is a part of the argument at which the search in the script has started. -/
theorem coherent_part {root script : Script} {arg : Argument} {part : TreePath × Word}
    (hpath : nodeAt (.script root) path = some (.script script)) (harg : arg ∈ script.arguments)
    (hpart : part ∈ arg.word.parts) (hcall : cursor.call = (arg.start path).call)
    (hargument : cursor.argument = (arg.start path).argument)
    (hword : cursor.word = some (path ++ arg.path ++ part.1)) : cursor.Coherent root := by
  intro place hplace
  rw [hword] at hplace
  cases hplace
  obtain ⟨⟨call, hnode, hlt⟩, -⟩ := nodeAt_argument harg
  obtain ⟨hcomponents, -⟩ := Word.parts_path hpart
  have hcall' : cursor.call = some (path ++ [.call arg.call]) := hcall
  refine ⟨path ++ [.call arg.call], call, part.1, part.2, hcall', ?_, ?_, ?_, hcomponents,
    wordAt_of_nodeAt (nodeAt_part hpath harg hpart)⟩
  · refine callAt_of_nodeAt ?_
    rw [nodeAt_append, hpath]
    exact hnode
  · rw [hargument]
    exact hlt
  · rw [hargument]
    simp [Argument.path, Argument.start]

theorem not_coherent_of_callInside {root : Script} {word : Word} {part : TreePath × Word}
    (hpart : part ∈ word.parts) (hinside : CallInside path cursor)
    (hword : cursor.word = some (path ++ part.1)) : ¬ cursor.Coherent root := by
  intro h
  obtain ⟨callPath, call, components, word', hcall, -, -, hplace, -, -⟩ := h _ hword
  obtain ⟨first, rest, rfl⟩ := hinside callPath hcall
  rw [List.append_assoc, List.append_cancel_left_eq] at hplace
  -- the path of the part would go through a script
  have hmem : TreeStep.script ∈ part.1 := by
    rw [hplace]
    simp
  obtain ⟨n, hn⟩ := (Word.parts_path hpart).1 _ hmem
  cases hn

/-- The cursor is coherent exactly when the search does not end on text after a script. -/
theorem coherent_iff {root : Script} (script : Script) : ∀ (path : TreePath) (cursor : PlaceCursor),
    nodeAt (.script root) path = some (.script script) →
    locateInScript pos path script = .ok cursor →
    (cursor.Coherent root ↔ ¬ script.TextAfterScript pos) := by
  induction script using Script.nested_induction with
  | step script ih =>
    intro path cursor hpath h
    have hended := locateInScript_ended h
    cases hlast : script.lastReached pos with
    | none =>
      rw [hlast] at hended
      rw [hended]
      refine iff_of_true (coherent_of_word_eq_none root rfl) (Script.not_textAfterScript ?_)
      intro arg harg
      cases hlast.symm.trans harg
    | some arg =>
      rw [hlast] at hended
      dsimp only at hended
      rw [foldlM_terminals] at hended
      rcases List.eq_nil_or_concat arg.word.terminals with hterminals | ⟨before, last, hterminals⟩
      · rw [hterminals] at hended
        cases hended
        refine iff_of_true (coherent_of_word_eq_none root rfl) (Script.not_textAfterScript ?_)
        intro arg' harg'
        cases hlast.symm.trans harg'
        exact hterminals
      rw [List.concat_eq_append] at hterminals
      have hmem : ∀ part ∈ before ++ [last], part ∈ arg.word.terminals := fun part hpart =>
        hterminals ▸ hpart
      have hbefore : ∀ part ∈ before, part.2.isComposite = false := fun part hpart =>
        (Word.mem_terminals (hmem part (List.mem_append_left _ hpart))).2
      obtain ⟨hlastPart, hlastComposite⟩ :=
        Word.mem_terminals (hmem last (List.mem_append_right _ List.mem_cons_self))
      rw [hterminals, List.foldlM_append] at hended
      obtain ⟨r, hr, hended⟩ := bind_eq_ok.mp hended
      obtain ⟨r', hvisit, hended⟩ := bind_eq_ok.mp hended
      cases hended
      rw [Script.textAfterScript_iff hlast hterminals]
      rcases visit_terminal hlastComposite hvisit with ⟨htype, rfl⟩ | ⟨inner, htype, hdata, hinner⟩
      · -- the search ends on text
        by_cases hscript : ∃ part ∈ before, part.2.type = .SCRIPT
        · refine iff_of_false ?_ (not_not.mpr (Or.inl ⟨htype, hscript⟩))
          have hinside : CallInside (path ++ arg.path) r := foldlM_callInside hbefore hscript hr
          refine not_coherent_of_callInside hlastPart ?_ rfl
          exact fun callPath hcall => hinside callPath hcall
        · obtain ⟨hcall, hargument⟩ := foldlM_text hbefore hscript hr
          refine iff_of_true ?_ ?_
          · exact coherent_part hpath (Script.lastReached_mem hlast) hlastPart hcall hargument rfl
          · rintro (⟨-, hsome⟩ | ⟨hcontra, -⟩)
            · exact hscript hsome
            · exact htype hcontra
      · -- the search ends in a script
        have hnode : nodeAt (.script root) (path ++ arg.path ++ last.1 ++ [.script]) =
            some (.script inner) := by
          rw [nodeAt_concat (nodeAt_part hpath (Script.lastReached_mem hlast) hlastPart), childAt,
            hdata]
        rw [ih arg (Script.lastReached_mem hlast) last hlastPart inner hdata _ _ hnode hinner]
        constructor
        · rintro hnot (⟨hcontra, -⟩ | ⟨-, inner', hdata', htext⟩)
          · exact hcontra htype
          · cases hdata.symm.trans hdata'
            exact hnot htext
        · exact fun hnot htext => hnot (Or.inr ⟨htype, inner, hdata, htext⟩)

/-- What `FindPositionInScript` returns is coherent exactly when the search does not end on text that
comes after a script in the same word. -/
theorem findPositionInScript_coherent_iff {script : Script} {found : ScriptCursor}
    (h : findPositionInScript pos script = .ok found) :
    ∃ cursor, locateInScript pos [] script = .ok cursor ∧ cursor.cursor script = found ∧
      (cursor.Coherent script ↔ ¬ script.TextAfterScript pos) := by
  rw [findPositionInScript_eq_locate] at h
  cases hlocate : locateInScript pos [] script with
  | error fault =>
    rw [hlocate] at h
    cases h
  | ok cursor =>
    rw [hlocate] at h
    cases h
    exact ⟨cursor, rfl, rfl, coherent_iff script [] cursor rfl hlocate⟩

/-! ## Text after a command substitution -/

/-- The file `f [g].y`. -/
def scriptThenText : SourceFile := makeSourceFile [] (bytes "f [g].y")

/-- The Tcl library on the two commands of that file. -/
def scriptThenTextInterp : TclInterp where
  parseCommand view :=
    if view = scriptThenText.view 0 7 then
      some { commandStart := 0, commandSize := 7, commentSize := 0, numWords := 2, tokens :=
        [⟨.SIMPLE_WORD, 0, 1, 1⟩, ⟨.TEXT, 0, 1, 0⟩, ⟨.WORD, 2, 5, 2⟩, ⟨.COMMAND, 2, 3, 0⟩,
          ⟨.TEXT, 5, 2, 0⟩] }
    else if view = scriptThenText.view 3 1 then
      some { commandStart := 3, commandSize := 1, commentSize := 0, numWords := 1, tokens :=
        [⟨.SIMPLE_WORD, 3, 1, 1⟩, ⟨.TEXT, 3, 1, 0⟩] }
    else none
  findElement _ := none

def scriptThenTextScript : Script :=
  { location := lineLocation 3
    commands := [{ type := .USER, words := [textWord 3 "g"], ns := [] }] }

def scriptWordG : Word :=
  { type := .SCRIPT, location := lineLocation 2, text := { data := 2, bytes := bytes "[g]" }
    data := .script scriptThenTextScript }

/-- The second word is the script `[g]` and the text `.y`. -/
def scriptThenTextWord : Word :=
  { type := .TOKEN_LIST, location := lineLocation 2, text := { data := 2, bytes := bytes "[g].y" }
    data := .words [scriptWordG, textWord 5 ".y"] }

def scriptThenTextTree : Script :=
  { location := lineLocation 0
    commands := [{ type := .USER, words := [textWord 0 "f", scriptThenTextWord], ns := [] }] }

theorem scriptThenText_parsed : parseScript scriptThenTextInterp
    { file := scriptThenText, curNs := [] } (scriptThenText.view 0 7) = .ok scriptThenTextTree :=
  rfl

/-- The call of `g` and the text `.y`. -/
def mixedCursor : PlaceCursor :=
  { call := some [.call 0, .word 1, .component 0, .script, .call 0], argument := 0
    word := some [.call 0, .word 1, .component 1] }

/-- At the `y` the text is given as the command word of the call of `g`. -/
theorem scriptThenText_not_coherent : parseScript scriptThenTextInterp
      { file := scriptThenText, curNs := [] } (scriptThenText.view 0 7) = .ok scriptThenTextTree ∧
    locateInScript { line := 0, column := 6 } [] scriptThenTextTree = .ok mixedCursor ∧
    findPositionInScript { line := 0, column := 6 } scriptThenTextTree =
      .ok (mixedCursor.cursor scriptThenTextTree) ∧
    ¬ mixedCursor.Coherent scriptThenTextTree := by
  refine ⟨scriptThenText_parsed, rfl, rfl, fun hcoherent => ?_⟩
  obtain ⟨callPath, call, components, word, hcall, -, -, hplace, -, -⟩ := hcoherent _ rfl
  cases hcall
  simp at hplace

/-- At the `f` it is coherent. -/
theorem scriptThenText_coherent_iff :
    (∃ cursor, locateInScript { line := 0, column := 6 } [] scriptThenTextTree = .ok cursor ∧
      cursor.cursor scriptThenTextTree = mixedCursor.cursor scriptThenTextTree ∧
      (cursor.Coherent scriptThenTextTree ↔
        ¬ scriptThenTextTree.TextAfterScript { line := 0, column := 6 })) ∧
    ∃ cursor, locateInScript { line := 0, column := 0 } [] scriptThenTextTree = .ok cursor ∧
      cursor.Coherent scriptThenTextTree := by
  constructor
  · exact findPositionInScript_coherent_iff rfl
  · have hlast : scriptThenTextTree.lastReached { line := 0, column := 0 } =
        some ⟨0, 0, textWord 0 "f"⟩ := rfl
    have hterminals : (textWord 0 "f").terminals = [] ++ [([], textWord 0 "f")] := rfl
    have hnot : ¬ scriptThenTextTree.TextAfterScript { line := 0, column := 0 } := by
      rw [Script.textAfterScript_iff hlast hterminals]
      rintro (⟨-, part, hpart, -⟩ | ⟨htype, -⟩)
      · cases hpart
      · cases htype
    obtain ⟨cursor, hlocate, -, hiff⟩ := findPositionInScript_coherent_iff
      (show findPositionInScript { line := 0, column := 0 } scriptThenTextTree = .ok _ from rfl)
    exact ⟨cursor, hlocate, hiff.mpr hnot⟩

end TclAnalyzer
