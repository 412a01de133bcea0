import TclAnalyzer.Analyzer.Spans
import TclAnalyzer.Analyzer.Samples
import TclAnalyzer.Analyzer.Proofs.CoherenceProofs
import TclAnalyzer.Analyzer.Proofs.LocationProofs
import TclAnalyzer.Analyzer.Proofs.TypedProofs

/-!
# The word under the cursor

In a tree in source order the words before a leaf start before every position in it and the words
after it do not. So the search finds the leaf unless a component after it makes it give up a word
around the leaf.
-/

namespace TclAnalyzer

variable {file : SourceFile} {pos : LinePos} {path : TreePath} {result cursor : PlaceCursor}
  {offset : Nat} {ends : Word → Nat}

/-! ## Words in source order -/

theorem Word.Ordered.located {word : Word} (h : word.Ordered ends file) :
    makeSourceLocation file word.text.data = .ok word.location := by
  cases h with
  | mk hlocated => exact hlocated

theorem Word.Ordered.inner {word inner : Word} (h : word.Ordered ends file)
    (hinner : inner ∈ word.inside) : inner.Ordered ends file := by
  cases h with
  | mk _ _ hwords => exact hwords inner hinner

theorem Word.Ordered.nested {word inner : Word} (h : word.Ordered ends file)
    (hinner : inner ∈ word.inside) :
    word.text.data ≤ inner.text.data ∧ ends inner ≤ ends word := by
  cases h with
  | mk _ _ _ hnested => exact hnested inner hinner

theorem Word.Ordered.sourceOrder {word : Word} (h : word.Ordered ends file) :
    InSequence ends word.inside := by
  cases h with
  | mk _ _ _ _ horder => exact horder

theorem Word.Ordered.start_le {word : Word} (h : word.Ordered ends file) :
    word.text.data ≤ ends word := by
  cases h with
  | mk _ hstart => exact hstart

/-- One part of a word starts before another, and ends before it unless the other one is in it. -/
def PartBefore (ends : Word → Nat) (a b : TreePath × Word) : Prop :=
  a.2.text.data ≤ b.2.text.data ∧ (a.2.isComposite = false → ends a.2 ≤ b.2.text.data)

/-- The parts of a word are in order and in the word. -/
structure PartsInOrder (ends : Word → Nat) (file : SourceFile) (start finish : Nat)
    (parts : List (TreePath × Word)) : Prop where
  order : parts.Pairwise (PartBefore ends)
  part : ∀ part ∈ parts, part.2.Ordered ends file ∧ start ≤ part.2.text.data ∧ ends part.2 ≤ finish

theorem componentParts_inOrder {start finish : Nat} (n : Nat) {words : List Word}
    (hparts : ∀ word ∈ words, PartsInOrder ends file word.text.data (ends word) word.parts)
    (hnested : ∀ word ∈ words, start ≤ word.text.data ∧ ends word ≤ finish)
    (horder : InSequence ends words) :
    PartsInOrder ends file start finish (componentParts n words) := by
  induction words generalizing n with
  | nil => exact ⟨.nil, by simp [componentParts]⟩
  | cons word words ih =>
    obtain ⟨hfirst, horder⟩ := List.pairwise_cons.mp horder
    have hword := hparts word List.mem_cons_self
    obtain ⟨hstart, hfinish⟩ := hnested word List.mem_cons_self
    have hwords := ih (n + 1) (fun w hw => hparts w (List.mem_cons_of_mem word hw))
      (fun w hw => hnested w (List.mem_cons_of_mem word hw)) horder
    rw [componentParts]
    constructor
    · refine List.pairwise_append.mpr ⟨?_, hwords.order, ?_⟩
      · exact List.pairwise_map.mpr hword.order
      · intro a ha b hb
        obtain ⟨a', ha', rfl⟩ := List.mem_map.mp ha
        obtain ⟨hin, -, hle⟩ := hword.part a' ha'
        obtain ⟨k, w, rest, hk, hrest, -⟩ := component_parts_path hb
        have hw := List.mem_of_getElem? hk
        obtain ⟨-, hge, -⟩ := (hparts w (List.mem_cons_of_mem word hw)).part _ hrest
        have hbetween := hfirst w hw
        have hself := hin.start_le
        unfold PartBefore
        dsimp only at hge ⊢
        constructor
        · omega
        · intro _
          omega
    · intro part hpart
      rcases List.mem_append.mp hpart with hpart | hpart
      · obtain ⟨a, ha, rfl⟩ := List.mem_map.mp hpart
        obtain ⟨hin, hge, hle⟩ := hword.part a ha
        exact ⟨hin, hstart.trans hge, hle.trans hfinish⟩
      · exact hwords.part part hpart

/-- The induction is on the nesting of the words. -/
theorem Word.Ordered.parts {word : Word} (h : word.Ordered ends file) :
    PartsInOrder ends file word.text.data (ends word) word.parts := by
  have hself := h
  induction h with
  | @mk word _ _ _ hnested horder ih =>
    have hin : ∀ inner ∈ word.inside,
        PartsInOrder ends file inner.text.data (ends inner) inner.parts :=
      fun inner hinner => ih inner hinner (hself.inner hinner)
    have hrest : PartsInOrder ends file word.text.data (ends word) (dataParts word.type word.data) ∧
        (dataParts word.type word.data ≠ [] → word.isComposite = true) := by
      have hnil : PartsInOrder ends file word.text.data (ends word) [] := ⟨.nil, by simp⟩
      obtain ⟨type, location, text, data⟩ := word
      cases data with
      | nothing | script | arrayAccess => exact ⟨hnil, fun h => absurd rfl h⟩
      | words words =>
        cases type with
        | TOKEN_LIST | EXPAND => exact ⟨componentParts_inOrder 0 hin hnested horder, fun _ => rfl⟩
        | TEXT | VARIABLE | ARRAY_ACCESS | SCRIPT | LIST | ERROR =>
          exact ⟨hnil, fun h => absurd rfl h⟩
    obtain ⟨hrest, hcomposite⟩ := hrest
    have hparts : word.parts = ([], word) :: dataParts word.type word.data := by
      obtain ⟨type, location, text, data⟩ := word
      rw [Word.parts]
    rw [hparts]
    constructor
    · refine List.pairwise_cons.mpr ⟨fun part hpart => ⟨(hrest.part part hpart).2.1, ?_⟩, hrest.order⟩
      intro hnot
      rw [hcomposite (List.ne_nil_of_mem hpart)] at hnot
      cases hnot
    · intro part hpart
      rcases List.mem_cons.mp hpart with rfl | hpart
      · exact ⟨hself, Nat.le_refl _, Nat.le_refl _⟩
      · exact hrest.part part hpart

/-! ## Which words are reached -/

theorem Word.self_mem_parts (word : Word) : ([], word) ∈ word.parts := by
  obtain ⟨type, location, text, data⟩ := word
  rw [Word.parts]
  exact List.mem_cons_self

/-- A word is reached when its parts start before the position. -/
theorem Word.Ordered.reached_iff {word : Word} (h : word.Ordered ends file)
    (hpos : offsetToLineByte file offset = .ok pos) :
    word.reached pos = true ↔ ∀ part ∈ word.parts, part.2.text.data ≤ offset := by
  rw [Word.reached, List.all_eq_true]
  refine forall₂_congr fun part hpart => ?_
  have hafter := startsAfter_iff (h.parts.part part hpart).1.located hpos
  rw [Bool.not_eq_true', ← Bool.not_eq_true, hafter, Nat.not_lt]

theorem Word.Ordered.reached_of_finish_le {word : Word} (h : word.Ordered ends file)
    (hpos : offsetToLineByte file offset = .ok pos) (hle : ends word ≤ offset) :
    word.reached pos = true := by
  rw [h.reached_iff hpos]
  intro part hpart
  obtain ⟨hin, -, hfinish⟩ := h.parts.part part hpart
  have hself := hin.start_le
  omega

theorem Word.Ordered.not_reached_of_lt {word : Word} (h : word.Ordered ends file)
    (hpos : offsetToLineByte file offset = .ok pos) (hlt : offset < word.text.data) :
    word.reached pos = false := by
  rw [← Bool.not_eq_true, h.reached_iff hpos]
  intro hall
  have hself := hall _ word.self_mem_parts
  dsimp only at hself
  omega

/-- The word around a position in one of its terminals is reached when this is the last part. -/
theorem Word.Ordered.reached_iff_last {word : Word} (h : word.Ordered ends file)
    (hpos : offsetToLineByte file offset = .ok pos) {before after : List (TreePath × Word)}
    {part : TreePath × Word} (hparts : word.parts = before ++ part :: after)
    (hcomposite : part.2.isComposite = false) (hge : part.2.text.data ≤ offset)
    (hlt : offset < ends part.2) : word.reached pos = true ↔ after = [] := by
  have horder := h.parts.order
  rw [hparts, List.pairwise_append, List.pairwise_cons] at horder
  obtain ⟨-, ⟨hafter, -⟩, hbefore⟩ := horder
  rw [h.reached_iff hpos, hparts]
  constructor
  · intro hall
    cases after with
    | nil => rfl
    | cons next after =>
      have hnext := (hafter next List.mem_cons_self).2 hcomposite
      have hle := hall next (by simp)
      omega
  · rintro rfl part' hpart'
    rcases List.mem_append.mp hpart' with hmem | hmem
    · have hle := (hbefore part' hmem part List.mem_cons_self).1
      omega
    · rw [List.mem_singleton.mp hmem]
      exact hge

/-- The words before one are reached, and the words after it are not. -/
theorem Script.Ordered.lastReached {script : Script} (h : script.Ordered ends file)
    (hpos : offsetToLineByte file offset = .ok pos) {before after : List Argument} {arg : Argument}
    (hargs : script.arguments = before ++ arg :: after) (hge : arg.word.text.data ≤ offset)
    (hlt : offset < ends arg.word) :
    script.lastReached pos = if arg.word.reached pos then some arg else before.getLast? := by
  have horder := h.order
  have hword : ∀ a ∈ before ++ arg :: after, a.word.Ordered ends file :=
    fun a ha => h.word a (hargs ▸ ha)
  unfold InSequence at horder
  rw [hargs, List.pairwise_map, List.pairwise_append, List.pairwise_cons] at horder
  obtain ⟨-, ⟨hafter, -⟩, hbefore⟩ := horder
  have hreached : ∀ a ∈ before, a.word.reached pos = true := by
    intro a ha
    have hle := hbefore a ha arg List.mem_cons_self
    exact (hword a (List.mem_append_left _ ha)).reached_of_finish_le hpos (by omega)
  have hpast : after.takeWhile (fun a => a.word.reached pos) = [] := by
    cases after with
    | nil => rfl
    | cons next after =>
      have hle := hafter next List.mem_cons_self
      have hnot : next.word.reached pos = false :=
        (hword next (by simp)).not_reached_of_lt hpos (by omega)
      exact List.takeWhile_cons_of_neg (by simp [hnot])
  rw [Script.lastReached, hargs, List.takeWhile_append_of_pos hreached]
  rw [List.takeWhile_cons]
  cases arg.word.reached pos with
  | true =>
    rw [if_pos rfl, if_pos rfl, hpast, List.getLast?_append]
    rfl
  | false => rw [if_neg Bool.false_ne_true, if_neg Bool.false_ne_true, List.append_nil]

/-! ## Places of arguments -/

/-- An argument comes before another one. -/
def Argument.Before (a b : Argument) : Prop := a.call < b.call ∨ a.call = b.call ∧ a.argument < b.argument

theorem argumentsFrom_before (i k : Nat) (words : List Word) :
    (argumentsFrom i k words).Pairwise Argument.Before := by
  induction words generalizing k with
  | nil => exact .nil
  | cons word words ih =>
    refine List.pairwise_cons.mpr ⟨fun arg harg => ?_, ih (k + 1)⟩
    obtain ⟨hcall, n, hargument, -⟩ := mem_argumentsFrom harg
    exact Or.inr ⟨hcall.symm, by dsimp only; omega⟩

theorem callsArguments_before (i : Nat) (commands : List Call) :
    (callsArguments i commands).Pairwise Argument.Before := by
  induction commands generalizing i with
  | nil => exact .nil
  | cons call commands ih =>
    refine List.pairwise_append.mpr ⟨argumentsFrom_before i 0 call.words, ih (i + 1), ?_⟩
    intro a ha b hb
    obtain ⟨hcall, -⟩ := mem_argumentsFrom ha
    obtain ⟨n, -, hcall', -⟩ := mem_callsArguments hb
    exact Or.inl (by omega)

/-- A place in one argument is no place in another one. -/
theorem Argument.Before.place_ne {a b : Argument} (h : a.Before b) (p q : TreePath) :
    path ++ a.path ++ p ≠ path ++ b.path ++ q := by
  intro heq
  rw [List.append_assoc, List.append_assoc, List.append_cancel_left_eq] at heq
  simp only [Argument.path, List.cons_append, List.cons.injEq, TreeStep.call.injEq,
    TreeStep.word.injEq] at heq
  obtain ⟨hcall, hargument, -⟩ := heq
  rcases h with hlt | ⟨-, hlt⟩
  · omega
  · omega

/-- The search through the parts of a word stays in it. -/
theorem foldlM_within {parts : List (TreePath × Word)} (hresult : Within path result.word)
    (hcomposite : ∀ part ∈ parts, part.2.isComposite = false)
    (h : parts.foldlM (visit pos path) result = .ok cursor) : Within path cursor.word := by
  refine foldlM_visit_keeps (I := fun r => Within path r.word) (fun part hpart r r' _ hvisit => ?_)
    hresult h
  rcases visit_terminal (hcomposite part hpart) hvisit with ⟨-, rfl⟩ | ⟨inner, -, -, hinner⟩
  · exact Within.below _
  · obtain ⟨-, hword⟩ := locateInScript_within inner _ r' hinner
    rw [List.append_assoc] at hword
    exact hword.of_append

/-! ## Leaves -/

/-- The words of a script are in order in the word that holds it. -/
theorem Word.Ordered.script {word : Word} (h : word.Ordered ends file) (htype : word.type = .SCRIPT)
    {inner : Script} (hdata : word.data = .script inner) : inner.Ordered ends file ∧
      ∀ arg ∈ inner.arguments, word.text.data ≤ arg.word.text.data ∧ ends arg.word ≤ ends word := by
  have hinside : word.inside = inner.arguments.map Argument.word := by
    rw [Word.inside, htype, hdata]
  have hmem : ∀ arg ∈ inner.arguments, arg.word ∈ word.inside := by
    intro arg harg
    rw [hinside]
    exact List.mem_map_of_mem harg
  refine ⟨⟨fun arg harg => h.inner (hmem arg harg), ?_⟩, fun arg harg => h.nested (hmem arg harg)⟩
  rw [← hinside]
  exact h.sourceOrder

/-- A leaf lies in the span of a word of the script. -/
theorem Script.Leaf.span {script : Script} {place : TreePath} {leaf : Word} {trailing : Bool}
    (h : script.Leaf place leaf trailing) (horder : script.Ordered ends file) :
    ∃ arg ∈ script.arguments, arg.word.text.data ≤ leaf.text.data ∧ ends leaf ≤ ends arg.word := by
  induction h with
  | @here _ arg before after place leaf harg hparts _ =>
    obtain ⟨-, hge, hle⟩ := (horder.word arg harg).parts.part (place, leaf) (by simp [hparts])
    exact ⟨arg, harg, hge, hle⟩
  | @nested _ inner arg before after place _ word leaf _ harg hparts htype hdata _ ih =>
    obtain ⟨hin, hge, hle⟩ := (horder.word arg harg).parts.part (place, word) (by simp [hparts])
    obtain ⟨hinner, hwords⟩ := Word.Ordered.script hin htype hdata
    obtain ⟨arg', harg', hge', hle'⟩ := ih hinner
    obtain ⟨hge'', hle''⟩ := hwords arg' harg'
    exact ⟨arg, harg, hge.trans (hge''.trans hge'), hle'.trans (hle''.trans hle)⟩

theorem Script.Leaf.nodeAt {script : Script} {place : TreePath} {leaf : Word} {trailing : Bool}
    (h : script.Leaf place leaf trailing) :
    TclAnalyzer.nodeAt (.script script) place = some (.word leaf) := by
  induction h with
  | @here _ arg before after place leaf harg hparts _ =>
    rw [nodeAt_append, (nodeAt_argument harg).2]
    exact (Word.parts_path (by simp [hparts])).2
  | @nested _ inner arg before after place _ word leaf _ harg hparts _ hdata _ ih =>
    have hpart : (place, word) ∈ arg.word.parts := by simp [hparts]
    have hword := (Word.parts_path hpart).2
    rw [List.append_assoc, nodeAt_append, (nodeAt_argument harg).2, Option.bind_some, nodeAt_append,
      hword, Option.bind_some, TclAnalyzer.nodeAt, childAt, hdata]
    exact ih

/-- At a position in a terminal of an argument the search ends with this part, or it ends before the
argument when another part follows. -/
theorem locateInScript_part {script : Script} (horder : script.Ordered ends file)
    (hpos : offsetToLineByte file offset = .ok pos) {arg : Argument} (harg : arg ∈ script.arguments)
    {before after : List (TreePath × Word)} {part : TreePath × Word}
    (hparts : arg.word.parts = before ++ part :: after) (hcomposite : part.2.isComposite = false)
    (hge : part.2.text.data ≤ offset) (hlt : offset < ends part.2)
    (h : locateInScript pos path script = .ok cursor) :
    (after = [] → ∃ r, visit pos (path ++ arg.path) r part = .ok cursor) ∧
    (after ≠ [] → ∀ place, cursor.word ≠ some (path ++ arg.path ++ place)) := by
  obtain ⟨hin, hstart, hfinish⟩ := (horder.word arg harg).parts.part part (by simp [hparts])
  obtain ⟨args, later, hargs⟩ := List.append_of_mem harg
  have hlast := horder.lastReached hpos hargs (hstart.trans hge) (by omega)
  have hreached := (horder.word arg harg).reached_iff_last hpos hparts hcomposite hge hlt
  have hended := locateInScript_ended h
  constructor
  · intro hafter
    rw [if_pos (hreached.mpr hafter)] at hlast
    rw [hlast] at hended
    dsimp only at hended
    rw [hparts, hafter, List.foldlM_append] at hended
    obtain ⟨r, -, hended⟩ := bind_eq_ok.mp hended
    obtain ⟨r', hvisit, hended⟩ := bind_eq_ok.mp hended
    cases hended
    exact ⟨r, hvisit⟩
  · intro hafter place hword
    rw [if_neg fun hcontra => hafter (hreached.mp hcontra)] at hlast
    rw [hlast] at hended
    cases hearlier : args.getLast? with
    | none =>
      rw [hearlier] at hended
      rw [hended] at hword
      cases hword
    | some earlier =>
      rw [hearlier] at hended
      dsimp only at hended
      rw [foldlM_terminals] at hended
      have hmem : earlier ∈ args := List.mem_of_getLast? hearlier
      obtain ⟨rest, hplace⟩ := foldlM_within Within.none
        (fun p hp => (Word.mem_terminals hp).2) hended _ hword
      have hbefore : (args ++ arg :: later).Pairwise Argument.Before :=
        hargs ▸ callsArguments_before 0 script.commands
      have hbefore := (List.pairwise_append.mp hbefore).2.2 earlier hmem arg List.mem_cons_self
      exact hbefore.place_ne rest place hplace.symm

/-- The search finds a leaf around the position exactly when no component follows it. -/
theorem Script.Leaf.found_iff {script : Script} {place : TreePath} {leaf : Word} {trailing : Bool}
    (hleaf : script.Leaf place leaf trailing) (hpos : offsetToLineByte file offset = .ok pos)
    (hge : leaf.text.data ≤ offset) (hlt : offset < ends leaf) :
    ∀ {path : TreePath} {cursor : PlaceCursor}, script.Ordered ends file →
      locateInScript pos path script = .ok cursor →
      (cursor.word = some (path ++ place) ↔ trailing = true) := by
  induction hleaf with
  | @here _ arg before after place leaf harg hparts htype =>
    intro path cursor horder h
    have hcomposite : leaf.isComposite = false := by
      rcases htype with htype | htype | htype
      · simp [Word.isComposite, htype]
      · simp [Word.isComposite, htype]
      · simp [Word.isComposite, htype]
    obtain ⟨hlast, hnot⟩ := locateInScript_part horder hpos harg hparts hcomposite hge hlt h
    cases hafter : after with
    | nil =>
      obtain ⟨r, hvisit⟩ := hlast hafter
      refine iff_of_true ?_ rfl
      rcases visit_terminal hcomposite hvisit with ⟨-, rfl⟩ | ⟨inner, hscript, -, -⟩
      · rw [← List.append_assoc]
      · rw [hscript] at htype
        simp at htype
    | cons next after' =>
      refine iff_of_false ?_ (by simp)
      rw [← List.append_assoc]
      exact hnot (by simp [hafter]) place
  | @nested _ inner arg before after place innerPlace word leaf trailing harg hparts htype hdata hinner
      ih =>
    intro path cursor horder h
    obtain ⟨hin, -, -⟩ := (horder.word arg harg).parts.part (place, word) (by simp [hparts])
    obtain ⟨hinnerOrder, hwords⟩ := Word.Ordered.script hin htype hdata
    obtain ⟨arg', harg', hge', hle'⟩ := hinner.span hinnerOrder
    obtain ⟨hge'', hle''⟩ := hwords arg' harg'
    have hcomposite : word.isComposite = false := by simp [Word.isComposite, htype]
    obtain ⟨hlast, hnot⟩ := locateInScript_part horder hpos harg hparts hcomposite
      (hge''.trans (hge'.trans hge)) (hlt.trans_le (hle'.trans hle'')) h
    cases hafter : after with
    | nil =>
      obtain ⟨r, hvisit⟩ := hlast hafter
      rcases visit_terminal hcomposite hvisit with ⟨hcontra, -⟩ | ⟨inner', -, hdata', hsearch⟩
      · exact absurd htype hcontra
      · cases hdata.symm.trans hdata'
        have hfound := ih hge hlt hinnerOrder hsearch
        rw [List.isEmpty_nil, Bool.true_and, ← hfound]
        simp
    | cons next after' =>
      refine iff_of_false ?_ (by simp)
      rw [← List.append_assoc, ← List.append_assoc, List.append_assoc (path ++ arg.path)]
      exact hnot (by simp [hafter]) _

/-! ## The leaf under the cursor -/

theorem Word.InOrder.ordered {word : Word} (h : word.InOrder file) :
    word.Ordered Word.finish file := by
  induction h with
  | mk hlocated _ hnested horder ih =>
    exact .mk hlocated (Nat.le_add_right _ _) ih hnested horder

theorem Script.InOrder.ordered {script : Script} (h : script.InOrder file) :
    script.Ordered Word.finish file :=
  ⟨fun arg harg => (h.word arg harg).ordered, h.order⟩

/-- `FindPositionInScript` finds the leaf that a position lies in exactly when no component follows it
in the words around it. -/
theorem findPositionInScript_leaf_iff {script : Script} {place : TreePath} {leaf : Word}
    {trailing : Bool} (htyped : script.Typed) (horder : script.InOrder file)
    (hleaf : script.Leaf place leaf trailing) (hge : leaf.text.data ≤ offset)
    (hlt : offset < leaf.finish) (hpos : offsetToLineByte file offset = .ok pos) :
    ∃ cursor, locateInScript pos [] script = .ok cursor ∧
      findPositionInScript pos script = .ok (cursor.cursor script) ∧
      script.wordAt place = some leaf ∧ (cursor.word = some place ↔ trailing = true) := by
  obtain ⟨found, hfound⟩ := findPositionInScript_ok pos script htyped
  rw [findPositionInScript_eq_locate] at hfound ⊢
  cases hlocate : locateInScript pos [] script with
  | error fault =>
    rw [hlocate] at hfound
    cases hfound
  | ok cursor =>
    exact ⟨cursor, rfl, rfl, wordAt_of_nodeAt hleaf.nodeAt,
      hleaf.found_iff hpos hge hlt horder.ordered hlocate⟩

/-! ## A leaf before another component -/

theorem textWord_inOrder {offset : Nat} {text : String}
    (h : makeSourceLocation scriptThenText offset = .ok (lineLocation offset)) :
    (textWord offset text).InOrder scriptThenText :=
  .mk h (fun _ hinner => nomatch hinner) (fun _ hinner => nomatch hinner) .nil

theorem scriptThenTextWord_inOrder : scriptThenTextWord.InOrder scriptThenText := by
  have hg : (textWord 3 "g").InOrder scriptThenText := textWord_inOrder rfl
  have hy : (textWord 5 ".y").InOrder scriptThenText := textWord_inOrder rfl
  refine .mk rfl ?_ ?_ ?_
  · intro inner hinner
    rcases List.mem_pair.mp hinner with rfl | rfl
    · refine .mk rfl ?_ ?_ ?_
      · intro inner hinner
        rw [List.mem_singleton.mp hinner]
        exact hg
      · intro inner hinner
        rw [List.mem_singleton.mp hinner]
        decide +kernel
      · exact List.pairwise_singleton _ _
    · exact hy
  · intro inner hinner
    rcases List.mem_pair.mp hinner with rfl | rfl
    · decide +kernel
    · decide +kernel
  · refine List.pairwise_pair.mpr ?_
    decide +kernel

theorem scriptThenTextTree_inOrder : scriptThenTextTree.InOrder scriptThenText := by
  constructor
  · intro arg harg
    rcases List.mem_pair.mp harg with rfl | rfl
    · exact textWord_inOrder rfl
    · exact scriptThenTextWord_inOrder
  · refine List.pairwise_pair.mpr ?_
    decide +kernel

/-- The place of the `g`. -/
def scriptThenTextPlace : TreePath :=
  [.call 0, .word 1, .component 0, .script, .call 0, .word 0]

theorem scriptThenText_leaf :
    scriptThenTextTree.Leaf scriptThenTextPlace (textWord 3 "g") false := by
  have harg : (⟨0, 0, textWord 3 "g"⟩ : Argument) ∈ scriptThenTextScript.arguments :=
    List.mem_cons_self
  have hparts : (textWord 3 "g").parts = [] ++ ([], textWord 3 "g") :: [] := rfl
  have hinner : scriptThenTextScript.Leaf [.call 0, .word 0] (textWord 3 "g") true :=
    .here harg hparts (.inl rfl)
  have harg' : (⟨0, 1, scriptThenTextWord⟩ : Argument) ∈ scriptThenTextTree.arguments :=
    List.mem_cons_of_mem _ List.mem_cons_self
  have hparts' : scriptThenTextWord.parts = [([], scriptThenTextWord)] ++
      ([.component 0], scriptWordG) :: [([.component 1], textWord 5 ".y")] := rfl
  exact .nested harg' hparts' rfl rfl hinner

/-- At the `g` the cursor is at the word `f`. -/
theorem scriptThenText_not_found : parseScript scriptThenTextInterp
      { file := scriptThenText, curNs := [] } (scriptThenText.view 0 7) = .ok scriptThenTextTree ∧
    scriptThenTextTree.InOrder scriptThenText ∧
    scriptThenTextTree.Leaf scriptThenTextPlace (textWord 3 "g") false ∧
    offsetToLineByte scriptThenText 3 = .ok { line := 0, column := 3 } ∧
    ∃ cursor, findPositionInScript { line := 0, column := 3 } scriptThenTextTree = .ok cursor ∧
      cursor.word = some (textWord 0 "f") ∧ textWord 0 "f" ≠ textWord 3 "g" := by
  refine ⟨scriptThenText_parsed, scriptThenTextTree_inOrder, scriptThenText_leaf, rfl, _, rfl, rfl, ?_⟩
  intro heq
  have htext := congrArg (fun word : Word => word.text.data) heq
  cases htext

/-- The `.y` behind it is found. -/
theorem scriptThenText_leaf_iff :
    (∃ cursor, locateInScript { line := 0, column := 3 } [] scriptThenTextTree = .ok cursor ∧
      findPositionInScript { line := 0, column := 3 } scriptThenTextTree =
        .ok (cursor.cursor scriptThenTextTree) ∧
      scriptThenTextTree.wordAt scriptThenTextPlace = some (textWord 3 "g") ∧
      (cursor.word = some scriptThenTextPlace ↔ false = true)) ∧
    ∃ cursor, locateInScript { line := 0, column := 6 } [] scriptThenTextTree = .ok cursor ∧
      cursor.word = some [.call 0, .word 1, .component 1] := by
  have htyped := parseScript_typed scriptThenText_parsed
  constructor
  · exact findPositionInScript_leaf_iff htyped scriptThenTextTree_inOrder scriptThenText_leaf
      (show 3 ≤ 3 by decide) (show 3 < 3 + 1 by decide) rfl
  · have harg : (⟨0, 1, scriptThenTextWord⟩ : Argument) ∈ scriptThenTextTree.arguments :=
      List.mem_cons_of_mem _ List.mem_cons_self
    have hparts : scriptThenTextWord.parts =
        [([], scriptThenTextWord), ([.component 0], scriptWordG)] ++
          ([.component 1], textWord 5 ".y") :: [] := rfl
    have hleaf : scriptThenTextTree.Leaf [.call 0, .word 1, .component 1] (textWord 5 ".y") true :=
      .here harg hparts (.inl rfl)
    obtain ⟨cursor, hlocate, -, -, hfound⟩ := findPositionInScript_leaf_iff htyped
      scriptThenTextTree_inOrder hleaf (show 5 ≤ 6 by decide) (show 6 < 5 + 2 by decide) rfl
    exact ⟨cursor, hlocate, hfound.mpr rfl⟩

end TclAnalyzer
