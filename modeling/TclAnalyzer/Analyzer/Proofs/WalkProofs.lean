import TclAnalyzer.Analyzer.Ways
import TclAnalyzer.Analyzer.Samples
import TclAnalyzer.Analyzer.Proofs.BuildProofs
import TclAnalyzer.Analyzer.Proofs.SpansProofs

/-!
# The walks over a parse tree

`ScanScript` reaches the calls that `IndexScript` reaches outside the indices of arrays, and the search
for a position ends at the command words of those of them that are in the last components only.
-/

namespace TclAnalyzer

variable {σ : Type} {p : Pass σ} {scope : σ} {node : Node} {pos rest : Pos} {k : Nat} {site : Site σ}

/-! ## Positions below a part -/

theorem Reaches.rest_cons {i : Nat} (h : Reaches p scope (pos ++ [i]) node site)
    (hpos : site.pos = pos ++ rest) : ∃ rest', rest = i :: rest' ∧ site.pos = pos ++ [i] ++ rest' := by
  obtain ⟨rest', hrest⟩ := h.prefix
  refine ⟨rest', ?_, hrest.symm⟩
  rw [← hrest, List.append_assoc, List.append_cancel_left_eq] at hpos
  exact hpos.symm

/-- There is a call on the way from a script. -/
theorem Reaches.rest_ne_nil {script : Script} (h : Reaches p scope pos (.script script) site)
    (hpos : site.pos = pos ++ rest) : ∃ i rest', rest = i :: rest' := by
  cases h with
  | command _ hcall =>
    obtain ⟨rest', rfl, -⟩ := hcall.rest_cons hpos
    exact ⟨_, rest', rfl⟩

theorem Node.pathTo_cons {child : Node} (h : node.child k = some child) :
    node.pathTo (k :: rest) = node.path k ++ child.pathTo rest := by
  rw [Node.pathTo, h, Option.elim_some]

theorem Node.passesTo_cons {check : Word → Nat → Bool} {child : Node}
    (h : node.child k = some child) :
    node.passesTo check (k :: rest) = (node.passes check k && child.passesTo check rest) := by
  rw [Node.passesTo, h, Option.elim_some]

theorem Script.child_eq {script : Script} {call : Call} (h : script.commands[k]? = some call) :
    (Node.script script).child k = some (.call call) := by
  rw [Node.child, h, Option.map_some]

theorem Call.child_eq {call : Call} {word : Word} (h : call.words[k]? = some word) :
    (Node.call call).child k = some (.word word) := by
  rw [Node.child, h, Option.map_some]

theorem Word.child_script {word : Word} {script : Script} (h : word.data = .script script) :
    (Node.word word).child k = (Node.script script).child k := by
  rw [Node.child, Node.child, h]

theorem Word.passesTo_script {check : Word → Nat → Bool} {word : Word} {script : Script}
    (h : word.data = .script script) : (Node.word word).passesTo check (k :: rest) =
      (check word k && (Node.script script).passesTo check (k :: rest)) := by
  rw [Node.passesTo, Node.passesTo, Word.child_script h]
  rfl

theorem Word.path_script {word : Word} {script : Script} (h : word.data = .script script) :
    (Node.word word).path k = [.script, .call k] := by
  rw [Node.path, h]

theorem Word.path_words {word : Word} {words : List Word} (h : word.data = .words words) :
    (Node.word word).path k = [.component k] := by
  rw [Node.path, h]

theorem Word.child_component {word inner : Word} (h : word.data.components[k]? = some inner) :
    (Node.word word).child k = some (.word inner) := by
  rw [Node.child]
  cases hdata : word.data with
  | nothing | script =>
    rw [hdata] at h
    cases h
  | arrayAccess | words =>
    rw [hdata] at h
    dsimp only
    rw [h, Option.map_some]

/-! ## `ScanScript` and `IndexScript` -/

theorem scanPass_descend {path path' : Path} {type : WordType}
    (h : scanPass.descend path type = some path') : type ≠ .ARRAY_ACCESS := by
  rintro rfl
  cases h

/-- `ScanScript` goes into no index of an array. -/
theorem Reaches.outsideArrays {path : Path} {site : Site Path}
    (h : Reaches scanPass path pos node site) :
    ∀ {rest : Pos}, site.pos = pos ++ rest → node.passesTo noArray rest = true := by
  induction h with
  | @here _ pos =>
    intro rest hpos
    obtain rfl : rest = [] := List.append_right_eq_self.mp hpos.symm
    rfl
  | command hcall hreach ih =>
    intro rest hpos
    obtain ⟨rest', rfl, hpos'⟩ := hreach.rest_cons hpos
    rw [Node.passesTo_cons (Script.child_eq hcall)]
    exact ih hpos'
  | word hword _ hreach ih =>
    intro rest hpos
    obtain ⟨rest', rfl, hpos'⟩ := hreach.rest_cons hpos
    rw [Node.passesTo_cons (Call.child_eq hword)]
    exact ih hpos'
  | nested hdata hdescend hreach ih =>
    intro rest hpos
    obtain ⟨i, rest', rfl⟩ := hreach.rest_ne_nil hpos
    have htype := scanPass_descend hdescend
    rw [Word.passesTo_script hdata, ih hpos]
    simp [noArray, htype]
  | component hinner hdescend hreach ih =>
    intro rest hpos
    obtain ⟨rest', rfl, hpos'⟩ := hreach.rest_cons hpos
    have htype := scanPass_descend hdescend
    rw [Node.passesTo_cons (Word.child_component hinner), ih hpos']
    simp [Node.passes, noArray, htype]

/-- What `IndexScript` goes into `ScanScript` goes into as well, but for the indices of arrays. -/
theorem indexPass_enter_scanPass {path path' : Path} {call : Call}
    (h : indexPass.enter path call k = some path') (scope : Path) :
    ∃ scope', scanPass.enter scope call k = some scope' := by
  simp only [indexPass, scanPass] at h ⊢
  cases htype : call.type <;> simp_all

theorem indexPass_descend_scanPass {path path' : Path} {type : WordType}
    (h : indexPass.descend path type = some path') (hnot : type ≠ .ARRAY_ACCESS) (scope : Path) :
    ∃ scope', scanPass.descend scope type = some scope' := by
  cases type <;> simp_all [indexPass, scanPass]

theorem Reaches.scanned {path : Path} {site : Site Path} (h : Reaches indexPass path pos node site) :
    ∀ {rest : Pos}, site.pos = pos ++ rest → node.passesTo noArray rest = true →
      ∀ scope, ∃ site', Reaches scanPass scope pos node site' ∧ site'.pos = site.pos := by
  induction h with
  | here =>
    intro rest _ _ scope
    exact ⟨_, .here, rfl⟩
  | command hcall hreach ih =>
    intro rest hpos hpasses scope
    obtain ⟨rest', rfl, hpos'⟩ := hreach.rest_cons hpos
    rw [Node.passesTo_cons (Script.child_eq hcall)] at hpasses
    obtain ⟨site', hscan, hat⟩ := ih hpos' hpasses scope
    exact ⟨site', .command hcall hscan, hat⟩
  | word hword henter hreach ih =>
    intro rest hpos hpasses scope
    obtain ⟨rest', rfl, hpos'⟩ := hreach.rest_cons hpos
    rw [Node.passesTo_cons (Call.child_eq hword)] at hpasses
    obtain ⟨scope', henter'⟩ := indexPass_enter_scanPass henter scope
    obtain ⟨site', hscan, hat⟩ := ih hpos' hpasses scope'
    exact ⟨site', .word hword henter' hscan, hat⟩
  | nested hdata hdescend hreach ih =>
    intro rest hpos hpasses scope
    obtain ⟨i, rest', rfl⟩ := hreach.rest_ne_nil hpos
    rw [Word.passesTo_script hdata, Bool.and_eq_true] at hpasses
    obtain ⟨hnot, hpasses⟩ := hpasses
    obtain ⟨scope', hdescend'⟩ :=
      indexPass_descend_scanPass hdescend (of_decide_eq_true hnot) scope
    obtain ⟨site', hscan, hat⟩ := ih hpos hpasses scope'
    exact ⟨site', .nested hdata hdescend' hscan, hat⟩
  | component hinner hdescend hreach ih =>
    intro rest hpos hpasses scope
    obtain ⟨rest', rfl, hpos'⟩ := hreach.rest_cons hpos
    rw [Node.passesTo_cons (Word.child_component hinner), Bool.and_eq_true] at hpasses
    obtain ⟨hnot, hpasses⟩ := hpasses
    obtain ⟨scope', hdescend'⟩ :=
      indexPass_descend_scanPass hdescend (of_decide_eq_true hnot) scope
    obtain ⟨site', hscan, hat⟩ := ih hpos' hpasses scope'
    exact ⟨site', .component hinner hdescend' hscan, hat⟩

/-! ## The leaf at a command word -/

/-- The words of the part are typed. -/
def Node.Typed : Node → Prop
  | .script s => s.Typed
  | .call c => ∀ word ∈ c.words, word.Typed
  | .word w => w.Typed

/-- The leaf at the end of the path, which goes on from the part. In a word it is in one of the scripts
that are parts of the word. -/
def Node.HasLeaf (leaf : Word) : Node → TreePath → Bool → Prop
  | .script s, place, trailing => s.Leaf place leaf trailing
  | .call c, place, trailing =>
    ∀ s : Script, ∀ i : Nat, s.commands[i]? = some c → s.Leaf (.call i :: place) leaf trailing
  | .word w, place, trailing => ∃ before after partPlace part inner innerPlace innerTrailing,
    w.parts = before ++ (partPlace, part) :: after ∧ part.type = .SCRIPT ∧
    part.data = .script inner ∧ inner.Leaf innerPlace leaf innerTrailing ∧
    place = partPlace ++ .script :: innerPlace ∧ trailing = (after.isEmpty && innerTrailing)

theorem mem_argumentsFrom_of_getElem? {words : List Word} {word : Word} {n : Nat} (i k : Nat)
    (h : words[n]? = some word) : (⟨i, k + n, word⟩ : Argument) ∈ argumentsFrom i k words := by
  induction words generalizing k n with
  | nil => cases h
  | cons first words ih =>
    rw [argumentsFrom, List.mem_cons]
    cases n with
    | zero =>
      cases h
      exact .inl rfl
    | succ n =>
      have hmem := ih (k + 1) h
      rw [Nat.add_assoc, Nat.add_comm 1 n] at hmem
      exact .inr hmem

/-- The words of a call are arguments of the script. -/
theorem mem_callsArguments_of_getElem? {commands : List Call} {call : Call} {n k : Nat} {word : Word}
    (i : Nat) (hcall : commands[n]? = some call) (hword : call.words[k]? = some word) :
    (⟨i + n, k, word⟩ : Argument) ∈ callsArguments i commands := by
  induction commands generalizing i n with
  | nil => cases hcall
  | cons first commands ih =>
    rw [callsArguments, List.mem_append]
    cases n with
    | zero =>
      cases hcall
      have hmem := mem_argumentsFrom_of_getElem? i 0 hword
      rw [Nat.zero_add] at hmem
      exact .inl hmem
    | succ n =>
      have hmem := ih (i + 1) hcall
      rw [Nat.add_assoc, Nat.add_comm 1 n] at hmem
      exact .inr hmem

theorem Script.mem_arguments_of_getElem? {script : Script} {call : Call} {i k : Nat} {word : Word}
    (hcall : script.commands[i]? = some call) (hword : call.words[k]? = some word) :
    (⟨i, k, word⟩ : Argument) ∈ script.arguments := by
  have hmem := mem_callsArguments_of_getElem? 0 hcall hword
  rwa [Nat.zero_add] at hmem

theorem Word.parts_of_text {word : Word} (h : word.type = .TEXT) : word.parts = [([], word)] := by
  obtain ⟨type, location, text, data⟩ := word
  obtain rfl : type = .TEXT := h
  cases data <;> rfl

/-- The parts of a component among those of the word. -/
theorem componentParts_split {words : List Word} {word : Word} {k : Nat} (n : Nat)
    (h : words[k]? = some word) {before after : List (TreePath × Word)} {part : TreePath × Word}
    (hparts : word.parts = before ++ part :: after) : ∃ before' after',
      componentParts n words = before' ++ (.component (n + k) :: part.1, part.2) :: after' ∧
      after'.isEmpty = (after.isEmpty && decide (k + 1 = words.length)) := by
  induction words generalizing n k with
  | nil => cases h
  | cons first words ih =>
    rw [componentParts]
    cases k with
    | zero =>
      cases h
      rw [hparts, List.map_append, List.map_cons, List.append_assoc, List.cons_append]
      refine ⟨_, _, rfl, ?_⟩
      cases words with
      | nil => simp [componentParts]
      | cons next words =>
        have hne : componentParts (n + 1) (next :: words) ≠ [] := by
          obtain ⟨type, location, text, data⟩ := next
          rw [componentParts, Word.parts]
          simp
        simp [hne]
    | succ k =>
      obtain ⟨before', after', hsplit, hempty⟩ := ih (n + 1) h
      rw [hsplit, ← List.append_assoc]
      refine ⟨_, after', by rw [Nat.add_assoc, Nat.add_comm 1 k], ?_⟩
      rw [hempty]
      simp

theorem Word.parts_eq (word : Word) : word.parts = ([], word) :: dataParts word.type word.data := by
  obtain ⟨type, location, text, data⟩ := word
  rw [Word.parts]

theorem indexPass_descend {path path' : Path} {type : WordType}
    (h : indexPass.descend path type = some path') (hnot : type ≠ .ARRAY_ACCESS) :
    type = .SCRIPT ∨ type = .TOKEN_LIST ∨ type = .EXPAND := by
  cases type <;> simp_all [indexPass]

theorem dataParts_words {type : WordType} {words : List Word}
    (h : type = .TOKEN_LIST ∨ type = .EXPAND) :
    dataParts type (.words words) = componentParts 0 words := by
  rcases h with rfl | rfl <;> rfl

theorem Word.Typed.type_of_script {word : Word} {script : Script} (h : word.Typed)
    (hdata : word.data = .script script)
    (htype : word.type = .SCRIPT ∨ word.type = .TOKEN_LIST ∨ word.type = .EXPAND) :
    word.type = .SCRIPT := by
  have hfits := h.dataFits
  rcases htype with htype | htype | htype
  · exact htype
  · simp [Word.DataFits, htype, hdata] at hfits
  · simp [Word.DataFits, htype, hdata] at hfits

theorem Word.Typed.words_of_component {word inner : Word} (h : word.Typed)
    (hinner : inner ∈ word.data.components)
    (htype : word.type = .SCRIPT ∨ word.type = .TOKEN_LIST ∨ word.type = .EXPAND) :
    ∃ words, word.data = .words words ∧ (word.type = .TOKEN_LIST ∨ word.type = .EXPAND) := by
  have hfits := h.dataFits
  rcases htype with htype | htype
  · simp only [Word.DataFits, htype] at hfits
    obtain ⟨script, hdata⟩ := hfits
    rw [hdata] at hinner
    cases hinner
  · rcases htype with htype | htype
    · simp only [Word.DataFits, htype] at hfits
      obtain ⟨words, hdata⟩ := hfits
      exact ⟨words, hdata, .inl htype⟩
    · simp only [Word.DataFits, htype] at hfits
      obtain ⟨words, hdata⟩ := hfits
      exact ⟨words, hdata, .inr htype⟩

/-- A leaf in a word of a call. -/
theorem Node.HasLeaf.call {leaf word : Word} {call : Call} {k : Nat} {place : TreePath}
    {trailing : Bool} (hword : call.words[k]? = some word)
    (h : (Node.word word).HasLeaf leaf place trailing) :
    (Node.call call).HasLeaf leaf (.word k :: place) trailing := by
  intro script i hcall
  obtain ⟨before, after, partPlace, part, inner, innerPlace, innerTrailing, hparts, htype, hdata,
    hinner, rfl, rfl⟩ := h
  have harg := Script.mem_arguments_of_getElem? hcall hword
  have hnested := Script.Leaf.nested harg hparts htype hdata hinner
  rw [List.append_assoc] at hnested
  exact hnested

/-- A leaf in the script of a word. -/
theorem Node.HasLeaf.script {leaf word : Word} {script : Script} {place : TreePath}
    {trailing : Bool} (hdata : word.data = .script script) (htype : word.type = .SCRIPT)
    (h : (Node.script script).HasLeaf leaf place trailing) :
    (Node.word word).HasLeaf leaf (.script :: place) trailing := by
  have hparts : word.parts = [] ++ ([], word) :: [] := by
    rw [Word.parts_eq, hdata]
    rfl
  exact ⟨[], [], [], word, script, place, trailing, hparts, htype, hdata, h, rfl, rfl⟩

/-- A leaf in a component of a word. -/
theorem Node.HasLeaf.component {leaf word inner : Word} {words : List Word} {k : Nat}
    {place : TreePath} {trailing : Bool} (hdata : word.data = .words words)
    (htype : word.type = .TOKEN_LIST ∨ word.type = .EXPAND) (hinner : words[k]? = some inner)
    (h : (Node.word inner).HasLeaf leaf place trailing) :
    (Node.word word).HasLeaf leaf (.component k :: place)
      (lastComponent word k && trailing) := by
  obtain ⟨before, after, partPlace, part, script, innerPlace, innerTrailing, hparts, hparttype,
    hpartdata, hscript, rfl, rfl⟩ := h
  obtain ⟨before', after', hsplit, hempty⟩ := componentParts_split 0 hinner hparts
  have hwordparts : word.parts =
      (([], word) :: before') ++ (.component k :: partPlace, part) :: after' := by
    rw [Word.parts_eq, hdata, dataParts_words htype, hsplit, Nat.zero_add]
    rfl
  have hlast : lastComponent word k = decide (k + 1 = words.length) := by
    have hcomposite : word.isComposite = true := decide_eq_true htype
    rw [lastComponent, hcomposite, hdata]
    rfl
  refine ⟨([], word) :: before', after', .component k :: partPlace, part, script, innerPlace,
    innerTrailing, hwordparts, hparttype, hpartdata, hscript, rfl, ?_⟩
  rw [hempty, hlast, ← Bool.and_assoc, Bool.and_comm after.isEmpty]

/-- The text at the command word of a call outside arrays is a leaf, and components follow it where the
way takes one that is not the last. -/
theorem Reaches.hasLeaf {path : Path} {site : Site Path} (h : Reaches indexPass path pos node site)
    {leaf : Word} (hleaf : site.call.words[0]? = some leaf) (htext : leaf.type = .TEXT) :
    ∀ {rest : Pos}, node.Typed → site.pos = pos ++ rest → node.passesTo noArray rest = true →
      node.HasLeaf leaf (node.pathTo rest ++ [.word 0]) (node.passesTo lastComponent rest) := by
  induction h with
  | @here _ pos call =>
    intro rest _ hpos _ script i hcall
    obtain rfl : rest = [] := List.append_right_eq_self.mp hpos.symm
    have hparts : leaf.parts = [] ++ ([], leaf) :: [] := Word.parts_of_text htext
    exact .here (Script.mem_arguments_of_getElem? hcall hleaf) hparts (.inl htext)
  | @command _ _ script i call _ hcall hreach ih =>
    intro rest htyped hpos hpasses
    obtain ⟨rest', rfl, hpos'⟩ := hreach.rest_cons hpos
    have hwords : (Node.call call).Typed := fun word hword =>
      Script.Typed.word htyped (List.mem_of_getElem? hcall) hword
    rw [Node.passesTo_cons (Script.child_eq hcall)] at hpasses ⊢
    rw [Node.pathTo_cons (Script.child_eq hcall)]
    exact ih hleaf hwords hpos' hpasses script i hcall
  | @word _ _ _ call k word _ hword _ hreach ih =>
    intro rest htyped hpos hpasses
    obtain ⟨rest', rfl, hpos'⟩ := hreach.rest_cons hpos
    rw [Node.passesTo_cons (Call.child_eq hword)] at hpasses ⊢
    rw [Node.pathTo_cons (Call.child_eq hword)]
    exact .call hword (ih hleaf (htyped word (List.mem_of_getElem? hword)) hpos' hpasses)
  | @nested _ _ _ word script _ hdata hdescend hreach ih =>
    intro rest htyped hpos hpasses
    obtain ⟨i, rest', rfl⟩ := hreach.rest_ne_nil hpos
    rw [Word.passesTo_script hdata, Bool.and_eq_true] at hpasses
    obtain ⟨hnot, hpasses⟩ := hpasses
    have htype := Word.Typed.type_of_script htyped hdata
      (indexPass_descend hdescend (of_decide_eq_true hnot))
    have hpath : (Node.word word).pathTo (i :: rest') =
        .script :: (Node.script script).pathTo (i :: rest') := by
      rw [Node.pathTo, Node.pathTo, Word.child_script hdata, Word.path_script hdata]
      rfl
    have hlast : lastComponent word i = true := by
      simp [lastComponent, Word.isComposite, htype]
    rw [Word.passesTo_script hdata, hlast, Bool.true_and, hpath]
    exact .script hdata htype (ih hleaf (Word.Typed.script htyped hdata) hpos hpasses)
  | @component _ _ _ word k inner _ hinner hdescend hreach ih =>
    intro rest htyped hpos hpasses
    obtain ⟨rest', rfl, hpos'⟩ := hreach.rest_cons hpos
    rw [Node.passesTo_cons (Word.child_component hinner), Bool.and_eq_true] at hpasses
    obtain ⟨hnot, hpasses⟩ := hpasses
    have hmem : inner ∈ word.data.components := List.mem_of_getElem? hinner
    obtain ⟨words, hdata, htype⟩ := Word.Typed.words_of_component htyped hmem
      (indexPass_descend hdescend (of_decide_eq_true hnot))
    have hget : words[k]? = some inner := by
      rw [hdata] at hinner
      exact hinner
    rw [Node.passesTo_cons (Word.child_component hinner),
      Node.pathTo_cons (Word.child_component hinner), Word.path_words hdata]
    exact .component hdata htype hget (ih hleaf (Word.Typed.component htyped hmem) hpos' hpasses)

/-! ## The three walks -/

theorem Script.Leaf.ordered {ends : Word → Nat} {file : SourceFile} {script : Script}
    {place : TreePath} {leaf : Word} {trailing : Bool} (h : script.Leaf place leaf trailing)
    (horder : script.Ordered ends file) : leaf.Ordered ends file := by
  induction h with
  | @here _ arg before after place leaf harg hparts _ =>
    exact ((horder.word arg harg).parts.part (place, leaf) (by simp [hparts])).1
  | @nested _ inner arg before after place _ word leaf _ harg hparts htype hdata _ ih =>
    have hword := (horder.word arg harg).parts.part (place, word) (by simp [hparts])
    exact ih (Word.Ordered.script hword.1 htype hdata).1

theorem offsetToLineByte_of_makeSourceLocation {file : SourceFile} {offset : Nat}
    {location : SourceLocation} (h : makeSourceLocation file offset = .ok location) :
    offsetToLineByte file offset = .ok { line := location.line, column := location.column } := by
  obtain ⟨pos, hpos, hlocation⟩ := bind_eq_ok.mp h
  cases hlocation
  exact hpos

/-- The search for the start of a leaf ends at the leaf exactly when no component follows it. -/
theorem Script.Leaf.findsStart_iff {file : SourceFile} {script : Script} {place : TreePath}
    {leaf : Word} {trailing : Bool} (h : script.Leaf place leaf trailing) (htyped : script.Typed)
    (horder : script.Ordered Word.stop file) : script.FindsStart place leaf ↔ trailing = true := by
  have hpos := offsetToLineByte_of_makeSourceLocation (h.ordered horder).located
  have hfound : ∀ {cursor},
      locateInScript { line := leaf.location.line, column := leaf.location.column } [] script =
        .ok cursor → (cursor.word = some place ↔ trailing = true) :=
    h.found_iff hpos (Nat.le_refl _) leaf.start_lt_stop horder
  constructor
  · rintro ⟨-, cursor, hlocate, -, hword⟩
    exact (hfound hlocate).mp hword
  · intro htrailing
    refine ⟨wordAt_of_nodeAt h.nodeAt, ?_⟩
    obtain ⟨found, hfind⟩ := findPositionInScript_ok
      { line := leaf.location.line, column := leaf.location.column } script htyped
    rw [findPositionInScript_eq_locate] at hfind ⊢
    cases hlocate : locateInScript { line := leaf.location.line, column := leaf.location.column } []
        script with
    | error fault =>
      rw [hlocate] at hfind
      cases hfind
    | ok cursor => exact ⟨cursor, rfl, rfl, (hfound hlocate).mpr htrailing⟩

/-- `ScanScript` visits a call that `IndexScript` visits exactly when it is in no index of an array. -/
theorem Built.scanned_iff {script : Script} {result : BuildResult} {v : Visit} {site : Site Path}
    (hb : Built script result) (hat : VisitAt result.index v site) (hsite : site ∈ script.indexSites) :
    (∃ u ∈ result.scanned, u.pos = v.pos ∧ u.call = v.call) ↔ script.OutsideArrays v.pos := by
  have hreach : Reaches indexPass [] [] (.script script) site := mem_sitesScript.mp hsite
  have hpos : site.pos = [] ++ v.pos := hat.pos.symm
  constructor
  · rintro ⟨u, hu, heq, -⟩
    obtain ⟨site', hsite', hat'⟩ := mem_of_forall₂_left hb.scanned hu
    have hpos' : site'.pos = [] ++ v.pos := hat'.pos.symm.trans heq
    exact (mem_sitesScript.mp hsite').outsideArrays hpos'
  · intro houtside
    obtain ⟨site', hscan, heq⟩ := hreach.scanned hpos houtside []
    obtain ⟨hcall, -⟩ := hreach.join hscan heq.symm
    obtain ⟨u, hu, hat'⟩ := mem_of_forall₂_right hb.scanned (mem_sitesScript.mpr hscan)
    exact ⟨u, hu, (hat'.pos.trans heq).trans hat.pos.symm,
      (hat'.call.trans hcall.symm).trans hat.call.symm⟩

/-- A call that `IndexScript` visits is visited by `ScanScript` and, if its command word is a text,
found at it, exactly when it is in no index of an array and, with a text, in last components only. -/
theorem indexScript_reached_iff {interp : TclInterp} {context : ParseContext}
    {fileName contents : Str} {data size : Nat} {script : Script} {result : BuildResult} {v : Visit}
    (hcontract : interp.Contract) (horder : interp.InOrder)
    (hfile : context.file = makeSourceFile fileName contents) (hdata : data ≤ contents.length)
    (hparse : parseScript interp context (context.file.view data size) = .ok script)
    (hbuild : buildNew script = .ok result) (hv : v ∈ result.indexed) :
    ((∃ u ∈ result.scanned, u.pos = v.pos ∧ u.call = v.call) ∧
      ∀ word, v.call.words[0]? = some word → word.type = .TEXT →
        script.FindsStart (script.pathTo v.pos ++ [.word 0]) word) ↔
      script.OutsideArrays v.pos ∧
        ∀ word, v.call.words[0]? = some word → word.type = .TEXT → script.InLastComponents v.pos := by
  have hb := buildNew_ok hbuild
  have htyped := parseScript_typed hparse
  have hordered := parseScript_ordered hcontract horder hfile hdata hparse
  obtain ⟨site, hsite, hat⟩ := mem_of_forall₂_left hb.indexed hv
  have hpos : site.pos = [] ++ v.pos := hat.pos.symm
  rw [hb.scanned_iff hat.toVisitAt hsite]
  refine and_congr_right fun houtside => forall₃_congr fun word hword htext => ?_
  rw [hat.call] at hword
  have hleaf : script.Leaf (script.pathTo v.pos ++ [.word 0]) word
      ((Node.script script).passesTo lastComponent v.pos) :=
    (mem_sitesScript.mp hsite).hasLeaf hword htext htyped hpos houtside
  exact hleaf.findsStart_iff htyped hordered

/-! ## A call in the index of an array -/

/-- The file `f $a([g])`. -/
def arrayCall : SourceFile := makeSourceFile [] (bytes "f $a([g])")

def arrayCallParse : TclParse :=
  { commandStart := 0, commandSize := 9, commentSize := 0, numWords := 2, tokens :=
      [⟨.SIMPLE_WORD, 0, 1, 1⟩, ⟨.TEXT, 0, 1, 0⟩, ⟨.WORD, 2, 7, 3⟩, ⟨.VARIABLE, 2, 7, 2⟩,
        ⟨.TEXT, 3, 1, 0⟩, ⟨.COMMAND, 5, 3, 0⟩] }

def arrayCallIndexParse : TclParse :=
  { commandStart := 6, commandSize := 1, commentSize := 0, numWords := 1, tokens :=
      [⟨.SIMPLE_WORD, 6, 1, 1⟩, ⟨.TEXT, 6, 1, 0⟩] }

/-- The Tcl library on the two commands of that file. -/
def arrayCallInterp : TclInterp where
  parseCommand view :=
    if view = arrayCall.view 0 9 then some arrayCallParse
    else if view = arrayCall.view 6 1 then some arrayCallIndexParse
    else none
  findElement _ := none

/-- The word `$a([g])` as an access to the array `a`. -/
def arrayCallAccess : Word :=
  { type := .ARRAY_ACCESS, location := lineLocation 2
    text := { data := 2, bytes := bytes "$a([g])" }
    data := .arrayAccess (bytes "a")
      [{ scriptWord 6 "g" [⟨.USER, [textWord 6 "g"], []⟩] with
          location := lineLocation 5, text := { data := 5, bytes := bytes "[g]" } }] }

def arrayCallTree : Script :=
  { location := lineLocation 0
    commands := [⟨.USER, [textWord 0 "f", { arrayCallAccess with
      type := .TOKEN_LIST, data := .words [arrayCallAccess] }], []⟩] }

theorem arrayCall_parsed : parseScript arrayCallInterp { file := arrayCall, curNs := [] }
    (arrayCall.view 0 9) = .ok arrayCallTree := rfl

/-- `IndexScript` visits the call of `g`, `ScanScript` does not, and at the `g` the search ends at the
access to the array. -/
theorem arrayCall_not_reached : parseScript arrayCallInterp { file := arrayCall, curNs := [] }
      (arrayCall.view 0 9) = .ok arrayCallTree ∧
    (∃ result, buildNew arrayCallTree = .ok result ∧ ∃ v ∈ result.indexed,
      (v.call.words[0]?.map fun word => (word.type, word.location, word.text)) =
        some (.TEXT, lineLocation 6, { data := 6, bytes := bytes "g" }) ∧
      ∀ u ∈ result.scanned, u.pos ≠ v.pos) ∧
    ∃ cursor, findPositionInScript { line := 0, column := 6 } arrayCallTree = .ok cursor ∧
      cursor.word = some arrayCallAccess := by
  refine ⟨arrayCall_parsed, ?_, _, rfl, rfl⟩
  obtain ⟨result, h, htest⟩ := exists_of_returns (show returns (buildNew arrayCallTree) (fun result =>
    result.indexed.any fun v =>
      (v.call.words[0]?.map fun word => (word.type, word.location, word.text)) =
        some (.TEXT, lineLocation 6, { data := 6, bytes := bytes "g" }) ∧
      ∀ u ∈ result.scanned, u.pos ≠ v.pos) = true by decide +kernel)
  simp only [List.any_eq_true, decide_eq_true_eq] at htest
  exact ⟨result, h, htest⟩

/-- The conditions at the call of `f` and at the call of `g`. -/
example : arrayCallTree.OutsideArrays [0] ∧ arrayCallTree.InLastComponents [0] ∧
    ¬ arrayCallTree.OutsideArrays [0, 1, 0, 0, 0] := by decide +kernel

theorem arrayCall_contract : arrayCallInterp.Contract := by
  constructor
  · intro script parse _ hparse
    simp only [arrayCallInterp] at hparse
    split at hparse
    · next hview =>
      cases hparse
      rw [hview]
      have hcommand : Components 2 9 [⟨.COMMAND, 5, 3, 0⟩] :=
        .command rfl rfl (by decide) ⟨by decide, by decide⟩ .nil
      have hvariable : Components 2 9
          (⟨.VARIABLE, 2, 7, 2⟩ :: ⟨.TEXT, 3, 1, 0⟩ :: ([⟨.COMMAND, 5, 3, 0⟩] ++ [])) :=
        .var rfl rfl ⟨by decide, by decide⟩ rfl rfl ⟨by decide, by decide⟩ hcommand .nil
      have hword : WordTokens 9 1 1 (⟨.WORD, 2, 7, 3⟩ :: (_ ++ [])) :=
        .compound (.inl rfl) rfl (by decide) hvariable (.nil (by decide))
      exact ⟨.simple rfl rfl (by decide) rfl rfl ⟨by decide, by decide⟩ hword, by decide +kernel,
        by decide +kernel⟩
    split at hparse
    · next hview =>
      cases hparse
      rw [hview]
      have hword : WordTokens ((arrayCall.view 6 1).data + (arrayCall.view 6 1).bytes.length) 6 1
          arrayCallIndexParse.tokens :=
        .simple rfl rfl (by decide) rfl rfl ⟨by decide, by decide⟩ (.nil (by decide +kernel))
      exact ⟨hword, by decide +kernel, by decide +kernel⟩
    · cases hparse
  · intro list found hfound
    cases hfound

theorem arrayCall_inOrder : arrayCallInterp.InOrder := by
  intro script parse _ hparse
  simp only [arrayCallInterp] at hparse
  split at hparse
  · next hview =>
    cases hparse
    rw [hview]
    have hgroups : wordGroups arrayCallParse.tokens = [[⟨.SIMPLE_WORD, 0, 1, 1⟩, ⟨.TEXT, 0, 1, 0⟩],
        ⟨.WORD, 2, 7, 3⟩ ::
          ⟨.VARIABLE, 2, 7, 2⟩ :: ⟨.TEXT, 3, 1, 0⟩ :: ([⟨.COMMAND, 5, 3, 0⟩] ++ [])] := by
      simp [arrayCallParse, wordGroups]
    rw [hgroups]
    have hvariable : ComponentsInOrder 9 2
        (⟨.VARIABLE, 2, 7, 2⟩ :: ⟨.TEXT, 3, 1, 0⟩ :: ([⟨.COMMAND, 5, 3, 0⟩] ++ [])) :=
      .var rfl rfl (by decide) (by decide) (by decide) (.nil (by decide))
    have hword : GroupsInOrder 9 1 [⟨.WORD, 2, 7, 3⟩ :: _] :=
      .compound (by decide) (by decide) (by decide) hvariable (.nil (by decide))
    exact .simple rfl (by decide) (by decide) (by decide) hword
  split at hparse
  · next hview =>
    cases hparse
    rw [hview]
    have hgroups : wordGroups arrayCallIndexParse.tokens =
        [[⟨.SIMPLE_WORD, 6, 1, 1⟩, ⟨.TEXT, 6, 1, 0⟩]] := by
      simp [arrayCallIndexParse, wordGroups]
    rw [hgroups]
    exact .simple rfl (by decide +kernel) (by decide) (by decide) (.nil (by decide +kernel))
  · cases hparse

theorem arrayCall_reached_iff : ∃ result, buildNew arrayCallTree = .ok result ∧
    ∃ v ∈ result.indexed, v.pos = [0] ∧
      (((∃ u ∈ result.scanned, u.pos = v.pos ∧ u.call = v.call) ∧
        ∀ word, v.call.words[0]? = some word → word.type = .TEXT →
          arrayCallTree.FindsStart (arrayCallTree.pathTo v.pos ++ [.word 0]) word) ↔
        arrayCallTree.OutsideArrays v.pos ∧
          ∀ word, v.call.words[0]? = some word → word.type = .TEXT →
            arrayCallTree.InLastComponents v.pos) := by
  obtain ⟨result, h, htest⟩ := exists_of_returns (show returns (buildNew arrayCallTree)
    (fun result => result.indexed.any fun v => v.pos = [0]) = true by decide +kernel)
  simp only [List.any_eq_true, decide_eq_true_eq] at htest
  obtain ⟨v, hv, hpos⟩ := htest
  have hfile : ({ file := arrayCall, curNs := [] } : ParseContext).file =
      makeSourceFile [] (bytes "f $a([g])") := rfl
  exact ⟨result, h, v, hv, hpos, indexScript_reached_iff arrayCall_contract arrayCall_inOrder hfile
    (Nat.zero_le _) arrayCall_parsed h hv⟩

end TclAnalyzer
