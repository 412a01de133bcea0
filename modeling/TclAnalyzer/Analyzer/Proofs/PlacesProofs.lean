import Mathlib.Data.List.TakeWhile
import TclAnalyzer.Analyzer.Places

/-!
# The search on paths

It is the search on words, and what it finds is determined by the parts of the words that start before
the position: the last word all of whose parts do, and in it the last part.
-/

namespace TclAnalyzer

/-! ## Paths -/

/-- A path leads where its second part leads from the end of the first. -/
theorem nodeAt_append (node : TreeNode) (path path' : TreePath) :
    nodeAt node (path ++ path') = (nodeAt node path).bind (nodeAt · path') := by
  induction path generalizing node with
  | nil => rfl
  | cons step path ih =>
    rw [List.cons_append, nodeAt, nodeAt, Option.bind_assoc]
    exact congrArg _ (funext fun child => ih child)

theorem nodeAt_concat {root node : TreeNode} {path : TreePath} (h : nodeAt root path = some node)
    (step : TreeStep) : nodeAt root (path ++ [step]) = childAt node step := by
  rw [nodeAt_append, h, Option.bind_some, nodeAt]
  cases childAt node step <;> rfl

theorem callAt_of_nodeAt {script : Script} {path : TreePath} {call : Call}
    (h : nodeAt (.script script) path = some (.call call)) : script.callAt path = some call := by
  rw [Script.callAt, h]

theorem wordAt_of_nodeAt {script : Script} {path : TreePath} {word : Word}
    (h : nodeAt (.script script) path = some (.word word)) : script.wordAt path = some word := by
  rw [Script.wordAt, h]

/-! ## The search on words -/

section Search

variable (root : Script) (pos : LinePos)

/-- A cursor at the place of a word reads as one at the word. -/
theorem cursor_word {path : TreePath} {word : Word}
    (h : nodeAt (.script root) path = some (.word word)) (result : PlaceCursor) :
    ({ result with word := some path } : PlaceCursor).cursor root =
      { result.cursor root with word := some word } := by
  rw [PlaceCursor.cursor, Option.bind_some, wordAt_of_nodeAt h]
  rfl

mutual

/-- The two searches go side by side: the first passes words around, the second their places. -/
theorem findPositionInWord_eq (result : PlaceCursor) (path : TreePath) : ∀ word : Word,
    nodeAt (.script root) path = some (.word word) →
    findPositionInWord (result.cursor root) pos word =
      (locateInWord result pos path word).map (Option.map (PlaceCursor.cursor root))
  | ⟨type, location, text, data⟩, hpath => by
    rw [findPositionInWord, locateInWord]
    by_cases hafter : startsAfter location pos
    · rw [if_pos hafter, if_pos hafter]
      rfl
    · rw [if_neg hafter, if_neg hafter]
      exact findPositionInData_eq result path ⟨type, location, text, data⟩ data hpath rfl

theorem findPositionInData_eq (result : PlaceCursor) (path : TreePath) (word : Word) :
    ∀ data : WordData, nodeAt (.script root) path = some (.word word) → word.data = data →
    findPositionInData (result.cursor root) pos word data =
      (locateInData result pos path word.type data).map (Option.map (PlaceCursor.cursor root))
  | .script script, hpath, hdata => by
    have hscript : nodeAt (.script root) (path ++ [.script]) = some (.script script) := by
      rw [nodeAt_concat hpath, childAt, hdata]
    have hrec := findPositionInScript_eq (path ++ [.script]) script hscript
    cases htype : word.type with
    | SCRIPT =>
      simp only [findPositionInData, locateInData, htype, hrec]
      cases locateInScript pos (path ++ [.script]) script <;> rfl
    | TOKEN_LIST | EXPAND =>
      simp only [findPositionInData, locateInData, htype]
      rfl
    | TEXT | VARIABLE | ARRAY_ACCESS | LIST | ERROR =>
      simp only [findPositionInData, locateInData, htype, ← cursor_word root hpath]
      rfl
  | .words words, hpath, hdata => by
    have hwords : ∀ k word, words[k]? = some word →
        nodeAt (.script root) (path ++ [.component (0 + k)]) = some (.word word) := by
      intro k word hk
      rw [nodeAt_concat hpath, childAt, hdata, Nat.zero_add]
      dsimp only
      rw [hk]
      rfl
    cases htype : word.type with
    | SCRIPT =>
      simp only [findPositionInData, locateInData, htype]
      rfl
    | TOKEN_LIST | EXPAND =>
      simp only [findPositionInData, locateInData, htype]
      exact findPositionInWords_eq result path 0 words hwords
    | TEXT | VARIABLE | ARRAY_ACCESS | LIST | ERROR =>
      simp only [findPositionInData, locateInData, htype, ← cursor_word root hpath]
      rfl
  | .nothing, hpath, _ => by
    cases htype : word.type with
    | SCRIPT | TOKEN_LIST | EXPAND =>
      simp only [findPositionInData, locateInData, htype]
      rfl
    | TEXT | VARIABLE | ARRAY_ACCESS | LIST | ERROR =>
      simp only [findPositionInData, locateInData, htype, ← cursor_word root hpath]
      rfl
  | .arrayAccess name index, hpath, _ => by
    cases htype : word.type with
    | SCRIPT | TOKEN_LIST | EXPAND =>
      simp only [findPositionInData, locateInData, htype]
      rfl
    | TEXT | VARIABLE | ARRAY_ACCESS | LIST | ERROR =>
      simp only [findPositionInData, locateInData, htype, ← cursor_word root hpath]
      rfl

theorem findPositionInWords_eq (result : PlaceCursor) (path : TreePath) (n : Nat) :
    ∀ words : List Word, (∀ k word, words[k]? = some word →
      nodeAt (.script root) (path ++ [.component (n + k)]) = some (.word word)) →
    findPositionInWords (result.cursor root) pos words =
      (locateInWords result pos path n words).map (Option.map (PlaceCursor.cursor root))
  | [], _ => rfl
  | word :: words, hpath => by
    have hword := findPositionInWord_eq result (path ++ [.component n]) word (hpath 0 word rfl)
    have hwords : ∀ k word, words[k]? = some word →
        nodeAt (.script root) (path ++ [.component (n + 1 + k)]) = some (.word word) := by
      intro k word hk
      rw [Nat.add_assoc, Nat.add_comm 1]
      exact hpath (k + 1) word hk
    rw [findPositionInWords, locateInWords, hword]
    generalize locateInWord result pos (path ++ [.component n]) word = located
    rcases located with fault | _ | found
    · rfl
    · rfl
    · exact findPositionInWords_eq found path (n + 1) words hwords

theorem findPositionInScript_eq (path : TreePath) : ∀ script : Script,
    nodeAt (.script root) path = some (.script script) →
    findPositionInScript pos script =
      (locateInScript pos path script).map (PlaceCursor.cursor root)
  | ⟨location, commands⟩, hpath => by
    rw [findPositionInScript, locateInScript]
    refine findPositionInCalls_eq .empty path 0 commands fun k call hk => ?_
    rw [nodeAt_concat hpath, childAt, Nat.zero_add]
    dsimp only
    rw [hk]
    rfl

theorem findPositionInCalls_eq (result : PlaceCursor) (path : TreePath) (i : Nat) :
    ∀ commands : List Call, (∀ k call, commands[k]? = some call →
      nodeAt (.script root) (path ++ [.call (i + k)]) = some (.call call)) →
    findPositionInCalls (result.cursor root) pos commands =
      (locateInCalls result pos path i commands).map (PlaceCursor.cursor root)
  | [], _ => rfl
  | call :: commands, hpath => by
    have hcall := findPositionInCall_eq result (path ++ [.call i]) call (hpath 0 call rfl)
    have hcommands : ∀ k call, commands[k]? = some call →
        nodeAt (.script root) (path ++ [.call (i + 1 + k)]) = some (.call call) := by
      intro k call hk
      rw [Nat.add_assoc, Nat.add_comm 1]
      exact hpath (k + 1) call hk
    rw [findPositionInCalls, locateInCalls, hcall]
    generalize locateInCall result pos (path ++ [.call i]) call = located
    rcases located with fault | ⟨found, _ | _⟩
    · rfl
    · exact findPositionInCalls_eq found path (i + 1) commands hcommands
    · rfl

theorem findPositionInCall_eq (result : PlaceCursor) (path : TreePath) : ∀ call : Call,
    nodeAt (.script root) path = some (.call call) →
    findPositionInCall (result.cursor root) pos call =
      (locateInCall result pos path call).map fun found => (found.1.cursor root, found.2)
  | ⟨type, words, ns⟩, hpath => by
    rw [findPositionInCall, locateInCall]
    refine findPositionInArguments_eq result path ⟨type, words, ns⟩ 0 hpath words fun k word hk => ?_
    rw [nodeAt_concat hpath, childAt, Nat.zero_add]
    dsimp only
    rw [hk]
    rfl

theorem findPositionInArguments_eq (result : PlaceCursor) (path : TreePath) (call : Call)
    (argument : Nat) (hcall : nodeAt (.script root) path = some (.call call)) :
    ∀ words : List Word, (∀ k word, words[k]? = some word →
      nodeAt (.script root) (path ++ [.word (argument + k)]) = some (.word word)) →
    findPositionInArguments (result.cursor root) pos call argument words =
      (locateInArguments result pos path argument words).map fun found =>
        (found.1.cursor root, found.2)
  | [], _ => rfl
  | word :: words, hpath => by
    have hstart : ({ call := some path, argument, word := none } : PlaceCursor).cursor root =
        { call := some call, argument, word := none } := by
      rw [PlaceCursor.cursor, Option.bind_some, callAt_of_nodeAt hcall]
      rfl
    have hword := findPositionInWord_eq { call := some path, argument, word := none }
      (path ++ [.word argument]) word (hpath 0 word rfl)
    have hwords : ∀ k word, words[k]? = some word →
        nodeAt (.script root) (path ++ [.word (argument + 1 + k)]) = some (.word word) := by
      intro k word hk
      rw [Nat.add_assoc, Nat.add_comm 1]
      exact hpath (k + 1) word hk
    rw [hstart] at hword
    rw [findPositionInArguments, locateInArguments, hword]
    generalize locateInWord { call := some path, argument, word := none } pos
      (path ++ [.word argument]) word = located
    rcases located with fault | _ | found
    · rfl
    · rfl
    · exact findPositionInArguments_eq found path call (argument + 1) hcall words hwords

end

/-- The search on paths finds what `findPositionInScript` finds. -/
theorem findPositionInScript_eq_locate :
    findPositionInScript pos root = (locateInScript pos [] root).map (PlaceCursor.cursor root) :=
  findPositionInScript_eq root pos [] root rfl

end Search

/-! ## The parts of a word -/

section Parts

variable {pos : LinePos}

/-- What the search makes of these parts. -/
def Visited (pos : LinePos) (path : TreePath) (result : PlaceCursor) (parts : List (TreePath × Word)) :
    Option PlaceCursor → Prop
  | none => (parts.all fun part => !startsAfter part.2.location pos) = false
  | some found => (parts.all fun part => !startsAfter part.2.location pos) = true ∧
    parts.foldlM (visit pos path) result = .ok found

/-- Going into a component and then to a part of it is going to the part of the whole. -/
theorem visit_component (path : TreePath) (n : Nat) (result : PlaceCursor)
    (part : TreePath × Word) :
    visit pos path result (.component n :: part.1, part.2) =
      visit pos (path ++ [.component n]) result part := by
  have hpath : path ++ .component n :: part.1 = path ++ [.component n] ++ part.1 := by simp
  unfold visit
  rw [hpath]

theorem all_component (n : Nat) (parts : List (TreePath × Word)) :
    ((parts.map fun part => (TreeStep.component n :: part.1, part.2)).all
      fun part => !startsAfter part.2.location pos) =
      parts.all fun part => !startsAfter part.2.location pos := by
  rw [List.all_map]
  rfl

theorem foldlM_component (path : TreePath) (n : Nat) (parts : List (TreePath × Word))
    (result : PlaceCursor) :
    (parts.map fun part => (TreeStep.component n :: part.1, part.2)).foldlM (visit pos path) result =
      parts.foldlM (visit pos (path ++ [.component n])) result := by
  rw [List.foldlM_map]
  exact congrArg (fun step => parts.foldlM step result)
    (funext fun r => funext fun part => visit_component path n r part)

/-- A word of its own: it is not looked into, or it is a script. -/
theorem visited_single {path : TreePath} {result : PlaceCursor} {word : Word}
    (hafter : startsAfter word.location pos = false) {found : PlaceCursor}
    (h : visit pos path result ([], word) = .ok found) :
    Visited pos path result [([], word)] (some found) := by
  refine ⟨by simp [hafter], ?_⟩
  rw [List.foldlM_cons, h]
  rfl

mutual

/-- The search in a word is a run over its parts, none of which starts after the position. -/
theorem locateInWord_visited (path : TreePath) (result : PlaceCursor) : ∀ word : Word,
    ∀ found, locateInWord result pos path word = .ok found →
      Visited pos path result word.parts found
  | ⟨type, location, text, data⟩, found, h => by
    rw [locateInWord] at h
    rw [Word.parts]
    by_cases hafter : startsAfter location pos
    · rw [if_pos hafter] at h
      cases h
      simp [Visited, hafter]
    rw [if_neg hafter] at h
    rw [Bool.not_eq_true] at hafter
    have hself : path ++ [] = path := List.append_nil path
    match data, h with
    | .script script, h =>
      cases type with
      | SCRIPT =>
        simp only [locateInData] at h
        obtain ⟨cursor, hcursor, h⟩ := bind_eq_ok.mp h
        cases h
        refine visited_single hafter ?_
        rw [visit, hself]
        exact hcursor
      | TOKEN_LIST | EXPAND => cases h
      | TEXT | VARIABLE | ARRAY_ACCESS | LIST | ERROR =>
        cases h
        refine visited_single hafter ?_
        rw [visit, hself]
        rfl
    | .words words, h =>
      cases type with
      | SCRIPT => cases h
      | TOKEN_LIST | EXPAND =>
        have hwords := locateInWords_visited path result 0 words found h
        cases found with
        | none => simpa [Visited, dataParts, hafter] using hwords
        | some found =>
          obtain ⟨hall, hfold⟩ := hwords
          refine ⟨by simpa [dataParts, hafter] using hall, ?_⟩
          rw [dataParts, List.foldlM_cons]
          exact hfold
      | TEXT | VARIABLE | ARRAY_ACCESS | LIST | ERROR =>
        cases h
        refine visited_single hafter ?_
        rw [visit, hself]
        rfl
    | .nothing, h =>
      cases type with
      | SCRIPT | TOKEN_LIST | EXPAND => cases h
      | TEXT | VARIABLE | ARRAY_ACCESS | LIST | ERROR =>
        cases h
        refine visited_single hafter ?_
        rw [visit, hself]
        rfl
    | .arrayAccess name index, h =>
      cases type with
      | SCRIPT | TOKEN_LIST | EXPAND => cases h
      | TEXT | VARIABLE | ARRAY_ACCESS | LIST | ERROR =>
        cases h
        refine visited_single hafter ?_
        rw [visit, hself]
        rfl

/-- Over components the run goes on as long as none starts after the position. -/
theorem locateInWords_visited (path : TreePath) (result : PlaceCursor) (n : Nat) :
    ∀ words : List Word, ∀ found, locateInWords result pos path n words = .ok found →
      Visited pos path result (componentParts n words) found
  | [], found, h => by
    cases h
    exact ⟨rfl, rfl⟩
  | word :: words, found, h => by
    rw [locateInWords] at h
    obtain ⟨first, hfirst, h⟩ := bind_eq_ok.mp h
    have hword := locateInWord_visited (path ++ [.component n]) result word first hfirst
    rw [componentParts]
    cases first with
    | none =>
      cases h
      rw [Visited] at hword ⊢
      rw [List.all_append, all_component, hword, Bool.false_and]
    | some first =>
      have hwords := locateInWords_visited path first (n + 1) words found h
      obtain ⟨hall, hfold⟩ := hword
      cases found with
      | none =>
        rw [Visited] at hwords ⊢
        rw [List.all_append, hwords, Bool.and_false]
      | some found =>
        refine ⟨?_, ?_⟩
        · rw [List.all_append, all_component, hall, hwords.1]
          rfl
        · rw [List.foldlM_append, foldlM_component, hfold]
          exact hwords.2

end

end Parts

/-! ## The words of a script -/

section Scripts

variable {pos : LinePos} {path : TreePath} {result cursor : PlaceCursor}

/-- The search through these words starts from one cursor and ends with another: it is the one of the
last word that is reached. -/
def Ended (pos : LinePos) (path : TreePath) (result : PlaceCursor) (args : List Argument)
    (cursor : PlaceCursor) : Prop :=
  match (args.takeWhile fun arg => arg.word.reached pos).getLast? with
  | none => cursor = result
  | some arg => arg.word.parts.foldlM (visit pos (path ++ arg.path)) (arg.start path) = .ok cursor

theorem Ended.nil : Ended pos path result [] result := rfl

/-- A word that is not reached ends the search with the cursor before it. -/
theorem Ended.past {arg : Argument} (h : arg.word.reached pos = false) (args : List Argument) :
    Ended pos path result (arg :: args) result := by
  rw [Ended, List.takeWhile_cons_of_neg (by simp [h])]
  rfl

theorem Ended.single {arg : Argument} (h : arg.word.reached pos = true)
    (hvisit : arg.word.parts.foldlM (visit pos (path ++ arg.path)) (arg.start path) = .ok cursor) :
    Ended pos path result [arg] cursor := by
  have htake : [arg].takeWhile (fun arg => arg.word.reached pos) = [arg] := by simp [h]
  rw [Ended, htake]
  exact hvisit

/-- Two searches in a row, where the first has reached all of its words. -/
theorem Ended.append {args more : List Argument} {between : PlaceCursor}
    (h : Ended pos path result args between) (hall : ∀ arg ∈ args, arg.word.reached pos = true)
    (hmore : Ended pos path between more cursor) : Ended pos path result (args ++ more) cursor := by
  have htake : args.takeWhile (fun arg => arg.word.reached pos) = args :=
    List.takeWhile_eq_self_iff.mpr hall
  rw [Ended, htake] at h
  unfold Ended at hmore ⊢
  rw [List.takeWhile_append_of_pos hall, List.getLast?_append]
  cases hlast : (more.takeWhile fun arg => arg.word.reached pos).getLast? with
  | none =>
    rw [hlast] at hmore
    rw [hmore]
    exact h
  | some last =>
    rw [hlast] at hmore
    exact hmore

theorem Ended.append_left {args : List Argument} (h : Ended pos path result args cursor)
    (hsome : ∃ arg ∈ args, arg.word.reached pos = false) (more : List Argument) :
    Ended pos path result (args ++ more) cursor := by
  have htake : (args ++ more).takeWhile (fun arg => arg.word.reached pos) =
      args.takeWhile fun arg => arg.word.reached pos := by
    rw [List.takeWhile_append, if_neg]
    intro hlen
    obtain ⟨arg, hmem, hreached⟩ := hsome
    have hself := (List.takeWhile_prefix (p := fun arg : Argument => arg.word.reached pos)).eq_of_length hlen
    have := List.takeWhile_eq_self_iff.mp hself arg hmem
    rw [hreached] at this
    cases this
  unfold Ended
  rw [htake]
  exact h

theorem locateInWord_some {word : Word} {found : PlaceCursor}
    (h : locateInWord result pos path word = .ok (some found)) :
    word.reached pos = true ∧ word.parts.foldlM (visit pos path) result = .ok found :=
  locateInWord_visited path result word (some found) h

theorem locateInWord_none {word : Word} (h : locateInWord result pos path word = .ok none) :
    word.reached pos = false :=
  locateInWord_visited path result word none h

/-- The words of a call, and whether the search ended among them. -/
theorem locateInArguments_ended {call argument : Nat} {words : List Word} {past : Bool}
    (h : locateInArguments result pos (path ++ [.call call]) argument words = .ok (cursor, past)) :
    Ended pos path result (argumentsFrom call argument words) cursor ∧
      (past = false → ∀ arg ∈ argumentsFrom call argument words, arg.word.reached pos = true) ∧
      (past = true → ∃ arg ∈ argumentsFrom call argument words, arg.word.reached pos = false) := by
  induction words generalizing result argument with
  | nil =>
    cases h
    exact ⟨.nil, by simp [argumentsFrom], nofun⟩
  | cons word words ih =>
    rw [locateInArguments, List.append_assoc] at h
    obtain ⟨first, hfirst, h⟩ := bind_eq_ok.mp h
    set arg : Argument := { call, argument, word }
    have hargs : argumentsFrom call argument (word :: words) =
        [arg] ++ argumentsFrom call (argument + 1) words := rfl
    cases first with
    | none =>
      cases h
      have hreached : arg.word.reached pos = false := locateInWord_none hfirst
      exact ⟨.past hreached _, nofun, fun _ => ⟨arg, List.mem_cons_self, hreached⟩⟩
    | some first =>
      obtain ⟨hreached, hvisit⟩ := locateInWord_some hfirst
      obtain ⟨hended, hall, hsome⟩ := ih h
      have hsingle : Ended pos path result [arg] first := .single hreached hvisit
      rw [hargs]
      refine ⟨hsingle.append (by simpa using hreached) hended, fun hpast a ha => ?_, fun hpast => ?_⟩
      · rcases List.mem_append.mp ha with ha | ha
        · rw [List.mem_singleton.mp ha]
          exact hreached
        · exact hall hpast a ha
      · obtain ⟨a, ha, hpast⟩ := hsome hpast
        exact ⟨a, List.mem_append_right _ ha, hpast⟩

theorem locateInCalls_ended {i : Nat} {commands : List Call}
    (h : locateInCalls result pos path i commands = .ok cursor) :
    Ended pos path result (callsArguments i commands) cursor := by
  induction commands generalizing result i with
  | nil =>
    cases h
    exact .nil
  | cons call commands ih =>
    rw [locateInCalls] at h
    obtain ⟨⟨first, past⟩, hfirst, h⟩ := bind_eq_ok.mp h
    obtain ⟨type, words, ns⟩ := call
    rw [locateInCall] at hfirst
    obtain ⟨hended, hall, hsome⟩ := locateInArguments_ended hfirst
    rw [callsArguments]
    cases past with
    | false => exact hended.append (hall rfl) (ih h)
    | true =>
      cases h
      exact hended.append_left (hsome rfl) _

/-- The search in a script ends at the last word that is reached, and goes through its parts. -/
theorem locateInScript_ended {script : Script} (h : locateInScript pos path script = .ok cursor) :
    match script.lastReached pos with
    | none => cursor = .empty
    | some arg => arg.word.parts.foldlM (visit pos (path ++ arg.path)) (arg.start path) = .ok cursor := by
  obtain ⟨location, commands⟩ := script
  rw [locateInScript] at h
  exact locateInCalls_ended h

end Scripts

end TclAnalyzer
