import TclAnalyzer.Lsp.Replies
import TclAnalyzer.Lsp.Proofs.RepliesProofs

/-!
# Lookups do not disturb one another

Between two `Reparse`s the index changes only by namespaces that lookups add to it. No proc and no
reference is added, and so a lookup is answered as before, unless it is made in one of the namespaces
that were added.
-/

namespace TclAnalyzer

variable {interp : TclInterp} {index index' : Index} {call : Call} {word : Word}
  {cursor : ScriptCursor} {keep : Reference → Bool} {events more : List ServerEvent} {s t : Server}

/-! ## A lookup without its effect -/

theorem commandProc_fault {fault : Fault} (habsolute : (splitName call.ns).absolute = true)
    (hparts : (splitName call.ns).parts = .error fault) : index.commandProc call word = .error fault := by
  unfold Index.commandProc
  rw [if_pos habsolute, hparts]
  rfl

theorem commandProc_missing {path : List Str} (habsolute : (splitName call.ns).absolute = true)
    (hparts : (splitName call.ns).parts = .ok path) (hat : index.atPath path = none) :
    index.commandProc call word = .ok none := by
  unfold Index.commandProc
  rw [if_pos habsolute, hparts]
  exact if_pos hat

theorem commandProc_there {path : List Str} {ns : Nat} (habsolute : (splitName call.ns).absolute = true)
    (hparts : (splitName call.ns).parts = .ok path) (hat : index.atPath path = some ns) :
    index.commandProc call word = (splitName word.text.bytes).namespaceParts.map fun _ =>
      bestFitProcToCall (index.nearest path word.text.bytes) call := by
  have hthere : index.atPath path ≠ none := by
    rw [hat]
    exact Option.some_ne_none ns
  unfold Index.commandProc
  rw [if_pos habsolute, hparts]
  refine (if_neg hthere).trans ?_
  cases (splitName word.text.bytes).namespaceParts <;> rfl

theorem commandProc_relative (h : ¬(splitName call.ns).absolute = true) :
    index.commandProc call word = .error .assertion := if_neg h

/-- The lookup finds that proc. -/
theorem procAtCursor_fst (h : index.WF) :
    (procAtCursor index call word).map Prod.fst = index.commandProc call word := by
  by_cases habsolute : (splitName call.ns).absolute = true
  · have hfind := findNamespace_eq h.namespaces habsolute
    cases hparts : (splitName call.ns).parts with
    | error fault =>
      rw [procAtCursor, hfind, hparts, commandProc_fault habsolute hparts]
      rfl
    | ok path =>
      rw [hparts] at hfind
      have hfind : findNamespace index call.ns = .ok (index.atPath path) := hfind
      rw [procAtCursor, hfind]
      cases hat : index.atPath path with
      | none =>
        rw [commandProc_missing habsolute hparts hat]
        rfl
      | some ns =>
        rw [commandProc_there habsolute hparts hat]
        rcases findProc_spec h hat word.text.bytes with
          ⟨parts, index', hword, hfound, -, -⟩ | ⟨fault, hword, hfound⟩
        · simp [Except.map, hword, hfound]
        · simp [Except.map, hword, hfound]
  · rw [commandProc_relative habsolute]
    unfold procAtCursor findNamespace
    simp [habsolute, throw, throwThe, MonadExceptOf.throw, Except.map]

/-- The answer at a command word. -/
theorem answer_command (h : index.WF) (hcall : cursor.call = some call) (hword : cursor.word = some word)
    (hcommand : word.type = .TEXT ∧ cursor.argument = 0) :
    (answer keep index cursor).map Prod.fst =
      (index.commandProc call word).map fun fit => .reply (index.locations keep fit) := by
  rw [← procAtCursor_fst h]
  unfold answer
  rw [hcall, hword]
  dsimp only
  rw [if_pos hcommand]
  cases hproc : procAtCursor index call word with
  | error fault => rfl
  | ok found =>
    obtain ⟨fit, index'⟩ := found
    obtain ⟨hnamespaces, hg⟩ := procAtCursor_grows h hproc
    cases fit with
    | none => rfl
    | some p =>
      have hrefs := referencesAt_refsOf (hg.wf h hnamespaces).procs p.id
      rw [hg.procs] at hrefs
      simp [Except.map, hg.procs, hrefs, Index.locations]

/-- Elsewhere the index plays no part. -/
theorem answer_elsewhere (hcursor : ∀ call word, cursor.call = some call → cursor.word = some word →
    ¬(word.type = .TEXT ∧ cursor.argument = 0)) :
    (answer keep index cursor).map Prod.fst = (answer keep index' cursor).map Prod.fst := by
  unfold answer
  cases hcall : cursor.call with
  | none => rfl
  | some call =>
    cases hword : cursor.word with
    | none => rfl
    | some word =>
      dsimp only
      rw [if_neg (hcursor call word hcall hword), if_neg (hcursor call word hcall hword)]
      rfl

/-- A proc that is in the index has its definition among its locations. -/
theorem locations_eq_nil_iff (h : index.WF) (hkeep : ∀ r : Reference, r.type = .DEFINITION → keep r = true)
    {path : List Str} {cmdName : Str} :
    index.locations keep (bestFitProcToCall (index.nearest path cmdName) call) = [] ↔
      index.nearest path cmdName = [] := by
  have hnone : bestFitProcToCall (index.nearest path cmdName) call = none ↔
      index.nearest path cmdName = [] := bestFitProcToCall_eq_none
  rw [← hnone]
  cases hfit : bestFitProcToCall (index.nearest path cmdName) call with
  | none => simp [Index.locations]
  | some p =>
    have hp := nearest_subset index path cmdName p (bestFitProcToCall_mem hfit)
    obtain ⟨location, usages, hrefs, -⟩ := h.definitions p hp
    rw [h.procs.refsOf_eq] at hrefs
    unfold Index.locations
    rw [Option.elim_some, hrefs, List.filter_cons_of_pos (hkeep _ rfl)]
    simp

/-! ## An index that has grown -/

/-- Until a `Reparse` writes the index, only lookups change it. -/
theorem run_grows (h : s.index.WF) (hmore : Run (ServerStep interp) s more t)
    (hinstalled : ∀ uri, .installed uri ∉ more) : t.index.WF ∧ s.index.Grows t.index := by
  refine hmore.history (J := fun more t => (∀ uri, .installed uri ∉ more) →
    t.index.WF ∧ s.index.Grows t.index) (fun _ => ⟨h, .refl _⟩) ?_ hinstalled
  rintro more t event u - ih hstep hinstalled
  obtain ⟨hwf, hg⟩ := ih fun uri hmem => hinstalled uri (List.mem_append_left _ hmem)
  rcases step_index hwf hstep with ⟨-, hwf', hg', -⟩ | ⟨uri, _, _, _, _, rfl, -⟩
  · exact ⟨hwf', hg.trans hg'⟩
  · exact absurd (List.mem_append_right _ (List.mem_singleton_self _)) (hinstalled uri)

/-- A command word has the same locations, unless its namespace is new and they are not empty. -/
theorem commandProc_stays_iff (h : index.WF) (h' : index'.WF) (hg : index.Grows index')
    (hkeep : ∀ r : Reference, r.type = .DEFINITION → keep r = true) :
    ((index'.commandProc call word).map fun fit => Reply.reply (index.locations keep fit)) =
        ((index.commandProc call word).map fun fit => Reply.reply (index.locations keep fit)) ↔
      ¬∃ path, (splitName call.ns).absolute = true ∧ (splitName call.ns).parts = .ok path ∧
        index.atPath path = none ∧ index'.atPath path ≠ none ∧
        (HasParts word.text.bytes → index.nearest path word.text.bytes ≠ []) := by
  by_cases habsolute : (splitName call.ns).absolute = true
  · cases hparts : (splitName call.ns).parts with
    | error fault =>
      rw [commandProc_fault habsolute hparts, commandProc_fault habsolute hparts]
      simp
    | ok path =>
      cases hat : index.atPath path with
      | some ns =>
        have hat' := hg.atPath h.namespaces hat
        rw [commandProc_there habsolute hparts hat, commandProc_there habsolute hparts hat',
          hg.nearest h h'.namespaces]
        simp [hat]
      | none =>
        rw [commandProc_missing habsolute hparts hat]
        cases hat' : index'.atPath path with
        | none =>
          rw [commandProc_missing habsolute hparts hat']
          simp [hat']
        | some ns =>
          -- The namespace is new: nothing was found before, and now what is around it.
          have hnew : (∃ path', (splitName call.ns).absolute = true ∧
              (Except.ok path : Except Fault (List Str)) = .ok path' ∧
              index.atPath path' = none ∧ index'.atPath path' ≠ none ∧
              (HasParts word.text.bytes → index.nearest path' word.text.bytes ≠ [])) ↔
              (HasParts word.text.bytes → index.nearest path word.text.bytes ≠ []) := by
            constructor
            · rintro ⟨_, -, ⟨⟩, -, -, hfound⟩
              exact hfound
            · exact fun hfound => ⟨path, habsolute, rfl, hat, by simp [hat'], hfound⟩
          have hempty : index.locations keep (bestFitProcToCall (index.nearest path word.text.bytes) call) =
              [] ↔ index.nearest path word.text.bytes = [] := locations_eq_nil_iff h hkeep
          rw [commandProc_there habsolute hparts hat', hnew, hg.nearest h h'.namespaces, hasParts_iff]
          cases (splitName word.text.bytes).namespaceParts with
          | error fault => simp [Except.map]
          | ok parts =>
            have hnone : index.locations keep none = [] := rfl
            simp [Except.map, hempty, hnone]
  · rw [commandProc_relative habsolute, commandProc_relative habsolute]
    simp [habsolute]

theorem answer_stays_iff (h : index.WF) (h' : index'.WF) (hg : index.Grows index')
    (hkeep : ∀ r : Reference, r.type = .DEFINITION → keep r = true) :
    (answer keep index' cursor).map Prod.fst = (answer keep index cursor).map Prod.fst ↔
      ¬∃ call word path, cursor.Disturbed index index' call word path := by
  by_cases hcursor : ∃ call word, cursor.call = some call ∧ cursor.word = some word ∧
      word.type = .TEXT ∧ cursor.argument = 0
  · obtain ⟨call, word, hcall, hword, hcommand⟩ := hcursor
    have hsame : index'.locations keep = index.locations keep := by
      unfold Index.locations
      rw [hg.procs]
    rw [answer_command h' hcall hword hcommand, answer_command h hcall hword hcommand, hsame]
    rw [commandProc_stays_iff h h' hg hkeep]
    constructor
    · rintro hstays ⟨call', word', path, hdisturbed⟩
      cases Option.some.inj (hcall.symm.trans hdisturbed.onCall)
      cases Option.some.inj (hword.symm.trans hdisturbed.onWord)
      exact hstays ⟨path, hdisturbed.absolute, hdisturbed.ns, hdisturbed.missing, hdisturbed.added,
        hdisturbed.found⟩
    · rintro hnone ⟨path, habsolute, hparts, hmissing, hadded, hfound⟩
      exact hnone ⟨call, word, path, hcall, hword, hcommand.1, hcommand.2, habsolute, hparts, hmissing,
        hadded, hfound⟩
  · rw [iff_true_intro (answer_elsewhere ?_), true_iff]
    · rintro ⟨call, word, path, hdisturbed⟩
      exact hcursor ⟨call, word, hdisturbed.onCall, hdisturbed.onWord, hdisturbed.text, hdisturbed.argument⟩
    · exact fun call word hcall hword hcommand => hcursor ⟨call, word, hcall, hword, hcommand⟩

/-- Between two `Reparse`s every request is answered as it was before, whatever has been asked in the
meantime, unless its cursor is on a command word in a namespace that a lookup has added. -/
theorem answers_stay_iff (h : Run (ServerStep interp) .initial events s)
    (hmore : Run (ServerStep interp) s more t) (hinstalled : ∀ uri, .installed uri ∉ more)
    (request : Request) (cursor : ScriptCursor) :
    (request.answer t.index cursor).map Prod.fst = (request.answer s.index cursor).map Prod.fst ↔
      ¬∃ call word path, cursor.Disturbed s.index t.index call word path := by
  have hg := run_grows (run_lastIndexed h).wf hmore hinstalled
  rw [request_answer_eq]
  exact answer_stays_iff (run_lastIndexed h).wf hg.1 hg.2 fun r hr => by simp [hr]

/-- A call of `f`, before and after the references have been asked for. -/
theorem callF_answers_stay : ∃ (s t : Server) (more : List ServerEvent) (tree : Tree)
    (locations : List Location), Run (ServerStep callFInterp) s more t ∧ locations ≠ [] ∧
    .reply referencesOfF tree (.reply locations) ∈ more ∧
    ∀ (request : Request) (cursor : ScriptCursor),
      (request.answer t.index cursor).map Prod.fst = (request.answer s.index cursor).map Prod.fst ↔
        ¬∃ call word path, cursor.Disturbed s.index t.index call word path := by
  obtain ⟨events, more, s, t, tree, cursor, index, hrun, hmore, hinstalled, -, -, -, -, -, locations,
    hne, hreply⟩ := callF_answered
  exact ⟨s, t, more, tree, locations, run_raceFree hmore, hne, hreply,
    answers_stay_iff (run_raceFree hrun) (run_raceFree hmore) hinstalled⟩

end TclAnalyzer
