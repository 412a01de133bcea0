import TclAnalyzer.Analyzer.Proofs.ReferenceProofs
import TclAnalyzer.Lsp.Proofs.ResponseProofs
import TclAnalyzer.Lsp.Replies
import TclAnalyzer.Tool.Proofs.LocationTextProofs

/-!
# Where the locations of a reply come from

A lookup answers with the references of one proc, and the index it looks into was built from a text
that was accepted. The references that define a proc come first, and there is one of them.
-/

namespace TclAnalyzer

variable {interp : TclInterp} {index index' : Index} {events : List ServerEvent} {s : Server}

/-! ## One lookup -/

/-- What a lookup at the cursor finds is in the index and has the name of the command word. -/
theorem procAtCursor_found (h : index.WF) {call : Call} {word : Word} {p : Proc}
    (hproc : procAtCursor index call word = .ok (some p, index')) :
    p ∈ index.procs.table ∧ p.name = (splitName word.text.bytes).name := by
  unfold procAtCursor at hproc
  obtain ⟨ns, hfind, hproc⟩ := bind_eq_ok.mp hproc
  cases ns with
  | none => cases hproc
  | some ns =>
    obtain ⟨⟨procs, found⟩, hprocs, hproc⟩ := bind_eq_ok.mp hproc
    obtain ⟨path, -, hat⟩ := findNamespace_atPath h.namespaces hfind
    rcases findProc_spec h hat word.text.bytes with ⟨-, found', -, hok, -, -⟩ | ⟨_, -, herror⟩
    · cases hprocs.symm.trans hok
      have hbest : bestFitProcToCall (index.nearest path word.text.bytes) call = some p :=
        congrArg Prod.fst (Except.ok.inj hproc)
      have hmem := bestFitProcToCall_mem hbest
      exact ⟨nearest_subset index path _ p hmem, nearest_name hmem⟩
    · cases hprocs.symm.trans herror

/-- An answer with locations is about one proc. -/
theorem answer_locations (h : index.WF) {keep : Reference → Bool} {cursor : ScriptCursor}
    {locations : List Location} (hne : locations ≠ [])
    (hanswer : answer keep index cursor = .ok (.reply locations, index')) :
    ∃ word p, cursor.word = some word ∧ cursor.argument = 0 ∧ p ∈ index.procs.table ∧
      p.name = (splitName word.text.bytes).name ∧
      locations = ((index.procs.references.filter fun r => r.id = p.id).filter keep).map
        Reference.toLocation := by
  unfold answer at hanswer
  split at hanswer
  · rename_i call word hcall hword
    split_ifs at hanswer with hcommand
    · obtain ⟨⟨fit, found⟩, hproc, hanswer⟩ := bind_eq_ok.mp hanswer
      obtain ⟨hnamespaces, hg⟩ := procAtCursor_grows h hproc
      cases fit with
      | none =>
        cases hanswer
        exact absurd rfl hne
      | some p =>
        obtain ⟨hp, hname⟩ := procAtCursor_found h hproc
        obtain ⟨references, hreferences, hanswer⟩ := bind_eq_ok.mp hanswer
        rw [referencesAt_refsOf (hg.wf h hnamespaces).procs p.id, hg.procs] at hreferences
        cases hreferences
        cases hanswer
        exact ⟨word, p, hword, hcommand.2, hp, hname, rfl⟩
    · cases hanswer
      exact absurd rfl hne
  · cases hanswer

/-- `textDocument/definition` looks the same proc up as `textDocument/references`, and answers with the
first of the locations: a proc has one reference that defines it, in front of its usages. -/
theorem answerDefinition_eq (h : index.WF) (cursor : ScriptCursor) :
    answerDefinition index cursor =
      (answerReferences index cursor).map fun (reply, index) => (reply.first, index) := by
  unfold answerDefinition answerReferences answer
  split
  · rename_i call word hcall hword
    split_ifs
    · cases hproc : procAtCursor index call word with
      | error fault => rfl
      | ok found =>
        obtain ⟨fit, index'⟩ := found
        obtain ⟨hnamespaces, hg⟩ := procAtCursor_grows h hproc
        cases fit with
        | none => rfl
        | some p =>
          have hrefs := referencesAt_refsOf (hg.wf h hnamespaces).procs p.id
          obtain ⟨hp, -⟩ := procAtCursor_found h hproc
          obtain ⟨location, usages, hdefinition, husages⟩ := h.definitions p hp
          have hrefsOf : index'.procs.references.filter (fun r => r.id = p.id) =
              { location, id := p.id, type := .DEFINITION } :: usages := by
            rw [hg.procs, ← h.procs.refsOf_eq]
            exact hdefinition
          have hnone : usages.filter (fun r => r.type = .DEFINITION) = [] := by
            refine List.filter_eq_nil_iff.mpr fun r hr => ?_
            rw [husages r hr]
            decide
          rw [hrefsOf] at hrefs
          simp only [ok_bind, hrefs, pure_eq_ok, Except.map, Reply.first]
          rw [List.filter_cons_of_pos rfl, hnone, List.filter_true]
          rfl
    · rfl
  · rfl

/-! ## Where the index comes from -/

/-- The procs of the index are those of an accepted text, if any was parsed. -/
def Server.IndexFrom (interp : TclInterp) (s : Server) : Prop :=
  s.index.procs = makeIndex.procs ∨ ∃ uri text script result, (uri, text) ∈ s.accepted ∧
    ParsedFrom interp uri text script ∧ buildNew script = .ok result ∧
    s.index.procs = result.index.procs

theorem run_indexFrom (h : Run (RaceFree interp) .initial events s) : s.IndexFrom interp := by
  refine h.history (J := fun _ s => s.IndexFrom interp) (Or.inl rfl) ?_
  intro events s event s' hrun ih hfree
  have hstep := hfree.1
  have haccepted := step_accepted hstep
  rcases step_index (run_lastIndexed (run_raceFree hrun)).wf hstep with ⟨-, -, hg, -⟩ |
    ⟨uri, item, old, tree, result, rfl, hbuild, -, hparsed, hindex⟩
  · rcases ih with hinitial | ⟨uri, text, script, result, hmem, hparse, hbuild, hprocs⟩
    · exact Or.inl (hg.procs.trans hinitial)
    · exact Or.inr ⟨uri, text, script, result, haccepted.mem hmem, hparse, hbuild,
        hg.procs.trans hprocs⟩
  · have hitem : s'.parsed uri = some (item, tree) := by rw [hparsed, Function.update_self]
    obtain ⟨k, text, -, hk, hfile, hparse⟩ :=
      treeOf_installed hstep (run_faithful hrun).file (fun _ hfile hparses => hfile.parse hparses)
        item tree hitem
    rw [Tree.Parses, hfile] at hparse
    exact Or.inr ⟨uri, text, tree.script, result, haccepted.mem (List.mem_of_getElem? hk), hparse,
      hbuild, by rw [hindex]⟩

/-! ## Replies -/

/-- The keep of a request. -/
theorem request_answer_eq (request : Request) : request.answer = answer fun r =>
    request.method = .references ∨ r.type = .DEFINITION := by
  unfold Request.answer
  cases request.method with
  | references =>
    show answer _ = answer _
    congr 1
  | definition =>
    show answer _ = answer _
    congr 1
    funext r
    simp

/-- The text as a view of its file. -/
theorem ParsedFrom.view {uri text : Str} {script : Script} (h : ParsedFrom interp uri text script) :
    parseScript interp { file := makeSourceFile uri text, curNs := [] }
      ((makeSourceFile uri text).view 0 text.length) = .ok script := by
  have hview : (makeSourceFile uri text).view 0 text.length = { data := 0, bytes := text } := by
    simp [SourceFile.view, makeSourceFile]
  rw [hview]
  exact h

theorem ParsedFrom.exact {uri text : Str} {script : Script} (h : ParsedFrom interp uri text script)
    (hcontract : interp.Contract) (hinterp : interp.TokensNested) :
    ∀ word ∈ script.allWords, word.Exact (makeSourceFile uri text) := by
  have hfile : ({ file := makeSourceFile uri text, curNs := [] } : ParseContext).file =
      makeSourceFile uri text := rfl
  exact parseScript_exact hcontract hinterp hfile (Nat.zero_le _) h.view

/-- What is read for the names of files leaves the lines and columns as they are. -/
theorem read_reply {found : Reply} {remains : Remains} {locations : List Location}
    (h : found.read remains = .reply locations) : ∃ sent, found = .reply sent ∧
      locations.map Location.range = sent.map Location.range := by
  cases found with
  | reject => cases h
  | reply sent =>
    cases h
    refine ⟨sent, rfl, ?_⟩
    rw [List.map_map]
    exact (List.map_map (f := Prod.fst) (g := Location.range)).symm.trans
      (congrArg _ (List.zipIdx_map_fst 0 sent))

/-- The locations of a reply are references of one proc in the index of one text. -/
theorem reply_built (h : Run (RaceFree interp) .initial events s) {request : Request} {tree : Tree}
    {locations : List Location} (hreply : .reply request tree (.reply locations) ∈ events)
    (hne : locations ≠ []) : ∃ cursor command uri text script result p,
      findPositionInScript { line := request.position.line, column := request.position.character }
        tree.script = .ok cursor ∧
      cursor.word = some command ∧ cursor.argument = 0 ∧ (uri, text) ∈ s.accepted ∧
      ParsedFrom interp uri text script ∧ buildNew script = .ok result ∧
      p ∈ result.index.procs.table ∧
      (tree.HasContents → p.name = (splitName command.text.bytes).name) ∧
      locations.map Location.range =
        ((result.index.procs.references.filter fun r => r.id = p.id).filter fun r =>
          request.method = .references ∨ r.type = .DEFINITION).map fun r => r.toLocation.range := by
  obtain ⟨before, after, rfl⟩ := List.append_of_mem hreply
  obtain ⟨t, u, hbefore, hfree, hafter⟩ := h.split_cons
  have hstep := hfree.1
  have haccepted := (step_accepted hstep).trans (run_accepted (run_raceFree hafter))
  cases hstep with
  | reply waiting rest lookup remains _ index _ hcursors hanswers =>
    obtain ⟨_, _, -, hlookup⟩ :=
      (run_handled (run_raceFree hbefore)).cursors lookup (by simp [hcursors])
    obtain ⟨-, found, hanswer, hread⟩ := lookupAnswer_eq_ok.mp hanswers
    obtain ⟨sent, rfl, hranges⟩ := read_reply hread.symm
    have hsent : sent ≠ [] := by
      rintro rfl
      exact hne (List.map_eq_nil_iff.mp hranges)
    have hwf := (run_lastIndexed (run_raceFree hbefore)).wf
    rw [request_answer_eq] at hanswer
    obtain ⟨command, p, hword, hargument, hp, hname, rfl⟩ := answer_locations hwf hsent hanswer
    obtain ⟨written, hwritten, rfl⟩ := Option.map_eq_some_iff.mp hword
    rcases run_indexFrom hbefore with hinitial |
      ⟨uri, text, script, result, hmem, hparse, hbuild, hprocs⟩
    · rw [hinitial] at hp
      cases hp
    · rw [hprocs] at hp hranges
      refine ⟨lookup.cursor, written, uri, text, script, result, p, hlookup.cursor, hwritten, hargument,
        haccepted.mem hmem, hparse, hbuild, hp, fun hcontents => ?_, ?_⟩
      · rw [hname]
        simp only [Tree.read, if_pos hcontents]
      · rw [hranges, List.map_map]
        rfl

/-- In every run without a data race, the locations of a reply are all the references of one proc, the
one that the command word under the cursor names, in the index of one text that the server accepted:
each stands in that text at a word that ends in the name. -/
theorem reply_traces (hcontract : interp.Contract) (hinterp : interp.TokensNested)
    (h : Run (RaceFree interp) .initial events s) {request : Request} {tree : Tree}
    {locations : List Location} (hreply : .reply request tree (.reply locations) ∈ events)
    (hne : locations ≠ []) :
    ∃ command uri text script result p,
      Traces interp s.accepted request tree locations command uri text script result p := by
  obtain ⟨cursor, command, uri, text, script, result, p, hfound, hword, hargument, hmem, hparse, hbuild,
    hp, hname, hlocations⟩ := reply_built h hreply hne
  refine ⟨command, uri, text, script, result, p, ⟨cursor, hfound, hword, hargument⟩, hmem, hparse,
    hbuild, hp, hname, hlocations, ?_⟩
  intro r hr hid
  have hbuilt := buildNew_ok hbuild
  obtain ⟨p', word, hstands⟩ := hbuilt.standsAt hr
  obtain rfl : p' = p := by
    have hrow : result.index.procs.row p.id = some p := hbuilt.wf.procs.row_id hp
    rw [← hid] at hrow
    exact Except.ok.inj (hstands.proc.symm.trans (RefRecord.get_eq_ok.mpr hrow))
  exact ⟨word, hstands.inScript, hstands.location,
    hparse.exact hcontract hinterp word hstands.inScript, hstands.name⟩

/-- In every state that is reached, and for every cursor, a definition is answered in the same way as
the references, by the first of them alone; faults and rejections are the same. -/
theorem definition_first (h : Run (ServerStep interp) .initial events s) (cursor : ScriptCursor) :
    answerDefinition s.index cursor =
      (answerReferences s.index cursor).map fun (reply, index) => (reply.first, index) :=
  answerDefinition_eq (run_lastIndexed h).wf cursor

/-! ## A call of `f` -/

def callF : SourceFile := makeSourceFile (bytes "u") (bytes "proc f {} {};   f")

def callFParse : TclParse :=
  { commandStart := 0, commandSize := 13, commentSize := 0, numWords := 4, tokens :=
    [⟨.SIMPLE_WORD, 0, 4, 1⟩, ⟨.TEXT, 0, 4, 0⟩, ⟨.SIMPLE_WORD, 5, 1, 1⟩, ⟨.TEXT, 5, 1, 0⟩,
      ⟨.SIMPLE_WORD, 7, 2, 1⟩, ⟨.TEXT, 8, 0, 0⟩, ⟨.SIMPLE_WORD, 10, 2, 1⟩, ⟨.TEXT, 11, 0, 0⟩] }

def callFUseParse : TclParse :=
  { commandStart := 16, commandSize := 1, commentSize := 0, numWords := 1, tokens :=
    [⟨.SIMPLE_WORD, 16, 1, 1⟩, ⟨.TEXT, 16, 1, 0⟩] }

/-- The Tcl library on the two commands of that file. -/
def callFInterp : TclInterp where
  parseCommand view :=
    if view = callF.view 0 17 then some callFParse
    else if view = callF.view 13 4 then some callFUseParse
    else none
  findElement view :=
    if view.bytes = [] then some { element := view.data, next := view.data, size := 0 } else none

/-- There are no other commands and lists for this library. -/
theorem callF_parses {view : StringView} {parse : TclParse}
    (h : callFInterp.parseCommand view = some parse) :
    view = callF.view 0 17 ∧ parse = callFParse ∨ view = callF.view 13 4 ∧ parse = callFUseParse := by
  simp only [callFInterp] at h
  split at h
  · next hview =>
    cases h
    exact .inl ⟨hview, rfl⟩
  split at h
  · next hview =>
    cases h
    exact .inr ⟨hview, rfl⟩
  · cases h

theorem callF_elements {view : StringView} {found : ListElement}
    (h : callFInterp.findElement view = some found) :
    view.bytes = [] ∧ found = { element := view.data, next := view.data, size := 0 } := by
  simp only [callFInterp] at h
  split at h
  · next hempty =>
    cases h
    exact ⟨hempty, rfl⟩
  · cases h

theorem callF_contract : callFInterp.Contract := by
  constructor
  · intro script parse _ hparse
    rcases callF_parses hparse with ⟨rfl, rfl⟩ | ⟨rfl, rfl⟩
    · have hbody : WordTokens 17 9 1 [⟨.SIMPLE_WORD, 10, 2, 1⟩, ⟨.TEXT, 11, 0, 0⟩] :=
        .simple rfl rfl (by decide) rfl rfl ⟨by decide, by decide⟩ (.nil (by decide))
      have hargs : WordTokens 17 6 2 (⟨.SIMPLE_WORD, 7, 2, 1⟩ :: ⟨.TEXT, 8, 0, 0⟩ :: _) :=
        .simple rfl rfl (by decide) rfl rfl ⟨by decide, by decide⟩ hbody
      have hname : WordTokens 17 4 3 (⟨.SIMPLE_WORD, 5, 1, 1⟩ :: ⟨.TEXT, 5, 1, 0⟩ :: _) :=
        .simple rfl rfl (by decide) rfl rfl ⟨by decide, by decide⟩ hargs
      exact ⟨.simple rfl rfl (by decide) rfl rfl ⟨by decide, by decide⟩ hname, by decide, by decide⟩
    · have hword : WordTokens 17 13 1 callFUseParse.tokens :=
        .simple rfl rfl (by decide) rfl rfl ⟨by decide, by decide⟩ (.nil (by decide))
      exact ⟨hword, by decide, by decide⟩
  · intro list found hfound
    obtain ⟨hempty, rfl⟩ := callF_elements hfound
    refine ⟨Nat.le_refl _, Nat.le_refl _, Nat.le_add_right _ _, fun hlt => ?_⟩
    rw [hempty] at hlt
    exact absurd hlt (Nat.lt_irrefl _)

theorem callF_tokensNested : callFInterp.TokensNested := by
  constructor
  · intro script parse _ hparse
    rcases callF_parses hparse with ⟨rfl, rfl⟩ | ⟨rfl, rfl⟩
    · simp only [callFParse, wordGroups, List.take, List.drop]
      have hbody : GroupsNested 13 9 [[⟨.SIMPLE_WORD, 10, 2, 1⟩, ⟨.TEXT, 11, 0, 0⟩]] :=
        .simple rfl (by decide) (by decide) (by decide) (.nil (by decide))
      have hargs : GroupsNested 13 6 ([⟨.SIMPLE_WORD, 7, 2, 1⟩, ⟨.TEXT, 8, 0, 0⟩] :: _) :=
        .simple rfl (by decide) (by decide) (by decide) hbody
      have hname : GroupsNested 13 4 ([⟨.SIMPLE_WORD, 5, 1, 1⟩, ⟨.TEXT, 5, 1, 0⟩] :: _) :=
        .simple rfl (by decide) (by decide) (by decide) hargs
      exact .simple rfl (by decide) (by decide) (by decide) hname
    · simp only [callFUseParse, wordGroups, List.take, List.drop]
      exact .simple rfl (by decide) (by decide) (by decide) (.nil (by decide))
  · intro list found hfound
    obtain ⟨-, rfl⟩ := callF_elements hfound
    exact Nat.le_refl _

/-- The references of the proc that is called. -/
def referencesOfF : Request :=
  { method := .references, id := 1, uri := bytes "u", position := { line := 0, character := 16 } }

def referencesToF : List Reference :=
  [⟨⟨bytes "u", 5, 0, 5⟩, 1, .DEFINITION⟩, ⟨⟨bytes "u", 16, 0, 16⟩, 1, .USAGE⟩]

theorem callF_reparse : ∃ parsed cursor index, reparse callFInterp callF = .ok parsed ∧
    findPositionInScript { line := 0, column := 16 } parsed.script = .ok cursor ∧
    referencesOfF.answer parsed.index cursor =
      .ok (.reply (referencesToF.map Reference.toLocation), index) ∧
    parsed.index.procs.references = referencesToF := by
  have hreturns : returns (do
      let parsed ← reparse callFInterp callF
      let cursor ← findPositionInScript { line := 0, column := 16 } parsed.script
      let (reply, _) ← referencesOfF.answer parsed.index cursor
      return (reply, parsed.index.procs.references)) (fun answer => answer =
        (.reply (referencesToF.map Reference.toLocation), referencesToF)) = true := by decide +kernel
  obtain ⟨⟨reply, references⟩, hrun, hreply⟩ := exists_of_returns hreturns
  cases of_decide_eq_true hreply
  obtain ⟨parsed, hreparse, hrun⟩ := bind_eq_ok.mp hrun
  obtain ⟨cursor, hfind, hrun⟩ := bind_eq_ok.mp hrun
  obtain ⟨⟨reply, index⟩, hanswer, hrun⟩ := bind_eq_ok.mp hrun
  obtain ⟨rfl, hreferences⟩ := Prod.mk.inj (Except.ok.inj hrun)
  exact ⟨parsed, cursor, index, hreparse, hfind, hanswer, hreferences⟩

/-- The document is opened and parsed, and the references are asked for at the call. -/
theorem callF_answered : ∃ events more s t tree cursor index,
    Run (RaceFree callFInterp) .initial events s ∧ Run (RaceFree callFInterp) s more t ∧
    (∀ uri, .installed uri ∉ more) ∧ (installedUris events).getLast? = some (bytes "u") ∧
    (∃ document parsed, s.documents (bytes "u") = some document ∧ document.tree.HasContents ∧
      reparse callFInterp callF = .ok parsed ∧ document.script = parsed.script) ∧
    s.index.procs.references = referencesToF ∧
    referencesOfF.answer s.index cursor =
      .ok (.reply (referencesToF.map Reference.toLocation), index) ∧ tree.HasContents ∧
    ∃ locations, locations ≠ [] ∧ .reply referencesOfF tree (.reply locations) ∈ more := by
  obtain ⟨parsed, cursor, index, hreparse, hfind, hanswer, hreferences⟩ := callF_reparse
  set u := Server.initial.receive (.didOpen (openF 1 "proc f {} {};   f"))
  set installed := u.install (bytes "u") [] (newDocument (openF 1 "proc f {} {};   f")) parsed
  have hopen : RaceFree callFInterp .initial
      (.receive (.didOpen (openF 1 "proc f {} {};   f"))) u :=
    raceFree (.receive _ _ rfl (by simp [Message.locks])) (by simp)
  have hreparsed : Run (RaceFree callFInterp) u
      [.start (bytes "u"), .read (bytes "u"), .installed (bytes "u")] installed :=
    install_run rfl rfl rfl (openF_documents 1 "proc f {} {};   f") hreparse
  have hdoc : installed.documents referencesOfF.uri = _ := install_documents u _ [] _ parsed
  have hcontents : parsed.tree.HasContents := by
    rw [Tree.HasContents, (reparse_ok hreparse).1]
    decide
  have hread : referencesOfF.answer installed.index (cursor.read parsed.tree zeroed) = _ :=
    (congrArg _ (read_of_hasContents hcontents)).trans hanswer
  obtain ⟨t, -, hanswered⟩ := answer_run callFInterp _ zeroed rfl rfl hdoc hfind hread
  exact ⟨_, _, installed, t, parsed.tree, cursor, index, .cons hopen hreparsed, hanswered, by simp,
    rfl, ⟨_, parsed, hdoc, hcontents, hreparse, rfl⟩, hreferences, hanswer, hcontents, _,
    List.cons_ne_nil _ _, List.mem_cons_of_mem _ (List.mem_cons_of_mem _ List.mem_cons_self)⟩

theorem callF_traces : ∃ (s : Server) (tree : Tree) (locations : List Location)
    (command : Word) (uri text : Str) (script : Script) (result : BuildResult) (p : Proc),
    locations ≠ [] ∧ tree.HasContents ∧
    Traces callFInterp s.accepted referencesOfF tree locations command uri text script result p := by
  obtain ⟨events, more, s, t, tree, cursor, index, hrun, hmore, -, -, -, -, -, hcontents, locations,
    hne, hreply⟩ := callF_answered
  obtain ⟨command, uri, text, script, result, p, h⟩ := reply_traces callF_contract callF_tokensNested
    (hrun.append hmore) (List.mem_append_right _ hreply) hne
  exact ⟨t, tree, locations, command, uri, text, script, result, p, hne, hcontents, h⟩

/-- The definition alone is sent where both references are. -/
theorem callF_definition_first : ∃ (s : Server) (cursor : ScriptCursor) (index : Index),
    answerReferences s.index cursor =
      .ok (.reply (referencesToF.map Reference.toLocation), index) ∧
    answerDefinition s.index cursor =
      (answerReferences s.index cursor).map fun (reply, index) => (reply.first, index) := by
  obtain ⟨events, more, s, t, tree, cursor, index, hrun, -, -, -, -, -, hanswer, -⟩ := callF_answered
  exact ⟨s, cursor, index, hanswer, definition_first (run_raceFree hrun) cursor⟩

end TclAnalyzer
