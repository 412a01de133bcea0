import TclAnalyzer.Analyzer.Proofs.CursorProofs
import TclAnalyzer.Analyzer.Proofs.WalkProofs
import TclAnalyzer.Lsp.Proofs.InterferenceProofs

/-!
# Asking again at a usage

A usage in the index is the command word of a call. The search for its position ends at the command of
this call, and a request there is answered with the references of the proc that the usage is of.
-/

namespace TclAnalyzer

/-! ## The call at a position -/

/-- A part of a script as a node of its tree. -/
def Node.treeNode : Node → TreeNode
  | .script s => .script s
  | .call c => .call c
  | .word w => .word w

theorem nodeAt_cons {node child : TreeNode} {step : TreeStep} (h : childAt node step = some child)
    (path : TreePath) : nodeAt node (step :: path) = nodeAt child path := by
  rw [nodeAt, h, Option.bind_some]

/-- The path to the position of a call outside arrays leads to this call. -/
theorem Reaches.nodeAt_pathTo {node : Node} {path : Path} {pos : Pos} {site : Site Path}
    (h : Reaches indexPass path pos node site) :
    ∀ {rest : Pos}, node.Typed → site.pos = pos ++ rest → node.passesTo noArray rest = true →
      nodeAt node.treeNode (node.pathTo rest) = some (.call site.call) := by
  induction h with
  | @here _ pos call =>
    intro rest _ hpos _
    obtain rfl : rest = [] := List.append_right_eq_self.mp hpos.symm
    rfl
  | @command _ _ script i call _ hcall hreach ih =>
    intro rest htyped hpos hpasses
    obtain ⟨rest', rfl, hpos'⟩ := hreach.rest_cons hpos
    have hwords : (Node.call call).Typed := fun word hword =>
      Script.Typed.word htyped (List.mem_of_getElem? hcall) hword
    rw [Node.passesTo_cons (Script.child_eq hcall)] at hpasses
    have hchild : childAt (.script script) (.call i) = some (.call call) := by
      rw [childAt, hcall]
      rfl
    rw [Node.pathTo_cons (Script.child_eq hcall)]
    exact (nodeAt_cons hchild _).trans (ih hwords hpos' hpasses)
  | @word _ _ _ call k word _ hword _ hreach ih =>
    intro rest htyped hpos hpasses
    obtain ⟨rest', rfl, hpos'⟩ := hreach.rest_cons hpos
    rw [Node.passesTo_cons (Call.child_eq hword)] at hpasses
    have hchild : childAt (.call call) (.word k) = some (.word word) := by
      rw [childAt, hword]
      rfl
    rw [Node.pathTo_cons (Call.child_eq hword)]
    exact (nodeAt_cons hchild _).trans (ih (htyped word (List.mem_of_getElem? hword)) hpos' hpasses)
  | @nested _ _ _ word script _ hdata hdescend hreach ih =>
    intro rest htyped hpos hpasses
    obtain ⟨i, rest', rfl⟩ := hreach.rest_ne_nil hpos
    rw [Word.passesTo_script hdata, Bool.and_eq_true] at hpasses
    have hpath : (Node.word word).pathTo (i :: rest') =
        .script :: (Node.script script).pathTo (i :: rest') := by
      rw [Node.pathTo, Node.pathTo, Word.child_script hdata, Word.path_script hdata]
      rfl
    have hchild : childAt (.word word) .script = some (.script script) := by
      rw [childAt, hdata]
    rw [hpath]
    exact (nodeAt_cons hchild _).trans (ih (Word.Typed.script htyped hdata) hpos hpasses.2)
  | @component _ _ _ word k inner _ hinner hdescend hreach ih =>
    intro rest htyped hpos hpasses
    obtain ⟨rest', rfl, hpos'⟩ := hreach.rest_cons hpos
    rw [Node.passesTo_cons (Word.child_component hinner), Bool.and_eq_true] at hpasses
    obtain ⟨hnot, hpasses⟩ := hpasses
    have hmem : inner ∈ word.data.components := List.mem_of_getElem? hinner
    obtain ⟨words, hdata, -⟩ := Word.Typed.words_of_component htyped hmem
      (indexPass_descend hdescend (of_decide_eq_true hnot))
    have hget : words[k]? = some inner := by
      rw [hdata] at hinner
      exact hinner
    have hchild : childAt (.word word) (.component k) = some (.word inner) := by
      rw [childAt, hdata]
      dsimp only
      rw [hget]
      rfl
    rw [Node.pathTo_cons (Word.child_component hinner), Word.path_words hdata]
    exact (nodeAt_cons hchild _).trans (ih (Word.Typed.component htyped hmem) hpos' hpasses)

/-! ## The command under the cursor -/

/-- The steps to a part of a word do not end with a word of a call. -/
theorem Word.parts_not_concat {word leaf : Word} {place path : TreePath} {k : Nat}
    (h : (place, leaf) ∈ word.parts) : place ≠ path ++ [.word k] := by
  rintro rfl
  obtain ⟨n, hn⟩ := (Word.parts_path h).1 (.word k) (by simp)
  cases hn

theorem Argument.path_eq_concat {arg : Argument} {leaf : Word} {place callPath : TreePath} {k : Nat}
    (hmem : (place, leaf) ∈ arg.word.parts) (h : arg.path ++ place = callPath ++ [.word k]) :
    place = [] ∧ callPath = [.call arg.call] ∧ arg.argument = k := by
  rcases List.eq_nil_or_concat place with rfl | ⟨steps, step, rfl⟩
  · have hargument : [TreeStep.call arg.call] ++ [.word arg.argument] = callPath ++ [.word k] := by
      simpa [Argument.path] using h
    obtain ⟨rfl, hstep⟩ := List.append_inj' hargument rfl
    exact ⟨rfl, rfl, by simpa using hstep⟩
  · rw [List.concat_eq_append] at h hmem
    rw [← List.append_assoc] at h
    obtain ⟨-, hstep⟩ := List.append_inj' h rfl
    cases hstep
    exact absurd rfl (Word.parts_not_concat hmem)

/-- At a position in a command word that no component follows, the search ends with its call. -/
theorem Script.Leaf.found_command {ends : Word → Nat} {file : SourceFile} {offset : Nat} {pos : LinePos}
    {script : Script} {place : TreePath} {leaf : Word} {trailing : Bool}
    (hleaf : script.Leaf place leaf trailing) (hpos : offsetToLineByte file offset = .ok pos)
    (hge : leaf.text.data ≤ offset) (hlt : offset < ends leaf) (htext : leaf.type = .TEXT)
    (htrailing : trailing = true) :
    ∀ {path callPath : TreePath} {cursor : PlaceCursor}, script.Ordered ends file →
      place = callPath ++ [.word 0] → locateInScript pos path script = .ok cursor →
      cursor = { call := some (path ++ callPath), argument := 0, word := some (path ++ place) } := by
  induction hleaf with
  | @here _ arg before after place leaf harg hparts _ =>
    intro path callPath cursor horder hplace h
    have hmem : (place, leaf) ∈ arg.word.parts := by simp [hparts]
    obtain ⟨rfl, rfl, hzero⟩ := Argument.path_eq_concat hmem hplace
    have hleaf : arg.word = leaf := by
      have hnode := (Word.parts_path hmem).2
      cases hnode
      rfl
    have hparts : arg.word.parts = [] ++ ([], leaf) :: [] :=
      hleaf ▸ Word.parts_of_text (hleaf ▸ htext)
    obtain ⟨args, later, hargs⟩ := List.append_of_mem harg
    have hcomposite : leaf.isComposite = false := by simp [Word.isComposite, htext]
    have hreached : arg.word.reached pos = true :=
      ((horder.word arg harg).reached_iff_last hpos hparts hcomposite hge hlt).mpr rfl
    have hlast := horder.lastReached hpos hargs (hleaf ▸ hge) (hleaf ▸ hlt)
    have hended := locateInScript_ended h
    rw [hlast, if_pos hreached] at hended
    dsimp only at hended
    rw [hparts] at hended
    obtain ⟨found, hvisit, hended⟩ := bind_eq_ok.mp hended
    cases hended
    rcases visit_terminal hcomposite hvisit with ⟨-, rfl⟩ | ⟨inner, hscript, -, -⟩
    · simp [Argument.start, hzero]
    · cases htext.symm.trans hscript
  | @nested _ inner arg before after place innerPlace word leaf trailing harg hparts htype hdata hinner
      ih =>
    intro path callPath cursor horder hplace h
    obtain ⟨hafter, rfl⟩ : after.isEmpty = true ∧ trailing = true := by simpa using htrailing
    obtain ⟨hin, -, -⟩ := (horder.word arg harg).parts.part (place, word) (by simp [hparts])
    obtain ⟨hinnerOrder, hwords⟩ := Word.Ordered.script hin htype hdata
    obtain ⟨arg', harg', hge', hle'⟩ := hinner.span hinnerOrder
    obtain ⟨hge'', hle''⟩ := hwords arg' harg'
    have hcomposite : word.isComposite = false := by simp [Word.isComposite, htype]
    obtain ⟨hlast, -⟩ := locateInScript_part horder hpos harg hparts hcomposite
      (hge''.trans (hge'.trans hge)) (hlt.trans_le (hle'.trans hle'')) h
    obtain ⟨r, hvisit⟩ := hlast (List.isEmpty_iff.mp hafter)
    rcases visit_terminal hcomposite hvisit with ⟨hcontra, -⟩ | ⟨inner', -, hdata', hsearch⟩
    · exact absurd htype hcontra
    · cases hdata.symm.trans hdata'
      rcases List.eq_nil_or_concat innerPlace with rfl | ⟨innerPath, step, rfl⟩
      · obtain ⟨-, hstep⟩ := List.append_inj' hplace rfl
        cases hstep
      · have hsplit : arg.path ++ place ++ .script :: innerPath ++ [step] = callPath ++ [.word 0] := by
          simpa using hplace
        obtain ⟨rfl, hstep⟩ := List.append_inj' hsplit rfl
        cases hstep
        have hfound := ih hge hlt htext rfl hinnerOrder (List.concat_eq_append ..) hsearch
        rw [hfound]
        simp

/-! ## Requests -/

variable {interp : TclInterp} {events : List ServerEvent} {s : Server} {script : Script}
  {result : BuildResult} {v : Visit} {word : Word}

/-- The search for the place of a command word ends with its call. -/
theorem Visit.Askable.found (ha : v.Askable script result.index word)
    (hbuild : buildNew script = .ok result)
    (hv : v ∈ result.indexed) {file : SourceFile} (htyped : script.Typed)
    (horder : script.Ordered Word.stop file) :
    findPositionInScript { line := word.location.line, column := word.location.column } script =
      .ok { call := some v.call, argument := 0, word := some word } := by
  obtain ⟨site, hsite, hat⟩ := mem_of_forall₂_left (buildNew_ok hbuild).indexed hv
  have hreach : Reaches indexPass [] [] (.script script) site := mem_sitesScript.mp hsite
  have hpos : site.pos = [] ++ v.pos := hat.pos.symm
  have hword : site.call.words[0]? = some word := hat.call ▸ ha.command
  have hleaf : script.Leaf (script.pathTo v.pos ++ [.word 0]) word
      ((Node.script script).passesTo lastComponent v.pos) :=
    hreach.hasLeaf hword ha.text htyped hpos ha.outsideArrays
  have hplace := offsetToLineByte_of_makeSourceLocation (hleaf.ordered horder).located
  have hcall : nodeAt (.script script) (script.pathTo v.pos) = some (.call v.call) := by
    rw [hat.call]
    exact hreach.nodeAt_pathTo htyped hpos ha.outsideArrays
  obtain ⟨found, hfind⟩ := findPositionInScript_ok
    { line := word.location.line, column := word.location.column } script htyped
  rw [findPositionInScript_eq_locate] at hfind ⊢
  cases hlocate : locateInScript { line := word.location.line, column := word.location.column } []
      script with
  | error fault =>
    rw [hlocate] at hfind
    cases hfind
  | ok cursor =>
    have hcursor := hleaf.found_command hplace (Nat.le_refl _) word.start_lt_stop ha.text
      ha.inLastComponents horder rfl hlocate
    rw [hcursor]
    simp only [Except.map, PlaceCursor.cursor, List.nil_append, Option.bind_some,
      callAt_of_nodeAt hcall, wordAt_of_nodeAt hleaf.nodeAt]

/-- A request there is about the proc that was selected, in every index that has grown from the one that
was built. -/
theorem Visit.Askable.answered (ha : v.Askable script result.index word)
    (hbuild : buildNew script = .ok result) (hv : v ∈ result.indexed) {index : Index} (h : index.WF)
    (hg : result.index.Grows index) {id : Nat} (hfit : v.fit = some id) (keep : Reference → Bool) :
    (answer keep index { call := some v.call, argument := 0, word := some word }).map Prod.fst =
      .ok (.reply (((index.procs.references.filter fun r => r.id = id).filter keep).map
        Reference.toLocation)) := by
  have hbuilt := buildNew_ok hbuild
  obtain ⟨site, hsite, hat⟩ := mem_of_forall₂_left hbuilt.indexed hv
  obtain ⟨p, hselected, hid⟩ := Option.map_eq_some_iff.mp (hat.fit.symm.trans hfit)
  have huser : site.call.type = .USER := by
    by_contra hother
    rw [Index.selected, if_neg hother] at hselected
    cases hselected
  obtain ⟨path, hparts, hpath⟩ := findNamespace_atPath hbuilt.wf.namespaces ha.ns
  obtain rfl := Index.atPath_injective hbuilt.wf.namespaces hat.ns hpath
  have hword : site.call.words[0]? = some word := hat.call ▸ ha.command
  obtain ⟨parts, hname⟩ := hat.parts huser
  rw [wordText_eq hword] at hname
  rw [Index.selected, if_pos huser, wordText_eq hword, ← hat.call] at hselected
  rw [answer_command h rfl rfl ⟨ha.text, rfl⟩, commandProc_there (findNamespace_absolute ha.ns) hparts
    (hg.atPath hbuilt.wf.namespaces hpath), hg.nearest hbuilt.wf h.namespaces, hselected, hname, ← hid]
  rfl

theorem ParsedFrom.ordered {uri text : Str} (h : ParsedFrom interp uri text script)
    (hcontract : interp.Contract) (horder : interp.InOrder) :
    script.Ordered Word.stop (makeSourceFile uri text) := by
  have hfile : ({ file := makeSourceFile uri text, curNs := [] } : ParseContext).file =
      makeSourceFile uri text := rfl
  exact parseScript_ordered hcontract horder hfile (Nat.zero_le _) h.view

theorem initial_ordered (file : SourceFile) : Script.initial.Ordered Word.stop file where
  word _ harg := absurd harg List.not_mem_nil
  order := List.Pairwise.nil

/-- The trees of the server are in source order. -/
theorem run_ordered (hcontract : interp.Contract) (horder : interp.InOrder)
    (h : Run (ServerStep interp) .initial events s) {uri : Str} {item : TextDocumentItem} {tree : Tree}
    (hitem : s.parsed uri = some (item, tree)) :
    tree.script.Typed ∧ ∃ file, tree.script.Ordered Word.stop file := by
  rcases (run_sourced h).tree item tree hitem with rfl | ⟨text, hfile, hparse⟩
  · exact ⟨Script.initial_typed _, _, initial_ordered (makeSourceFile [] [])⟩
  · rw [Tree.Parses, hfile] at hparse
    exact ⟨parseScript_typed hparse, _, ParsedFrom.ordered hparse hcontract horder⟩

/-- A reply that is sent has the lines and columns of what was found. -/
theorem Lookup.answer_of_found (lookup : Lookup) (remains : Remains) {sent : List Location}
    (hgood : s.treeNumber lookup.request.uri = some lookup.number)
    (hfound : (lookup.request.answer s.index (lookup.cursor.read lookup.tree remains)).map Prod.fst =
      .ok (.reply sent)) :
    ∃ locations index, lookup.answer s remains = .ok (.reply locations, index) ∧
      locations.map Location.range = sent.map Location.range := by
  cases hanswer : lookup.request.answer s.index (lookup.cursor.read lookup.tree remains) with
  | error fault =>
    rw [hanswer] at hfound
    cases hfound
  | ok answer =>
    obtain ⟨found, index⟩ := answer
    rw [hanswer] at hfound
    cases hfound
    obtain ⟨_, hsent, hranges⟩ := read_reply (rfl : (Reply.reply sent).read remains = .reply _)
    cases hsent
    exact ⟨_, index, lookupAnswer_eq_ok.mpr ⟨fun _ => hgood, _, hanswer, rfl⟩, hranges⟩

/-- Every usage in the index can be asked about again where it stands: as long as the document that was
installed last is there and the contents of its tree are, the search for the place of a usage leads to
its call, unless the call is in the index of an array or in front of a component, and the answer is
about the proc of the usage, unless the string in the call names another namespace. -/
theorem usages_answered (hcontract : interp.Contract) (horder : interp.InOrder)
    (h : Run (ServerStep interp) .initial events s) {uri : Str}
    (hlast : (installedUris events).getLast? = some uri) :
    ∃ document result, s.documents uri = some document ∧ buildNew document.script = .ok result ∧
      ∀ r ∈ s.index.procs.references, r.type = .USAGE → ∃ v ∈ result.indexed, ∃ word,
        v.call.words[0]? = some word ∧ word.location = r.location ∧ v.fit = some r.id ∧
        (document.tree.HasContents → v.Askable document.script result.index word →
          ∀ request : Request, request.uri = uri →
            request.position = { line := r.location.line, character := r.location.column } →
            ∃ lookup, getLookup s request = .ok lookup ∧
              lookup.cursor = { call := some v.call, argument := 0, word := some word } ∧
              ∀ remains, ∃ locations index,
                lookup.answer s remains = .ok (.reply locations, index) ∧
                locations.map Location.range =
                  ((s.index.procs.references.filter fun r' => r'.id = r.id).filter fun r' =>
                    request.method = .references ∨ r'.type = .DEFINITION).map
                      fun r' => r'.toLocation.range) := by
  have hindexed := run_lastIndexed h
  obtain ⟨item, tree, result, hitem, hbuild, hg, -⟩ := hindexed.last uri hlast
  obtain ⟨document, hdoc, -, rfl⟩ := parsed_eq_some.mp hitem
  have hbuild : buildNew document.script = .ok result := hbuild
  refine ⟨document, result, hdoc, hbuild, fun r hr husage => ?_⟩
  have hbuilt := buildNew_ok hbuild
  rw [hg.procs] at hr
  obtain ⟨regs, -, -, hrefs⟩ := hbuilt.procs
  rw [hrefs] at hr
  rcases List.mem_append.mp hr with hdefinition | hsite
  · obtain ⟨reg, -, rfl⟩ := List.mem_map.mp hdefinition
    cases husage
  obtain ⟨site, hsite, hr⟩ := List.mem_filterMap.mp hsite
  obtain ⟨p, hselected, hlocation, hid, -⟩ := usageOf_eq_some.mp hr
  obtain ⟨v, hv, hat⟩ := mem_of_forall₂_right hbuilt.indexed hsite
  obtain ⟨word, hword, hplace⟩ := Option.map_eq_some_iff.mp hlocation
  have hfit : v.fit = some r.id := by rw [hat.fit, hselected, ← hid]; rfl
  refine ⟨v, hv, word, hat.call.symm ▸ hword, hplace, hfit, ?_⟩
  intro hcontents ha request huri hposition
  obtain ⟨htyped, file, hordered⟩ := run_ordered hcontract horder h hitem
  have hfind := ha.found hbuild hv htyped hordered
  have hlookup : getLookup s request = .ok
      { request, tree := document.tree, number := document.trees
        cursor := { call := some v.call, argument := 0, word := some word } } := by
    refine getLookup_eq_ok.mpr ⟨document, huri ▸ hdoc, ?_, rfl, rfl, rfl⟩
    rw [hposition]
    exact hplace ▸ hfind
  refine ⟨_, hlookup, rfl, fun remains => ?_⟩
  have hgood : s.treeNumber request.uri = some document.trees :=
    treeNumber_eq_some.mpr ⟨document, huri ▸ hdoc, rfl⟩
  have hanswered := ha.answered hbuild hv hindexed.wf hg hfit fun r' =>
    request.method = .references ∨ r'.type = .DEFINITION
  rw [← request_answer_eq] at hanswered
  set lookup : Lookup :=
    { request, tree := document.tree, number := document.trees
      cursor := { call := some v.call, argument := 0, word := some word } }
  have hread : lookup.cursor.read lookup.tree remains = lookup.cursor := read_of_hasContents hcontents
  obtain ⟨locations, index, hanswer, hranges⟩ := lookup.answer_of_found remains hgood
    (by rw [hread]; exact hanswered)
  refine ⟨locations, index, hanswer, ?_⟩
  rw [hranges, List.map_map]
  rfl

theorem callF_inOrder : callFInterp.InOrder := by
  intro script parse _ hparse
  rcases callF_parses hparse with ⟨rfl, rfl⟩ | ⟨rfl, rfl⟩
  · simp only [callFParse, wordGroups, List.take, List.drop]
    have hbody : GroupsInOrder 13 9 [[⟨.SIMPLE_WORD, 10, 2, 1⟩, ⟨.TEXT, 11, 0, 0⟩]] :=
      .simple rfl (by decide) (by decide) (by decide) (.nil (by decide))
    have hargs : GroupsInOrder 13 6 ([⟨.SIMPLE_WORD, 7, 2, 1⟩, ⟨.TEXT, 8, 0, 0⟩] :: _) :=
      .simple rfl (by decide) (by decide) (by decide) hbody
    have hname : GroupsInOrder 13 4 ([⟨.SIMPLE_WORD, 5, 1, 1⟩, ⟨.TEXT, 5, 1, 0⟩] :: _) :=
      .simple rfl (by decide) (by decide) (by decide) hargs
    exact .simple rfl (by decide) (by decide) (by decide) hname
  · simp only [callFUseParse, wordGroups, List.take, List.drop]
    exact .simple rfl (by decide) (by decide) (by decide) (.nil (by decide))

/-- Its calls are at the top, and named by the strings in them. -/
theorem callF_askable {parsed : Parsed} {result : BuildResult}
    (hreparse : reparse callFInterp callF = .ok parsed) (hbuild : buildNew parsed.script = .ok result) :
    ∀ v ∈ result.indexed, ∀ word, v.call.words[0]? = some word →
      v.Askable parsed.script result.index word := by
  have hreturns : returns (do
      let parsed ← reparse callFInterp callF
      let result ← buildNew parsed.script
      return (parsed, result)) (fun (parsed, result) => ∀ v ∈ result.indexed,
        (v.call.words[0]?.map Word.type).getD .TEXT = .TEXT ∧ parsed.script.OutsideArrays v.pos ∧
        parsed.script.InLastComponents v.pos ∧
        returns (findNamespace result.index v.call.ns) fun ns => ns = some v.ns) = true := by
    decide +kernel
  obtain ⟨⟨parsed', result'⟩, hrun, htest⟩ := exists_of_returns hreturns
  rw [hreparse, ok_bind, hbuild] at hrun
  cases hrun
  intro v hv word hword
  obtain ⟨htype, harrays, hlast, hns⟩ := of_decide_eq_true htest v hv
  rw [hword] at htype
  obtain ⟨ns, hfind, hsame⟩ := exists_of_returns hns
  exact ⟨hword, htype, harrays, hlast, of_decide_eq_true hsame ▸ hfind⟩

/-- The references of `f` are sent where its call stands. -/
theorem callF_usages_answered : ∃ s : Server, ∃ r ∈ s.index.procs.references, r.type = .USAGE ∧
    ∃ lookup, getLookup s { referencesOfF with
        position := { line := r.location.line, character := r.location.column } } = .ok lookup ∧
      ∀ remains, ∃ locations index, lookup.answer s remains = .ok (.reply locations, index) ∧
        locations.map Location.range = referencesToF.map fun r' => r'.toLocation.range := by
  obtain ⟨events, more, s, t, tree, cursor, index, hrun, -, -, hlast,
    ⟨document, parsed, hdoc, hcontents, hreparse, hscript⟩, hreferences, -⟩ := callF_answered
  obtain ⟨document', result, hdoc', hbuild, hanswered⟩ :=
    usages_answered callF_contract callF_inOrder (run_raceFree hrun) hlast
  cases hdoc.symm.trans hdoc'
  have hmem : (⟨⟨bytes "u", 16, 0, 16⟩, 1, .USAGE⟩ : Reference) ∈ s.index.procs.references := by
    rw [hreferences]
    exact List.mem_cons_of_mem _ List.mem_cons_self
  obtain ⟨v, hv, word, hword, -, -, hreplies⟩ := hanswered _ hmem rfl
  have ha := callF_askable hreparse (hscript ▸ hbuild) v hv word hword
  obtain ⟨lookup, hlookup, -, hreply⟩ := hreplies hcontents (hscript ▸ ha)
    { referencesOfF with position := { line := 0, character := 16 } } rfl rfl
  refine ⟨s, _, hmem, rfl, lookup, hlookup, fun remains => ?_⟩
  obtain ⟨locations, index, hanswer, hranges⟩ := hreply remains
  refine ⟨locations, index, hanswer, ?_⟩
  rw [hranges, hreferences]
  rfl

end TclAnalyzer
