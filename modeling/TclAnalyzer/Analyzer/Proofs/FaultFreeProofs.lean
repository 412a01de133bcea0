import TclAnalyzer.Analyzer.Proofs.ArgumentsProofs
import TclAnalyzer.Analyzer.Proofs.BuildProofs
import TclAnalyzer.Analyzer.Proofs.CompletionProofs
import TclAnalyzer.Analyzer.Proofs.ContractProofs
import TclAnalyzer.Analyzer.Proofs.NameProofs
import TclAnalyzer.Analyzer.Proofs.TypedProofs

/-!
# Parsing and indexing without faults

The two passes over a parse tree meet the data and the words that its tags promise, and the index
they work on is sound, so that only a name without parts or a list without elements stops them.
-/

namespace TclAnalyzer

variable {interp : TclInterp} {context : ParseContext} {fileName contents : Str} {index : Index}

/-! ## Names -/

/-- Only an absolute name with a namespace of one byte has no parts. -/
theorem namespaceParts_exists {qn : QualifiedName}
    (h : qn.absolute = true → ∀ ns, qn.ns = some ns → ns.length ≠ 1) :
    ∃ parts, qn.namespaceParts = .ok parts := by
  unfold QualifiedName.namespaceParts
  split
  · exact ⟨[], rfl⟩
  · next ns hns =>
    split
    · next habs =>
      have hone := h habs.1 ns hns
      have hpos := List.length_pos_iff.mpr habs.2
      rw [if_neg (by omega)]
      exact ⟨_, rfl⟩
    · split
      · exact ⟨_, rfl⟩
      · exact ⟨_, rfl⟩

theorem splitName_parts {name : Str} (h : ¬ HasColonRun name) :
    ∃ parts, (splitName name).namespaceParts = .ok parts := by
  refine namespaceParts_exists fun habs ns hns hone => ?_
  rcases splitName_cases name with ⟨-, hsplit⟩ | ⟨-, -, hsplit⟩ | ⟨ns', last, rfl, hfree, hne⟩
  · rw [hsplit] at hns
    cases hns
    cases hone
  · rw [hsplit] at hns
    cases hns
  · rw [splitName_append hfree hne] at habs hns
    cases hns
    obtain ⟨c, rfl⟩ := List.length_eq_one_iff.mp hone
    have htake := of_decide_eq_true habs
    obtain rfl : c = colon := (List.cons.inj htake).1
    exact h ⟨[], last, rfl⟩

/-! ## Calls -/

/-- The call is a `proc` that `AddProcToIndex` registers, or no `proc`. -/
def Call.Scannable (call : Call) : Prop :=
  call.type = .PROC → (∃ parts, (splitName (call.wordText 1)).namespaceParts = .ok parts) ∧
    call.ElementsNonempty

/-- The name that `IndexScript` splits for the call, if any, has parts. -/
structure Call.Indexable (call : Call) : Prop where
  proc : call.type = .PROC → ∃ parts, (splitName (call.wordText 1)).namespaceParts = .ok parts
  user : call.type = .USER → ∃ parts, (splitName (call.wordText 0)).namespaceParts = .ok parts

theorem exists_nth {α : Type} {l : List α} {i : Nat} (h : i < l.length) : ∃ a, nth l i = .ok a :=
  ⟨l[i], nth_eq_ok.mpr (List.getElem?_eq_getElem h)⟩

theorem addArguments_exists {args : List Word} (helement : ∀ arg ∈ args, arg.IsElement)
    (hnonempty : ∀ arg ∈ args, arg.data ≠ .words []) (proc : Proc) :
    ∃ result, addArguments index proc args = .ok result := by
  induction args generalizing index proc with
  | nil => exact ⟨_, rfl⟩
  | cons arg args ih =>
    rw [addArguments]
    rcases addArgument_element (helement arg List.mem_cons_self) proc args.isEmpty with
      ⟨hempty, -⟩ | ⟨-, ⟨counted, name⟩, hcounted⟩
    · exact absurd hempty (hnonempty arg List.mem_cons_self)
    exact exists_bind_eq_ok.mpr ⟨_, hcounted,
      ih (fun a ha => helement a (List.mem_cons_of_mem arg ha))
        (fun a ha => hnonempty a (List.mem_cons_of_mem arg ha)) _⟩

/-- `AddProcToIndex` registers the proc, or its name has no parts. -/
theorem addProcToIndex_cases (h : index.WF) {path : Path} {ns : Nat}
    (hns : index.atPath path = some ns) {call : Call} (hshaped : call.Shaped)
    (hproc : call.type = .PROC) (helements : call.ElementsNonempty) :
    (∃ index', addProcToIndex index ns call.words = .ok index') ∨
      ∃ fault, (splitName (call.wordText 1)).namespaceParts = .error fault ∧
        addProcToIndex index ns call.words = .error fault := by
  have hlength := hshaped.body (.inl hproc)
  obtain ⟨name, hname⟩ := exists_nth (show 1 < call.words.length by omega)
  obtain ⟨args, hargs⟩ := exists_nth (show 2 < call.words.length by omega)
  have hargsword := nth_eq_ok.mp hargs
  have hadd : ∀ proc, ∃ result, addArgumentWord index proc args = .ok result := by
    intro proc
    unfold addArgumentWord
    by_cases hlist : args.type = .LIST
    · obtain ⟨vec, hdata, helement⟩ := hshaped.arguments args hproc hargsword hlist
      rw [if_pos hlist, hdata]
      exact addArguments_exists helement (helements args vec hargsword hlist hdata) proc
    · rw [if_neg hlist]
      exact ⟨_, rfl⟩
  obtain ⟨⟨proc, index1⟩, hresult⟩ := hadd
    { id := 0, name := (splitName name.text.bytes).name, arguments := [], isVariadic := false,
      requiredArgs := 0, optionalArgs := 0, parentNamespace := 0 }
  rw [wordText_eq (nth_eq_ok.mp hname), addProcToIndex, hname]
  simp only [ok_bind, hargs, hresult]
  obtain ⟨-, -, vars, rfl⟩ := addArgumentWord_ok hresult
  have hns1 : { index with vars }.atPath path = some ns := hns
  rcases resolveQualified_spec (withVars_wf h).namespaces (splitName name.text.bytes) hns1 with
    ⟨-, target, index2, -, hresolved, -⟩ | ⟨fault, hfault, hresolved⟩
  · exact Or.inl (exists_bind_eq_ok.mpr ⟨_, hresolved, _, rfl⟩)
  · refine Or.inr ⟨fault, hfault, ?_⟩
    rw [hresolved]
    rfl

/-- The proc for a call is selected, or its name has no parts. -/
theorem indexUsage_cases (h : index.WF) {path : Path} {ns : Nat} (hns : index.atPath path = some ns)
    {call : Call} (hshaped : call.Shaped) :
    (∃ result, indexUsage index ns call = .ok result) ∨
      ∃ fault, (splitName (call.wordText 0)).namespaceParts = .error fault ∧
        indexUsage index ns call = .error fault := by
  obtain ⟨word, hword⟩ := exists_nth (List.length_pos_iff.mpr hshaped.command)
  rw [wordText_eq (nth_eq_ok.mp hword), indexUsage, hword]
  rcases findProc_spec h hns word.text.bytes with ⟨-, index', -, hfound, -⟩ | ⟨fault, hfault, hfound⟩
  · left
    simp only [ok_bind, hfound]
    split
    · exact ⟨_, rfl⟩
    · exact ⟨_, rfl⟩
  · refine Or.inr ⟨fault, hfault, ?_⟩
    simp only [ok_bind, hfound]
    rfl

/-! ## Turns -/

section Turn

variable {st : PassState} {site : Site Path}

theorem resolveNamespace_eval_exists (h : index.NamespacesWF) {path : Path} {ns : Nat}
    (hns : index.atPath path = some ns) {call : Call} (hshaped : call.Shaped)
    (heval : call.type = .NAMESPACE_EVAL) : ∃ word result, nth call.words 2 = .ok word ∧
      resolveNamespace index (namespaceEvalName word) ns = .ok result := by
  have hlength := hshaped.body (.inr heval)
  obtain ⟨word, hword⟩ := exists_nth (show 2 < call.words.length by omega)
  have hparts : (namespaceEvalName word).namespaceParts = .ok (splitPath word.text.bytes) := rfl
  obtain ⟨result, hresult⟩ := resolveNamespace_completes h hparts hns
  exact ⟨word, result, hword, hresult⟩

/-- A turn of `ScanScript` in a namespace that exists returns, or is at a `proc` whose name has no
parts. -/
theorem scanVisit_cases (h : st.index.WF) (hscope : st.index.HasPath site.scope)
    (hshaped : site.call.Shaped) (helements : site.call.type = .PROC → site.call.ElementsNonempty) :
    (∃ st', scanVisit st site = .ok st') ∨ ∃ fault, site.call.type = .PROC ∧
      (splitName (site.call.wordText 1)).namespaceParts = .error fault ∧
      scanVisit st site = .error fault := by
  obtain ⟨ns, hns⟩ := hscope
  obtain ⟨pos, ⟨type, words, callNs⟩, path⟩ := site
  cases type with
  | NAMESPACE_EVAL =>
    obtain ⟨word, result, hword, hresult⟩ := resolveNamespace_eval_exists h.namespaces hns hshaped rfl
    rw [scanVisit_eval hns]
    exact Or.inl ⟨_, bind_eq_ok.mpr ⟨word, hword, bind_eq_ok.mpr ⟨result, hresult, rfl⟩⟩⟩
  | PROC =>
    rw [scanVisit_proc hns]
    rcases addProcToIndex_cases h hns hshaped rfl (helements rfl) with
      ⟨index', hadd⟩ | ⟨fault, hfault, hadd⟩
    · exact Or.inl ⟨_, bind_eq_ok.mpr ⟨index', hadd, rfl⟩⟩
    · refine Or.inr ⟨fault, rfl, hfault, ?_⟩
      dsimp only at hadd
      rw [hadd]
      rfl
  | WHILE | FOR | FOREACH | IF | USER => exact Or.inl ⟨_, scanVisit_other hns (by simp) (by simp)⟩

/-- A turn of `IndexScript` in a namespace that exists returns, or is at a call of which it splits a
name without parts. -/
theorem indexVisit_cases (h : st.index.WF) (hscope : st.index.HasPath site.scope)
    (hshaped : site.call.Shaped) :
    (∃ st', indexVisit st site = .ok st') ∨ ∃ k fault,
      (site.call.type = .PROC ∧ k = 1 ∨ site.call.type = .USER ∧ k = 0) ∧
      (splitName (site.call.wordText k)).namespaceParts = .error fault ∧
      indexVisit st site = .error fault := by
  obtain ⟨ns, hns⟩ := hscope
  obtain ⟨pos, ⟨type, words, callNs⟩, path⟩ := site
  cases type with
  | NAMESPACE_EVAL =>
    obtain ⟨word, result, hword, hresult⟩ := resolveNamespace_eval_exists h.namespaces hns hshaped rfl
    rw [indexVisit_eval hns]
    exact Or.inl ⟨_, bind_eq_ok.mpr ⟨word, hword, bind_eq_ok.mpr ⟨result, hresult, rfl⟩⟩⟩
  | PROC =>
    have hlength : 3 < words.length := hshaped.body (.inl rfl)
    obtain ⟨word, hword⟩ := exists_nth (show 1 < words.length by omega)
    rw [indexVisit_proc hns, hword]
    rcases resolveNamespace_spec h.namespaces (splitName word.text.bytes) hns with
      ⟨-, ns', index', -, hresolved, -⟩ | ⟨fault, hfault, hresolved⟩
    · exact Or.inl ⟨_, bind_eq_ok.mpr ⟨word, rfl, bind_eq_ok.mpr ⟨_, hresolved, rfl⟩⟩⟩
    · refine Or.inr ⟨1, fault, Or.inl ⟨rfl, rfl⟩, ?_, ?_⟩
      · rwa [wordText_eq (nth_eq_ok.mp hword)]
      · simp only [ok_bind, hresolved]
        rfl
  | USER =>
    rw [indexVisit_user hns]
    rcases indexUsage_cases h hns hshaped with ⟨result, hu⟩ | ⟨fault, hfault, hu⟩
    · exact Or.inl ⟨_, bind_eq_ok.mpr ⟨result, hu, rfl⟩⟩
    · refine Or.inr ⟨0, fault, Or.inr ⟨rfl, rfl⟩, hfault, ?_⟩
      rw [hu]
      rfl
  | WHILE | FOR | FOREACH | IF =>
    exact Or.inl ⟨_, indexVisit_other hns (by simp) (by simp) (by simp)⟩

theorem Call.Scannable.passes (h : site.call.Scannable) (hshaped : site.call.Shaped) :
    Passes scanVisit site := by
  intro st hwf hscope
  rcases scanVisit_cases hwf hscope hshaped fun hproc => (h hproc).2 with hok | ⟨fault, hproc, hfault, -⟩
  · exact hok
  · obtain ⟨⟨parts, hparts⟩, -⟩ := h hproc
    cases hparts.symm.trans hfault

theorem Call.Indexable.passes (h : site.call.Indexable) (hshaped : site.call.Shaped) :
    Passes indexVisit site := by
  intro st hwf hscope
  rcases indexVisit_cases hwf hscope hshaped with hok | ⟨k, fault, ⟨hproc, rfl⟩ | ⟨huser, rfl⟩, hfault, -⟩
  · exact hok
  · obtain ⟨parts, hparts⟩ := h.proc hproc
    cases hparts.symm.trans hfault
  · obtain ⟨parts, hparts⟩ := h.user huser
    cases hparts.symm.trans hfault

end Turn

/-! ## `Build` -/

section Build

variable {script : Script} {st : PassState}

theorem Index.hasPath_root (index : Index) : ∀ path, path = [] → index.HasPath path := by
  rintro _ rfl
  exact ⟨_, rfl⟩

theorem scanSites_rooted (script : Script) : RootedIn scanPass (· = []) script.scanSites :=
  sitesScript_rooted scanPass_steady script [] []

theorem indexSites_rooted (script : Script) : RootedIn indexPass (· = []) script.indexSites :=
  sitesScript_rooted indexPass_steady script [] []

theorem scanSites_shaped (htyped : script.Typed) : ∀ site ∈ script.scanSites, site.call.Shaped :=
  fun _ hsite => (sitesScript_reaches script hsite).shaped htyped

theorem indexSites_shaped (htyped : script.Typed) : ∀ site ∈ script.indexSites, site.call.Shaped :=
  fun _ hsite => (sitesScript_reaches script hsite).shaped htyped

/-- On a tree with the promised data `Build` is its two loops, also where they fail. -/
theorem buildNew_typed (htyped : script.Typed) : buildNew script = (do
    let scan ← script.scanSites.foldlM scanVisit { index := makeIndex, visits := [] }
    let indexed ← script.indexSites.foldlM indexVisit { index := scan.index, visits := [] }
    return { index := indexed.index, scanned := scan.visits, indexed := indexed.visits }) := by
  have hnew : ({ index := makeIndex, visits := [] } : PassState).index.WF := makeIndex_wf
  show (scanScript _ _ [] script >>= _) = _
  rw [scanScript_typed htyped hnew makeIndex_at, Script.scanSites]
  cases hscan : (sitesScript scanPass [] [] script).foldlM scanVisit { index := makeIndex, visits := [] } with
  | error fault => rfl
  | ok scan =>
    have hscanned := scanVisits_ok hnew hscan
    have hstart : ({ index := scan.index, visits := [] } : PassState).index.WF := hscanned.wf
    have hat := makeIndex_at.mono hscanned.extended makeIndex_wf.namespaces
    simp only [ok_bind, indexScript_typed htyped hstart hat, Script.indexSites]

/-- `Build` on a tree with the promised data: names without a run of colons and lists with elements are
all it needs. -/
theorem buildNew_exists (htyped : script.Typed)
    (hnames : ∀ name ∈ script.splitNames, ¬ HasColonRun name)
    (helements : ∀ site ∈ procSites script.scanSites, site.call.ElementsNonempty) :
    ∃ result, buildNew script = .ok result := by
  have hproc : ∀ site ∈ script.scanSites ++ script.indexSites, site.call.type = .PROC →
      ∃ parts, (splitName (site.call.wordText 1)).namespaceParts = .ok parts := by
    intro site hsite htype
    refine splitName_parts (hnames _ (List.mem_append_left _ (List.mem_map.mpr ⟨site, ?_, rfl⟩)))
    exact List.mem_filter.mpr ⟨hsite, decide_eq_true htype⟩
  have huser : ∀ site ∈ script.indexSites, site.call.type = .USER →
      ∃ parts, (splitName (site.call.wordText 0)).namespaceParts = .ok parts := by
    intro site hsite htype
    refine splitName_parts (hnames _ (List.mem_append_right _ (List.mem_map.mpr ⟨site, ?_, rfl⟩)))
    exact List.mem_filter.mpr ⟨hsite, decide_eq_true htype⟩
  have hscannable : ∀ site ∈ script.scanSites, site.call.Scannable := by
    intro site hsite htype
    exact ⟨hproc site (List.mem_append_left _ hsite) htype,
      helements site (List.mem_filter.mpr ⟨hsite, decide_eq_true htype⟩)⟩
  have hindexable : ∀ site ∈ script.indexSites, site.call.Indexable := fun site hsite =>
    ⟨hproc site (List.mem_append_right _ hsite), huser site hsite⟩
  have hnew : ({ index := makeIndex, visits := [] } : PassState).index.WF := makeIndex_wf
  obtain ⟨scan, hscan⟩ := scanTurns.loop_exists hnew (Index.hasPath_root _) (scanSites_rooted script)
    fun site hsite => (hscannable site hsite).passes (scanSites_shaped htyped site hsite)
  have hstart : ({ index := scan.index, visits := [] } : PassState).index.WF :=
    (scanTurns.loop hnew hscan).1
  obtain ⟨indexed, hindexed⟩ :=
    indexTurns.loop_exists hstart (Index.hasPath_root _) (indexSites_rooted script)
      fun site hsite => (hindexable site hsite).passes (indexSites_shaped htyped site hsite)
  rw [buildNew_typed htyped]
  exact exists_bind_eq_ok.mpr ⟨scan, hscan, exists_bind_eq_ok.mpr ⟨indexed, hindexed, _, rfl⟩⟩

/-! ## Exceptions -/

end Build

/-! ## Parsing and `Build` -/

/-- `ParseScript` on tokens that keep the contract returns a tree in which every position can be looked
up, and `Build` returns on the tree when no name has a run of colons and no list of arguments has an
element without elements. -/
theorem parseScript_buildNew_ok (hcontract : interp.Contract)
    (hfile : context.file = makeSourceFile fileName contents) {data : Nat}
    (hdata : data ≤ contents.length) (size : Nat) :
    ∃ script, parseScript interp context (context.file.view data size) = .ok script ∧
      (∀ pos, ∃ cursor, findPositionInScript pos script = .ok cursor) ∧
      ((∀ name ∈ script.splitNames, ¬ HasColonRun name) →
        (∀ site ∈ procSites script.scanSites, site.call.ElementsNonempty) →
        ∃ result, buildNew script = .ok result) := by
  obtain ⟨script, hscript⟩ := parseScript_ok hcontract hfile hdata size
  have htyped := parseScript_typed hscript
  exact ⟨script, hscript, fun pos => findPositionInScript_ok pos script htyped,
    buildNew_exists htyped⟩

theorem lastArgs_words : WordTokens 18 0 4 lastArgsParse.tokens := by
  have hbody : WordTokens 18 15 1 [⟨.SIMPLE_WORD, 16, 2, 1⟩, ⟨.TEXT, 17, 0, 0⟩] :=
    .simple rfl rfl (by decide) rfl rfl ⟨by decide, by decide⟩ (.nil (by decide))
  have hargs : WordTokens 18 6 2 (⟨.SIMPLE_WORD, 7, 8, 1⟩ :: ⟨.TEXT, 8, 6, 0⟩ :: _) :=
    .simple rfl rfl (by decide) rfl rfl ⟨by decide, by decide⟩ hbody
  have hname : WordTokens 18 4 3 (⟨.SIMPLE_WORD, 5, 1, 1⟩ :: ⟨.TEXT, 5, 1, 0⟩ :: _) :=
    .simple rfl rfl (by decide) rfl rfl ⟨by decide, by decide⟩ hargs
  exact .simple rfl rfl (by decide) rfl rfl ⟨by decide, by decide⟩ hname

theorem lastArgs_parsedCommand : ParsedCommand (lastArgs.view 0 18) lastArgsParse :=
  ⟨lastArgs_words, by decide +kernel, by decide +kernel⟩

/-- The library on `proc f {a args} {}` keeps the contract. -/
theorem lastArgs_contract : lastArgsInterp.Contract := by
  constructor
  · intro script parse _ hparse
    simp only [lastArgsInterp] at hparse
    split at hparse
    · next hview =>
      cases hparse
      rw [hview]
      exact lastArgs_parsedCommand
    · cases hparse
  · intro list found hfound
    simp only [lastArgsInterp] at hfound
    split at hfound
    · next hview =>
      cases hfound
      rw [hview]
      exact ⟨by decide +kernel, by decide +kernel, by decide +kernel, by decide +kernel⟩
    split at hfound
    · next hview =>
      cases hfound
      rw [hview]
      exact ⟨by decide +kernel, by decide +kernel, by decide +kernel, by decide +kernel⟩
    split at hfound
    · next hview =>
      cases hfound
      rw [hview]
      exact ⟨by decide +kernel, by decide +kernel, by decide +kernel, by decide +kernel⟩
    split at hfound
    · next hempty =>
      cases hfound
      refine ⟨Nat.le_refl _, Nat.le_refl _, Nat.le_add_right _ _, fun hlt => ?_⟩
      rw [hempty] at hlt
      exact absurd hlt (Nat.lt_irrefl _)
    · cases hfound

theorem lastArgs_buildNew_ok : ∃ script result,
    parseScript lastArgsInterp { file := lastArgs, curNs := [] } (lastArgs.view 0 18) = .ok script ∧
    (∀ pos, ∃ cursor, findPositionInScript pos script = .ok cursor) ∧
    buildNew script = .ok result := by
  have hfile : ({ file := lastArgs, curNs := [] } : ParseContext).file =
      makeSourceFile [] (bytes "proc f {a args} {}") := rfl
  obtain ⟨script, hscript, hpos, hbuild⟩ :=
    parseScript_buildNew_ok lastArgs_contract hfile (Nat.zero_le _) 18
  cases lastArgs_parsed.symm.trans hscript
  have helements : ∀ site ∈ procSites lastArgsTree.scanSites, site.call.ElementsNonempty := by
    intro site hsite args vec hargs htype hdata arg harg
    rw [List.mem_singleton.mp hsite] at hargs
    cases hargs
    cases hdata
    rcases List.mem_pair.mp harg with rfl | rfl
    · nofun
    · nofun
  obtain ⟨result, hresult⟩ := hbuild (by decide +kernel) helements
  exact ⟨_, result, hscript, hpos, hresult⟩

end TclAnalyzer
