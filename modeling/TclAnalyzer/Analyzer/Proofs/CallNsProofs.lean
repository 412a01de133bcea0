import TclAnalyzer.Analyzer.Samples
import TclAnalyzer.Analyzer.Proofs.ParserProofs
import TclAnalyzer.Analyzer.Proofs.PassesProofs

/-!
# `Call.ns` and the namespace that `IndexScript` has on top

The parser puts the namespace of a call together as a string, the indexer as a path in its tree, and
the requests look the string up. The two agree as long as the string is the one for the path, and
that path is what `FindNamespace` reads off it.
-/

namespace TclAnalyzer

/-- The string is the one for the path, with components that `SplitPath` can make. -/
structure Follows (ns : Str) (path : Path) : Prop where
  string : ns = pathString path
  free : ∀ component ∈ path, SeparatorFree component

variable {ns : Str} {path : Path} {call : Call}

theorem follows_nil : Follows [] [] := ⟨rfl, by simp⟩

theorem Follows.names_iff (h : Follows ns path) : Names ns path ↔ readable path := by
  rw [h.string]
  exact names_pathString_iff h.free

theorem Follows.eq_nil_iff (h : Follows ns path) : ns = [] ↔ path = [] := by
  rw [h.string]
  constructor
  · intro hnil
    by_contra hne
    obtain ⟨rest, hrest⟩ := separator_prefix_pathString hne
    rw [hnil] at hrest
    cases hrest
  · rintro rfl
    rfl

theorem Follows.append (h : Follows ns path) {path' : Path} (h' : Splits path') :
    Follows (ns ++ pathString path') (path ++ path') where
  string := by rw [pathString_append, h.string]
  free component hc := by
    rcases List.mem_append.mp hc with hc | hc
    · exact h.free component hc
    · exact h'.1 component hc

/-- A string that names a path further down is longer. -/
theorem Names.length_le {s : Str} (h : Names s path) : (pathString path).length ≤ s.length :=
  h.pathString_prefix.length_le

/-! ## `namespace eval` -/

theorem namespaceEvalNs_eq (call : Call) (hcall : call.type = .NAMESPACE_EVAL) (ns : Str) :
    bodyNs ns call 3 =
      if call.isText 2 then ((splitName (call.wordText 2)).absPath ns).path else ns := by
  unfold bodyNs
  rw [hcall]
  unfold Call.isText Call.wordText
  cases call.words[2]? with
  | none => rfl
  | some word =>
    by_cases htext : word.type = .TEXT
    · simp [namespaceEvalNs, htext]
    · simp [namespaceEvalNs, htext]

/-- The string for a relative name, seen from a namespace other than the global one: the separator
between the two is put in for a name without one only. -/
theorem absPath_path_relative {s : Str} (hs : (splitName s).absolute = false) (hne : ns ≠ []) :
    ((splitName s).absPath ns).path =
      if (splitName s).ns = none then ns ++ separator ++ s else ns ++ s := by
  have hnil : s ≠ [] := by
    rintro rfl
    cases hs
  have hpath := splitName_path hnil
  simp only [QualifiedName.absPath, hs, if_neg hne]
  cases hq : (splitName s).ns with
  | none =>
    rw [QualifiedName.path, hq] at hpath
    simp [QualifiedName.path, hpath]
  | some q =>
    rw [QualifiedName.path, hq] at hpath
    have happend : ns ++ q ++ separator ++ (splitName s).name = ns ++ s := by
      simpa only [List.append_assoc] using congrArg (ns ++ ·) hpath
    simpa [QualifiedName.path] using happend

/-- In the global namespace the string for a relative name starts with a separator. -/
theorem absPath_path_global {s : Str} (hs : (splitName s).absolute = false) :
    ((splitName s).absPath []).path = separator ++ s := by
  have hnil : s ≠ [] := by
    rintro rfl
    cases hs
  have hpath := splitName_path hnil
  cases hq : (splitName s).ns with
  | none =>
    rw [QualifiedName.path, hq] at hpath
    simp [QualifiedName.absPath, QualifiedName.path, hs, hq, hpath]
  | some q =>
    rw [QualifiedName.path, hq] at hpath
    have happend : separator ++ q ++ separator ++ (splitName s).name = separator ++ s := by
      simpa only [List.append_assoc] using congrArg (separator ++ ·) hpath
    simpa [QualifiedName.absPath, QualifiedName.path, hs, hq] using happend

theorem absPath_path_absolute {s : Str} (hs : (splitName s).absolute = true) (ns : Str) :
    ((splitName s).absPath ns).path = if s = [] then separator else s := by
  simp only [QualifiedName.absPath, hs, if_true]
  by_cases hnil : s = []
  · subst hnil
    rfl
  · rw [if_neg hnil, splitName_path hnil]

/-- The string follows into the body of a `namespace eval` with a literal, relative name that is
unqualified or used in the global namespace. -/
theorem Follows.namespaceEval (h : Follows ns path) (hcall : call.type = .NAMESPACE_EVAL)
    (htext : call.isText 2 = true) (hrel : (splitName (call.wordText 2)).absolute = false)
    (hplace : (splitName (call.wordText 2)).ns = none ∨ path = []) :
    Follows (bodyNs ns call 3) (evalPath path call) := by
  have hbody := h.append (splits_splitPath (call.wordText 2))
  rw [pathString_splitPath] at hbody
  rw [namespaceEvalNs_eq call hcall, if_pos htext, evalPath]
  by_cases hpath : path = []
  · have hns := h.eq_nil_iff.mpr hpath
    subst hns
    rwa [absPath_path_global hrel]
  · have hns : ns ≠ [] := fun hns => hpath (h.eq_nil_iff.mp hns)
    rw [absPath_path_relative hrel hns, if_pos (hplace.resolve_right hpath), List.append_assoc]
    exact hbody

/-- Where the string in the body names the namespace pushed, the name of the namespace is as it has
to be: all others give a string that is too short. -/
theorem Follows.namespaceEval_of_names (h : Follows ns path) (hcall : call.type = .NAMESPACE_EVAL)
    (hbody : Names (bodyNs ns call 3) (evalPath path call)) :
    call.isText 2 = true ∧ (splitName (call.wordText 2)).absolute = false ∧
      ((splitName (call.wordText 2)).ns = none ∨ path = []) := by
  set s := call.wordText 2 with hs
  have hlength : (pathString (evalPath path call)).length = ns.length + 2 + s.length := by
    rw [evalPath, pathString_append, pathString_splitPath, ← h.string]
    simp only [List.length_append, separator_length, ← hs]
    omega
  rw [namespaceEvalNs_eq call hcall] at hbody
  have hlen := hbody.length_le
  rw [hlength] at hlen
  by_cases htext : call.isText 2 = true
  · rw [if_pos htext] at hbody hlen
    refine ⟨htext, ?_⟩
    cases habs : (splitName s).absolute with
    | true =>
      exfalso
      rw [← hs, absPath_path_absolute habs] at hbody hlen
      by_cases hnil : s = []
      · rw [if_pos hnil] at hbody
        have hpath : evalPath path call = [] := hbody.unique names_separator
        rw [evalPath] at hpath
        exact splitPathFrom_ne_nil _ _ (List.append_eq_nil_iff.mp hpath).2
      · rw [if_neg hnil] at hlen
        omega
    | false =>
      refine ⟨rfl, ?_⟩
      by_cases hpath : path = []
      · exact Or.inr hpath
      · have hns : ns ≠ [] := fun hns => hpath (h.eq_nil_iff.mp hns)
        left
        by_contra hqual
        rw [← hs, absPath_path_relative habs hns, if_neg hqual] at hlen
        rw [List.length_append] at hlen
        omega
  · rw [if_neg htext] at hlen
    omega

/-! ## `proc` -/

theorem procNs_eq (call : Call) (hcall : call.type = .PROC) (ns : Str) :
    bodyNs ns call 3 =
      if call.isText 1 then ((splitName (call.wordText 1)).absPath ns).namespacePath else ns := by
  unfold bodyNs
  rw [hcall]
  unfold Call.isText Call.wordText
  cases call.words[1]? with
  | none => rfl
  | some word =>
    by_cases htext : word.type = .TEXT
    · simp [procNs, htext]
    · simp [procNs, htext]

/-- The namespace of a relative name as a string. -/
theorem absPath_namespacePath {qn : QualifiedName} (hrel : qn.absolute = false) :
    (qn.absPath ns).namespacePath =
      match qn.ns with
      | none => ns
      | some q => if ns = [] then separator ++ q else ns ++ q := by
  by_cases hns : ns = []
  · cases hq : qn.ns <;> simp [QualifiedName.absPath, QualifiedName.namespacePath, hrel, hns, hq]
  · cases hq : qn.ns <;> simp [QualifiedName.absPath, QualifiedName.namespacePath, hrel, hns, hq]

/-- The string follows into the body of a proc whose name is unqualified, absolute for the namespace
the command is in, or literal and either absolute or used in the global namespace. -/
theorem Follows.proc (h : Follows ns path) (hcall : call.type = .PROC) {parts : List Str}
    (hparts : (splitName (call.wordText 1)).namespaceParts = .ok parts)
    (hname : call.namesProcIn path ∨
      call.isText 1 = true ∧ ((splitName (call.wordText 1)).absolute = true ∨ path = [])) :
    Follows (bodyNs ns call 3) (procPath path call) := by
  have hpath : procPath path call = (splitName (call.wordText 1)).targetPath path parts := by
    rw [procPath, resolveFrom_eq hparts]
  by_cases htext : call.isText 1 = true
  · rw [procNs_eq call hcall, if_pos htext]
    cases habs : (splitName (call.wordText 1)).absolute with
    | true =>
      obtain ⟨hstring, hsplits⟩ := pathString_namespaceParts habs hparts
      have htarget : procPath path call = parts := by
        rw [hpath, QualifiedName.targetPath, if_pos habs]
      have hself : (splitName (call.wordText 1)).absPath ns = splitName (call.wordText 1) := by
        rw [QualifiedName.absPath, if_pos habs]
      rw [htarget, hself, ← hstring]
      exact ⟨rfl, hsplits.1⟩
    | false =>
      have htarget : procPath path call = path ++ parts := by
        rw [hpath, QualifiedName.targetPath, habs]
        rfl
      rw [htarget, absPath_namespacePath habs]
      rcases namespaceParts_relative habs hparts with ⟨hns, rfl⟩ | ⟨q, hns, rfl⟩
      · rw [hns, List.append_nil]
        exact h
      · have hglobal : path = [] := by
          rcases hname with hname | ⟨-, hname⟩
          · rw [Call.namesProcIn, habs] at hname
            simp [hns] at hname
          · exact hname.resolve_left (by simp [habs])
        have hempty := h.eq_nil_iff.mpr hglobal
        subst hempty
        have hbody := h.append (splits_splitPath q)
        rw [pathString_splitPath] at hbody
        rw [hns]
        exact hbody
  · have hstays := hname.resolve_right fun hname => htext hname.1
    rw [procNs_eq call hcall, if_neg htext, (procPath_eq_self hparts).mpr hstays]
    exact h

/-- Where the string in the body names the namespace pushed, the name of the proc is as it has to
be. -/
theorem Follows.proc_of_names (h : Follows ns path) (hnow : Names ns path)
    (hcall : call.type = .PROC) {parts : List Str}
    (hparts : (splitName (call.wordText 1)).namespaceParts = .ok parts)
    (hbody : Names (bodyNs ns call 3) (procPath path call)) :
    call.namesProcIn path ∨
      call.isText 1 = true ∧ ((splitName (call.wordText 1)).absolute = true ∨ path = []) := by
  rw [procNs_eq call hcall] at hbody
  by_cases htext : call.isText 1 = true
  · rw [if_pos htext] at hbody
    cases habs : (splitName (call.wordText 1)).absolute with
    | true => exact Or.inr ⟨htext, Or.inl rfl⟩
    | false =>
      by_cases hglobal : path = []
      · exact Or.inr ⟨htext, Or.inr hglobal⟩
      · left
        have hns : ns ≠ [] := fun hns => hglobal (h.eq_nil_iff.mp hns)
        rcases namespaceParts_relative habs hparts with ⟨hq, -⟩ | ⟨q, hq, hsplit⟩
        · simp [Call.namesProcIn, habs, hq]
        · exfalso
          have hlen := hbody.length_le
          have hpath : procPath path call = path ++ splitPath q := by
            rw [procPath, resolveFrom_eq hparts, QualifiedName.targetPath, habs, hsplit]
            rfl
          have hstring : ((splitName (call.wordText 1)).absPath ns).namespacePath = ns ++ q := by
            rw [absPath_namespacePath habs, hq]
            exact if_neg hns
          rw [hpath, hstring, pathString_append, pathString_splitPath, ← h.string] at hlen
          simp only [List.length_append, separator_length] at hlen
          omega
  · rw [if_neg htext] at hbody
    exact Or.inl ((procPath_eq_self hparts).mp (hbody.unique hnow))

/-! ## All calls -/

/-- The string follows the path into the body of a command that opens a namespace in such a way, and
names it there. -/
theorem Follows.body (h : Follows ns path) (hparts : call.type = .PROC →
      ∃ parts, (splitName (call.wordText 1)).namespaceParts = .ok parts)
    (hopens : call.opensReadable path) {path' : Path}
    (henter : indexPass.enter path call 3 = some path')
    (htype : call.type = .PROC ∨ call.type = .NAMESPACE_EVAL) :
    Follows (bodyNs ns call 3) path' ∧ Names (bodyNs ns call 3) path' := by
  rcases htype with htype | htype
  · simp only [indexPass, htype, if_true, Option.some.injEq] at henter
    simp only [Call.opensReadable, htype] at hopens
    subst henter
    obtain ⟨parts, hp⟩ := hparts htype
    have hbody := h.proc htype hp hopens.1
    exact ⟨hbody, hbody.names_iff.mpr hopens.2⟩
  · simp only [indexPass, htype, if_true, Option.some.injEq] at henter
    simp only [Call.opensReadable, htype, Bool.not_eq_true] at hopens
    subst henter
    have hbody := h.namespaceEval htype hopens.1 hopens.2.1 hopens.2.2.1
    exact ⟨hbody, hbody.names_iff.mpr hopens.2.2.2⟩

/-- A string that names the namespace in a body, too, follows the path into it. -/
theorem Follows.body_of_names (h : Follows ns path) (hnow : Names ns path)
    (hparts : call.type = .PROC →
      ∃ parts, (splitName (call.wordText 1)).namespaceParts = .ok parts) {path' : Path}
    (henter : indexPass.enter path call 3 = some path')
    (htype : call.type = .PROC ∨ call.type = .NAMESPACE_EVAL)
    (hbody : Names (bodyNs ns call 3) path') :
    Follows (bodyNs ns call 3) path' ∧ call.opensReadable path := by
  rcases htype with htype | htype
  · simp only [indexPass, htype, if_true, Option.some.injEq] at henter
    subst henter
    obtain ⟨parts, hp⟩ := hparts htype
    have hname := h.proc_of_names hnow htype hp hbody
    have hfollows := h.proc htype hp hname
    simp only [Call.opensReadable, htype]
    exact ⟨hfollows, hname, hfollows.names_iff.mp hbody⟩
  · simp only [indexPass, htype, if_true, Option.some.injEq] at henter
    subst henter
    obtain ⟨htext, hrel, hplace⟩ := h.namespaceEval_of_names htype hbody
    have hfollows := h.namespaceEval htype htext hrel hplace
    simp only [Call.opensReadable, htype, Bool.not_eq_true]
    exact ⟨hfollows, htext, hrel, hplace, hfollows.names_iff.mp hbody⟩

theorem parserPass_total : parserPass.Total :=
  ⟨fun scope call k => ⟨bodyNs scope call k, rfl⟩, fun scope _ => ⟨scope, rfl⟩⟩

theorem parserPass_steady : parserPass.Steady := by
  rintro ns type ns' h
  cases h
  rfl

/-- A word other than a body has the scope of its call. -/
theorem enter_parsed {scope scope' : Str × Path} {call : Call} {k : Nat}
    (h : (parserPass.prod indexPass).enter scope call k = some scope') :
    (k = 3 ∧ (call.type = .PROC ∨ call.type = .NAMESPACE_EVAL) ∧
      scope'.1 = bodyNs scope.1 call 3 ∧ indexPass.enter scope.2 call 3 = some scope'.2) ∨
    scope' = scope := by
  have hprod : Option.map₂ Prod.mk (parserPass.enter scope.1 call k)
    (indexPass.enter scope.2 call k) = some scope' := h
  obtain ⟨a, b, ha, hb, rfl⟩ := Option.map₂_eq_some_iff.mp hprod
  cases ha
  by_cases hbody : k = 3 ∧ (call.type = .PROC ∨ call.type = .NAMESPACE_EVAL)
  · obtain ⟨rfl, htype⟩ := hbody
    exact Or.inl ⟨rfl, htype, rfl, hb⟩
  · right
    have hns : bodyNs scope.1 call k = scope.1 :=
      bodyNs_eq_self fun hk => not_or.mp fun htype => hbody ⟨hk, htype⟩
    have hpath : b = scope.2 := by
      unfold indexPass at hb
      dsimp only at hb
      cases htype : call.type <;> rw [htype] at hb <;> simp_all
    rw [hns, hpath]

/-- The calls that `IndexScript` reaches, with the namespace string in the parser and the path in the
indexer. -/
def Script.parsedSites (script : Script) : List (Site (Str × Path)) :=
  sitesScript (parserPass.prod indexPass) ([], []) [] script

variable {script : Script} {result : BuildResult}

/-- `FindNamespace` returns the namespace at the path that it reads off the string. -/
theorem findNamespace_eq_some {index : Index} (h : index.NamespacesWF) {s : Str} {id : Nat}
    (hpath : index.atPath path = some id) :
    findNamespace index s = .ok (some id) ↔ Names s path := by
  constructor
  · intro hfind
    obtain ⟨parts, hparts, hat⟩ := findNamespace_atPath h hfind
    exact ⟨findNamespace_absolute hfind, Index.atPath_injective h hpath hat ▸ hparts⟩
  · rintro ⟨habs, hparts⟩
    rw [findNamespace_eq h habs, hparts]
    exact congrArg Except.ok hpath

/-- What the strings in the calls say about the index, in terms of the paths. -/
theorem Built.callNs_iff (h : Built script result) :
    (∀ v ∈ result.indexed, (v.call.ns = [] ∨ separator <+: v.call.ns) ∧
      findNamespace result.index v.call.ns = .ok (some v.ns)) ↔
    ∀ site ∈ script.indexSites, Names site.call.ns site.scope := by
  have hwf := h.wf.namespaces
  constructor
  · intro hall site hsite
    obtain ⟨v, hv, hat⟩ := mem_of_forall₂_right h.indexed hsite
    rw [← hat.call]
    exact (findNamespace_eq_some hwf hat.ns).mp (hall v hv).2
  · intro hall v hv
    obtain ⟨site, hsite, hat⟩ := mem_of_forall₂_left h.indexed hv
    have hnames := hall site hsite
    rw [← hat.call] at hnames
    exact ⟨hnames.separator_prefix, (findNamespace_eq_some hwf hat.ns).mpr hnames⟩

/-- The string in a call is the one that the parser has at its place. -/
theorem Tagged.names_iff (h : Tagged [] (.script script)) :
    (∀ site ∈ script.indexSites, Names site.call.ns site.scope) ↔
      ∀ site ∈ script.parsedSites, Names site.scope.1 site.scope.2 := by
  constructor
  · intro hall site hsite
    obtain ⟨hparsed, hindexed⟩ := Reaches.proj (mem_sitesScript.mp hsite)
    have htag : site.call.ns = site.scope.1 := h _ _ hparsed
    rw [← htag]
    exact hall _ (mem_sitesScript.mpr hindexed)
  · intro hall site hsite
    obtain ⟨ns, hreach⟩ := Reaches.lift parserPass_total (mem_sitesScript.mp hsite) []
    have htag : site.call.ns = ns := h _ _ (Reaches.proj hreach).1
    rw [htag]
    exact hall _ (mem_sitesScript.mpr hreach)

theorem proj_parsedSites {site : Site (Str × Path)} (h : site ∈ script.parsedSites) :
    ⟨site.pos, site.call, site.scope.2⟩ ∈ script.indexSites :=
  mem_sitesScript.mpr (Reaches.proj (mem_sitesScript.mp h)).2

/-- Where the strings name the paths, they follow them. -/
theorem follows_of_names
    (hparts : ∀ site ∈ script.indexSites, site.call.type = .PROC →
      ∃ parts, (splitName (site.call.wordText 1)).namespaceParts = .ok parts)
    (h : ∀ site ∈ script.parsedSites, Names site.scope.1 site.scope.2) :
    ∀ site ∈ script.parsedSites, Follows site.scope.1 site.scope.2 := by
  intro site hsite
  refine (mem_sitesScript.mp hsite).scope_of_step (parserPass_steady.prod indexPass_steady)
    (A := fun scope => Follows scope.1 scope.2) follows_nil ?_
  intro outer k word scope' inner houter hword henter hinner hfollows
  have hmem : outer ∈ script.parsedSites := mem_sitesScript.mpr houter
  obtain ⟨first, hfirst, rfl⟩ := hinner.exists_first (parserPass_steady.prod indexPass_steady)
  have hnames := h first (mem_sitesScript.mpr (houter.trans (.word hword henter hfirst)))
  rcases enter_parsed henter with ⟨rfl, htype, hns, hpath⟩ | hsame
  · rw [hns] at hnames ⊢
    exact (hfollows.body_of_names (h outer hmem) (hparts _ (proj_parsedSites hmem)) hpath htype
      hnames).1
  · rw [hsame]
    exact hfollows

/-- The namespace string of every call that `IndexScript` reaches is fit for `FindNamespace` and
means the namespace on top exactly when every command that opens a namespace around such a call is
as `opensReadable` says. -/
theorem callNs_agrees_iff {interp : TclInterp} {context : ParseContext} {view : StringView}
    (hcontext : context.curNs = []) (hparse : parseScript interp context view = .ok script)
    (h : buildNew script = .ok result) :
    (∀ v ∈ result.indexed, (v.call.ns = [] ∨ separator <+: v.call.ns) ∧
      findNamespace result.index v.call.ns = .ok (some v.ns)) ↔
    ∀ site ∈ script.indexSites, site.call.type = .PROC ∨ site.call.type = .NAMESPACE_EVAL →
      site.inWord indexPass 3 ≠ [] → site.call.opensReadable site.scope := by
  have hb := buildNew_ok h
  have htag := parseScript_tagged hparse
  rw [hcontext] at htag
  have hparts : ∀ site ∈ script.indexSites, site.call.type = .PROC →
      ∃ parts, (splitName (site.call.wordText 1)).namespaceParts = .ok parts := by
    intro site hsite
    obtain ⟨v, -, hat⟩ := mem_of_forall₂_right hb.indexed hsite
    exact hat.procParts
  have hsteady := parserPass_steady.prod indexPass_steady
  rw [hb.callNs_iff, htag.names_iff]
  constructor
  · intro hall site hsite htype hne
    obtain ⟨inner, hinner⟩ := List.exists_mem_of_ne_nil _ hne
    obtain ⟨word, path, hword, henter, hreach⟩ := mem_inWord.mp hinner
    obtain ⟨ns, houter⟩ := Reaches.lift parserPass_total (mem_sitesScript.mp hsite) []
    have hmem : _ ∈ script.parsedSites := mem_sitesScript.mpr houter
    have hfollows := follows_of_names hparts hall _ hmem
    obtain ⟨ns', hbody⟩ := Reaches.lift parserPass_total hreach (bodyNs ns site.call 3)
    obtain ⟨first, hfirst, hscope⟩ := hbody.exists_first hsteady
    have henter' : (parserPass.prod indexPass).enter (ns, site.scope) site.call 3 =
        some (bodyNs ns site.call 3, path) := by
      simp [Pass.prod, parserPass, henter]
    have hnames := hall first (mem_sitesScript.mpr (houter.trans (.word hword henter' hfirst)))
    rw [hscope] at hnames
    exact (hfollows.body_of_names (hall _ hmem) (hparts site hsite) henter htype hnames).2
  · intro hall
    have hboth : ∀ site ∈ script.parsedSites,
        Follows site.scope.1 site.scope.2 ∧ Names site.scope.1 site.scope.2 := by
      refine (forall_scope_iff hsteady (fun scope => Follows scope.1 scope.2 ∧ Names scope.1 scope.2)
        ([], []) ⟨follows_nil, names_nil⟩ [] script).mpr ?_
      rintro site hsite k scope' ⟨hfollows, hnames⟩ hne henter
      rcases enter_parsed henter with ⟨rfl, htype, hns, hpath⟩ | hsame
      · have hmem := proj_parsedSites hsite
        obtain ⟨inner, hinner⟩ := List.exists_mem_of_ne_nil _ hne
        obtain ⟨word, scope1, hword, henter1, hreach⟩ := mem_inWord.mp hinner
        cases henter.symm.trans henter1
        have hentered : Site.inWord indexPass ⟨site.pos, site.call, site.scope.2⟩ 3 ≠ [] :=
          List.ne_nil_of_mem (mem_inWord.mpr ⟨word, _, hword, hpath, (Reaches.proj hreach).2⟩)
        rw [hns]
        exact hfollows.body (hparts _ hmem) (hall _ hmem htype hentered) hpath htype
      · rw [hsame]
        exact ⟨hfollows, hnames⟩
    exact fun site hsite => (hboth site hsite).2

/-! ## An absolute name -/

/-- The file `namespace eval NAME {f}`. -/
def evalFile (name : String) : SourceFile :=
  makeSourceFile [] (bytes "namespace eval " ++ bytes name ++ bytes " {f}")

/-- The Tcl library on the two commands of that file. -/
def evalInterp (name : String) : TclInterp where
  parseCommand view :=
    let n := (bytes name).length
    if view = (evalFile name).view 0 (n + 19) then
      some { commandStart := 0, commandSize := n + 19, commentSize := 0, numWords := 4, tokens :=
        [⟨.SIMPLE_WORD, 0, 9, 1⟩, ⟨.TEXT, 0, 9, 0⟩, ⟨.SIMPLE_WORD, 10, 4, 1⟩, ⟨.TEXT, 10, 4, 0⟩,
          ⟨.SIMPLE_WORD, 15, n, 1⟩, ⟨.TEXT, 15, n, 0⟩, ⟨.SIMPLE_WORD, n + 16, 3, 1⟩,
          ⟨.TEXT, n + 17, 1, 0⟩] }
    else if view = (evalFile name).view (n + 17) 1 then
      some { commandStart := n + 17, commandSize := 1, commentSize := 0, numWords := 1, tokens :=
        [⟨.SIMPLE_WORD, n + 17, 1, 1⟩, ⟨.TEXT, n + 17, 1, 0⟩] }
    else none
  findElement _ := none

/-- For `::A` the string in the call `f` does not mean the namespace it is indexed in. -/
theorem absoluteEval_run : ∃ script result,
    parseScript (evalInterp "::A") { file := evalFile "::A", curNs := [] }
      ((evalFile "::A").view 0 22) = .ok script ∧ buildNew script = .ok result ∧
    (result.indexed.any fun v =>
      ¬returns (findNamespace result.index v.call.ns) fun ns => ns = some v.ns) = true :=
  exists_built (fun r => r.2.indexed.any fun v =>
    ¬returns (findNamespace r.2.index v.call.ns) fun ns => ns = some v.ns) (by decide +kernel)

/-- The parser has `f` in `::A`, the indexer in a namespace `A` of a namespace without a name. -/
theorem absoluteEval_callNs_differs : ∃ script result,
    parseScript (evalInterp "::A") { file := evalFile "::A", curNs := [] }
      ((evalFile "::A").view 0 22) = .ok script ∧ buildNew script = .ok result ∧
    ∃ v ∈ result.indexed, ¬((v.call.ns = [] ∨ separator <+: v.call.ns) ∧
      findNamespace result.index v.call.ns = .ok (some v.ns)) := by
  obtain ⟨script, result, hparse, hbuild, htest⟩ := absoluteEval_run
  obtain ⟨v, hv, hns⟩ := List.any_eq_true.mp htest
  refine ⟨script, result, hparse, hbuild, v, hv, fun hall => ?_⟩
  simp [hall.2, returns] at hns

/-- For `A` it does. -/
theorem absoluteEval_callNs_iff :
    (∃ script result,
      parseScript (evalInterp "::A") { file := evalFile "::A", curNs := [] }
        ((evalFile "::A").view 0 22) = .ok script ∧ buildNew script = .ok result ∧
      ((∀ v ∈ result.indexed, (v.call.ns = [] ∨ separator <+: v.call.ns) ∧
        findNamespace result.index v.call.ns = .ok (some v.ns)) ↔
      ∀ site ∈ script.indexSites, site.call.type = .PROC ∨ site.call.type = .NAMESPACE_EVAL →
        site.inWord indexPass 3 ≠ [] → site.call.opensReadable site.scope)) ∧
    ∃ script result,
      parseScript (evalInterp "A") { file := evalFile "A", curNs := [] } ((evalFile "A").view 0 20) =
        .ok script ∧ buildNew script = .ok result ∧ result.indexed.length = 2 ∧
      ∀ v ∈ result.indexed, (v.call.ns = [] ∨ separator <+: v.call.ns) ∧
        findNamespace result.index v.call.ns = .ok (some v.ns) := by
  constructor
  · obtain ⟨script, result, hparse, hbuild, -⟩ := absoluteEval_run
    exact ⟨script, result, hparse, hbuild, callNs_agrees_iff rfl hparse hbuild⟩
  · obtain ⟨script, result, hparse, hbuild, htest⟩ := exists_built _
      (show returns (parseAndBuild (evalInterp "A") { file := evalFile "A", curNs := [] }
        ((evalFile "A").view 0 20)) (fun r => r.2.indexed.length = 2 ∧
          ∀ site ∈ r.1.indexSites, site.call.type = .PROC ∨ site.call.type = .NAMESPACE_EVAL →
            site.inWord indexPass 3 ≠ [] → site.call.opensReadable site.scope) = true by
        decide +kernel)
    obtain ⟨htwo, hopens⟩ := of_decide_eq_true htest
    exact ⟨script, result, hparse, hbuild, htwo, (callNs_agrees_iff rfl hparse hbuild).mpr hopens⟩

end TclAnalyzer
