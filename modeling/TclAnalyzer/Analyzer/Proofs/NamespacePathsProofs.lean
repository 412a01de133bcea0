import TclAnalyzer.Analyzer.Samples
import TclAnalyzer.Analyzer.Proofs.FlatProofs
import TclAnalyzer.Analyzer.Proofs.OrderProofs

/-!
# Which namespaces there are

Each turn of the loops of `Build` adds the namespaces that it is about, with those around them, and no
others. A lookup is about every namespace in which it looks.
-/

namespace TclAnalyzer

variable {index index' : Index} {script : Script} {result : BuildResult} {path : Path} {ns : Nat}

/-! ## Adding paths -/

/-- The paths of the index afterwards are those before and the ways to the targets. -/
def Index.Adds (index index' : Index) (targets : List Path) : Prop :=
  ∀ path, index'.HasPath path ↔ index.HasPath path ∨ ∃ target ∈ targets, path <+: target

theorem Index.Adds.refl (index : Index) : index.Adds index [] := by
  intro path
  simp

theorem Index.Adds.trans {index'' : Index} {targets targets' : List Path}
    (h : index.Adds index' targets) (h' : index'.Adds index'' targets') :
    index.Adds index'' (targets ++ targets') := by
  intro path
  rw [h', h, or_assoc]
  simp only [List.mem_append, or_and_right, exists_or]

/-- An index with the same tree has the same paths. -/
theorem Index.Adds.of_tree {index'' : Index} {targets : List Path} (h : index.Adds index' targets)
    (htree : index''.tree = index'.tree) (hglobal : index''.globalNamespaceId = index'.globalNamespaceId) :
    index.Adds index'' targets := by
  intro path
  rw [← h]
  unfold Index.HasPath Index.atPath
  rw [htree, hglobal]

theorem Index.HasPath.of_prefix {target : Path} (h : index.HasPath target) (hpath : path <+: target) :
    index.HasPath path := NameTree.hasPath_of_prefix h hpath

/-- Nothing is added where the target is there already. -/
theorem Index.Adds.of_hasPath {target : Path} (h : index.HasPath target) : index.Adds index [target] := by
  intro path
  constructor
  · exact Or.inl
  · rintro (hpath | ⟨_, hmem, hprefix⟩)
    · exact hpath
    · rw [List.mem_singleton.mp hmem] at hprefix
      exact h.of_prefix hprefix

/-! ## Names -/

theorem resolveNamespace_adds (h : index.NamespacesWF) {qn : QualifiedName} {parts : List Str}
    (hns : index.atPath path = some ns) (hparts : qn.namespaceParts = .ok parts) {res : Nat × Index}
    (hres : resolveNamespace index qn ns = .ok res) :
    index.Adds res.2 [qn.targetPath path parts] := by
  set start := if qn.absolute then index.globalNamespaceId else ns with hstart
  have hvalid : index.tree.Valid start := by
    rw [hstart]
    split
    · exact h.tree.root_valid
    · exact Index.atPath_valid h hns
  obtain ⟨grown, hgrown, htree, -, hg⟩ := resolveParts_eq h parts hvalid
  have hindex : res.2 = grown := by
    unfold resolveNamespace at hres
    rw [hparts] at hres
    obtain ⟨_, hok, hres⟩ := bind_eq_ok.mp hres
    cases hok
    obtain ⟨⟨curId, found⟩, hfound, hres⟩ := bind_eq_ok.mp hres
    cases hfound.symm.trans hgrown
    obtain ⟨n, -, hres⟩ := bind_eq_ok.mp hres
    cases hres
    rfl
  intro target
  rw [hindex]
  unfold Index.HasPath Index.atPath
  rw [htree, hg.global]
  simp only [List.mem_singleton, exists_eq_left]
  unfold QualifiedName.targetPath
  by_cases habsolute : qn.absolute = true
  · rw [if_pos habsolute] at hstart ⊢
    have hroot : index.tree.walk index.globalNamespaceId [] = some start := by rw [hstart]; rfl
    exact NameTree.hasPath_grow_iff h.tree hroot parts target
  · rw [if_neg habsolute] at hstart ⊢
    have hpath : index.tree.walk index.globalNamespaceId path = some start := hstart ▸ hns
    exact NameTree.hasPath_grow_iff h.tree hpath parts target

theorem resolveQualified_adds (h : index.NamespacesWF) {qn : QualifiedName} {parts : List Str}
    (hns : index.atPath path = some ns) (hparts : qn.namespaceParts = .ok parts) {res : Nat × Index}
    (hres : resolveQualified index qn ns = .ok res) :
    index.Adds res.2 [qn.targetPath path parts] := by
  unfold resolveQualified at hres
  by_cases hqualified : qn.absolute ∨ qn.ns.isSome
  · rw [if_pos hqualified] at hres
    exact resolveNamespace_adds h hns hparts hres
  · rw [if_neg hqualified] at hres
    cases hres
    have hnone : qn.ns = none := by simpa using fun e => hqualified (Or.inr e)
    have habsolute : qn.absolute = false := by simpa using fun e => hqualified (Or.inl e)
    have hnil : parts = [] := by
      unfold QualifiedName.namespaceParts at hparts
      rw [hnone] at hparts
      cases hparts
      rfl
    refine .of_hasPath ⟨ns, ?_⟩
    simpa [QualifiedName.targetPath, habsolute, hnil] using hns

/-! ## Lookups -/

theorem searched_congr {name : Str} (h : ∀ path, index'.procsIn path name = index.procsIn path name)
    (targets : List Path) : index'.searched name targets = index.searched name targets := by
  induction targets with
  | nil => rfl
  | cons target targets ih => rw [Index.searched, Index.searched, h, ih]

/-- A lookup adds the namespaces in which it looks. The induction is on the fuel, as for the procs that
it finds. -/
theorem findProcAt_adds {cmdName : Str} {parts : List Str}
    (hparts : (splitName cmdName).namespaceParts = .ok parts) (fuel : Nat) :
    ∀ {index : Index} {path : Path} {ns : Nat} {res : List Proc × Index}, index.WF →
      index.atPath path = some ns → ns ≤ fuel → findProcAt index cmdName fuel ns = .ok res →
      index.Adds res.2 (index.searched (splitName cmdName).name
        (candidates path (splitName cmdName) parts)) := by
  induction fuel with
  | zero =>
    intro index path ns res h hns hle
    have := (Index.atPath_valid h.namespaces hns).1
    omega
  | succ fuel ih =>
    intro index path ns res h hns hle hfind
    rcases resolveQualified_spec h.namespaces (splitName cmdName) hns with
      ⟨parts', target, index1, hparts', hres, hpath, hwf1, hg1⟩ | ⟨fault, hfault, -⟩
    swap
    · cases hparts.symm.trans hfault
    cases hparts.symm.trans hparts'
    have hadds := resolveQualified_adds h.namespaces hns hparts hres
    rw [findProcAt_resolved h fuel hns hres hpath hwf1 hg1] at hfind
    by_cases habsolute : (splitName cmdName).absolute = true
    · have hindex : res.2 = index1 := by
        cases hparent : index.tree.parent ns with
        | none =>
          rw [hparent] at hfind
          cases hfind
          rfl
        | some parent =>
          rw [hparent] at hfind
          dsimp only at hfind
          rw [if_neg (by simp [habsolute])] at hfind
          cases hfind
          rfl
      have hcandidates : index.searched (splitName cmdName).name
          (candidates path (splitName cmdName) parts) = [parts] := by
        simp [candidates, habsolute, Index.searched]
      rw [hindex, hcandidates]
      simpa [QualifiedName.targetPath, habsolute] using hadds
    · have htarget : (splitName cmdName).targetPath path parts = path ++ parts := by
        simp [QualifiedName.targetPath, habsolute]
      rw [htarget] at hadds
      rcases parent_atPath h.namespaces hns with
        ⟨rfl, hnone⟩ | ⟨outer, part, p, rfl, houter, hsome, hlt⟩
      · rw [hnone] at hfind
        cases hfind
        have hcandidates : index.searched (splitName cmdName).name
            (candidates [] (splitName cmdName) parts) = [[] ++ parts] := by
          simp [candidates, habsolute, Index.searched]
        rw [hcandidates]
        exact hadds
      · rw [hsome] at hfind
        dsimp only at hfind
        have hcandidates : candidates (outer ++ [part]) (splitName cmdName) parts =
            (outer ++ [part] ++ parts) :: candidates outer (splitName cmdName) parts := by
          simp [candidates, habsolute]
        rw [hcandidates, Index.searched]
        unfold Index.directly at hfind
        rw [htarget] at hfind
        by_cases hempty : index.procsIn (outer ++ [part] ++ parts) (splitName cmdName).name = []
        · have hisEmpty : (index.procsIn (outer ++ [part] ++ parts)
              (splitName cmdName).name).isEmpty = true := List.isEmpty_iff.mpr hempty
          rw [if_pos ⟨hisEmpty, habsolute⟩] at hfind
          rw [if_pos hempty]
          have hrest := ih (hg1.wf h hwf1) (hg1.toExtends.atPath h.namespaces houter) (by omega) hfind
          rw [searched_congr fun path => hg1.procsIn h hwf1 path _] at hrest
          exact hadds.trans hrest
        · rw [if_neg fun hand => hempty (List.isEmpty_iff.mp hand.1)] at hfind
          cases hfind
          rw [if_neg hempty]
          exact hadds

theorem findProc_adds {cmdName : Str} (h : index.WF) (hns : index.atPath path = some ns)
    {res : List Proc × Index} (hfind : findProc index ns cmdName = .ok res) :
    index.Adds res.2 (index.lookedUp path cmdName) := by
  unfold Index.lookedUp
  cases hparts : (splitName cmdName).namespaceParts with
  | ok parts =>
    exact findProcAt_adds hparts _ h hns (Index.atPath_valid h.namespaces hns).2 hfind
  | error fault =>
    have herror : findProc index ns cmdName = .error fault := findProcAt_error hparts _ h hns
    cases hfind.symm.trans herror

/-! ## One turn -/

theorem addProcToIndex_adds (h : index.WF) (site : Site Path) (hns : index.atPath site.scope = some ns)
    (hadd : addProcToIndex index ns site.call.words = .ok index') :
    index.Adds index' [procPath site.scope site.call] := by
  obtain ⟨nameWord, hname, hadd⟩ := bind_eq_ok.mp hadd
  obtain ⟨argsWord, -, hadd⟩ := bind_eq_ok.mp hadd
  obtain ⟨⟨proc, index1⟩, hargs, hadd⟩ := bind_eq_ok.mp hadd
  obtain ⟨⟨target, index2⟩, hq, hfin⟩ := bind_eq_ok.mp hadd
  obtain ⟨-, -, vars, rfl⟩ := addArgumentWord_ok hargs
  have h1 : { index with vars }.WF := withVars_wf h
  have hns1 : { index with vars }.atPath site.scope = some ns := hns
  have hword : site.call.words[1]? = some nameWord := nth_eq_ok.mp hname
  rcases resolveQualified_spec h1.namespaces (splitName nameWord.text.bytes) hns1 with
    ⟨parts, target', index2', hparts, hq', hpath, hwf, -⟩ | ⟨fault, -, hq'⟩
  · cases hq.symm.trans hq'
    have hadds := resolveQualified_adds h1.namespaces hns1 hparts hq
    have hprocPath : procPath site.scope site.call =
        (splitName nameWord.text.bytes).targetPath site.scope parts := by
      rw [procPath, wordText_eq hword, resolveFrom_eq hparts]
    have hscope : ({ index with vars } : Index).Adds index2 [procPath site.scope site.call] := by
      rw [hprocPath]
      exact hadds
    set f : Scope → Scope := fun s => { s with procs := s.procs ++ [proc.id] } with hf
    obtain rfl : (index2.withScope target f).withProc
        { proc with parentNamespace := target } nameWord.location = index' := Except.ok.inj hfin
    -- the new row and the scope that names it leave the tree as it is
    have htree := tree_withScope index2 (Index.atPath_valid hwf hpath).1 f
    refine Index.Adds.of_tree hscope ?_ rfl
    rw [withProc_tree, htree]
  · cases hq.symm.trans hq'

/-- What a turn of the first loop keeps, next to the paths that it adds. -/
structure ScanAdds (index index' : Index) (targets : List Path) : Prop where
  wf : index'.WF
  extended : index.Extends index'
  table : index.procs.table <+: index'.procs.table
  references : index.procs.references <+: index'.procs.references
  adds : index.Adds index' targets

theorem ScanAdds.refl (h : index.WF) : ScanAdds index index [] :=
  ⟨h, .refl index, List.prefix_rfl, List.prefix_rfl, .refl index⟩

theorem ScanAdds.trans {index'' : Index} {targets targets' : List Path}
    (h : ScanAdds index index' targets) (h' : ScanAdds index' index'' targets') :
    ScanAdds index index'' (targets ++ targets') :=
  ⟨h'.wf, h.extended.trans h'.extended, h.table.trans h'.table, h.references.trans h'.references,
    h.adds.trans h'.adds⟩

theorem scanAt_adds (h : index.WF) (site : Site Path) (hrun : scanAt index site = .ok index') :
    ScanAdds index index' site.scanTargets := by
  unfold scanAt at hrun
  unfold Site.scanTargets
  cases hns : index.atPath site.scope with
  | none =>
    rw [hns] at hrun
    cases hrun
  | some ns =>
    rw [hns] at hrun
    cases htype : site.call.type with
    | NAMESPACE_EVAL =>
      simp only [htype] at hrun
      obtain ⟨word, hword, hrun⟩ := bind_eq_ok.mp hrun
      obtain ⟨⟨target, grown⟩, hres, hrun⟩ := bind_eq_ok.mp hrun
      cases hrun
      have hget := nth_eq_ok.mp hword
      obtain ⟨-, hwf, hg⟩ := resolveNamespace_eval h.namespaces hns site.call hget hres
      have hparts : (namespaceEvalName word).namespaceParts = .ok (splitPath word.text.bytes) := rfl
      have hadds := resolveNamespace_adds h.namespaces hns hparts hres
      refine ⟨hg.wf h hwf, hg.toExtends, by rw [hg.procs], by rw [hg.procs], ?_⟩
      rw [evalPath, wordText_eq hget]
      exact hadds
    | PROC =>
      simp only [htype] at hrun
      obtain ⟨hwf, hx, reg, -, -, htable, hreferences⟩ := addProcToIndex_ok h site hns hrun
      refine ⟨hwf, hx, ?_, ?_, addProcToIndex_adds h site hns hrun⟩
      · rw [htable]
        exact List.prefix_append _ _
      · rw [hreferences]
        exact List.prefix_append _ _
    | WHILE | FOR | FOREACH | IF | USER =>
      simp only [htype] at hrun
      cases hrun
      exact .refl h

/-- What a turn of the second loop keeps, next to the paths that it adds. -/
structure IndexAdds (index index' : Index) (targets : List Path) : Prop where
  wf : index'.WF
  extended : index.Extends index'
  table : index'.procs.table = index.procs.table
  references : ∃ usages, index'.procs.references = index.procs.references ++ usages ∧
    ∀ r ∈ usages, r.type = .USAGE
  adds : index.Adds index' targets

theorem IndexAdds.refl (h : index.WF) : IndexAdds index index [] :=
  ⟨h, .refl index, rfl, ⟨[], by simp, by simp⟩, .refl index⟩

theorem IndexAdds.trans {index'' : Index} {targets targets' : List Path}
    (h : IndexAdds index index' targets) (h' : IndexAdds index' index'' targets') :
    IndexAdds index index'' (targets ++ targets') := by
  obtain ⟨usages, hreferences, husages⟩ := h.references
  obtain ⟨usages', hreferences', husages'⟩ := h'.references
  refine ⟨h'.wf, h.extended.trans h'.extended, h'.table.trans h.table, ⟨usages ++ usages', ?_, ?_⟩,
    h.adds.trans h'.adds⟩
  · rw [hreferences', hreferences, List.append_assoc]
  · intro r hr
    exact (List.mem_append.mp hr).elim (husages r) (husages' r)

theorem IndexAdds.of_grows {targets : List Path} (h : index.WF) (hwf : index'.NamespacesWF)
    (hg : index.Grows index') (hadds : index.Adds index' targets) : IndexAdds index index' targets :=
  ⟨hg.wf h hwf, hg.toExtends, by rw [hg.procs], ⟨[], by simp [hg.procs], by simp⟩, hadds⟩

theorem IndexAdds.procsIn {targets : List Path} (ht : IndexAdds index index' targets) (h : index.WF)
    (path : Path) (name : Str) : index'.procsIn path name = index.procsIn path name :=
  ht.extended.procsIn h ht.wf.namespaces ht.table path name

theorem indexUsage_adds (h : index.WF) (site : Site Path) (hns : index.atPath site.scope = some ns)
    (htype : site.call.type = .USER) {fit : Option Nat}
    (hu : indexUsage index ns site.call = .ok (fit, index')) :
    IndexAdds index index' (index.lookedUp site.scope (site.call.wordText 0)) := by
  obtain ⟨hwf, hx, htable, -, hreferences, -⟩ := indexUsage_ok h site hns htype hu
  refine ⟨hwf, hx, htable, ⟨_, hreferences, fun r hr => ?_⟩, ?_⟩
  · obtain ⟨p, -, -, -, husage⟩ := usageOf_eq_some.mp (Option.mem_toList.mp hr)
    exact husage
  obtain ⟨word, hword, hu⟩ := bind_eq_ok.mp hu
  obtain ⟨⟨procs, index1⟩, hfind, hu⟩ := bind_eq_ok.mp hu
  have hadds := findProc_adds h hns hfind
  rw [wordText_eq (nth_eq_ok.mp hword)]
  cases hbest : bestFitProcToCall procs site.call with
  | none =>
    simp only [hbest] at hu
    cases hu
    exact hadds
  | some p =>
    simp only [hbest] at hu
    cases hu
    exact hadds.of_tree rfl rfl

theorem indexAt_adds (h : index.WF) (site : Site Path) (hrun : indexAt index site = .ok index') :
    IndexAdds index index' (site.indexTargets index) := by
  unfold indexAt at hrun
  unfold Site.indexTargets
  cases hns : index.atPath site.scope with
  | none =>
    rw [hns] at hrun
    cases hrun
  | some ns =>
    rw [hns] at hrun
    cases htype : site.call.type with
    | NAMESPACE_EVAL =>
      simp only [htype] at hrun
      obtain ⟨word, hword, hrun⟩ := bind_eq_ok.mp hrun
      obtain ⟨⟨target, grown⟩, hres, hrun⟩ := bind_eq_ok.mp hrun
      cases hrun
      have hget := nth_eq_ok.mp hword
      obtain ⟨-, hwf, hg⟩ := resolveNamespace_eval h.namespaces hns site.call hget hres
      have hparts : (namespaceEvalName word).namespaceParts = .ok (splitPath word.text.bytes) := rfl
      have hadds := resolveNamespace_adds h.namespaces hns hparts hres
      refine .of_grows h hwf hg ?_
      rw [evalPath, wordText_eq hget]
      exact hadds
    | PROC =>
      simp only [htype] at hrun
      obtain ⟨word, hword, hrun⟩ := bind_eq_ok.mp hrun
      obtain ⟨⟨target, grown⟩, hres, hrun⟩ := bind_eq_ok.mp hrun
      cases hrun
      have hget := nth_eq_ok.mp hword
      obtain ⟨-, hwf, hg, parts, hparts⟩ := resolveNamespace_proc h.namespaces hns site.call hget hres
      rw [wordText_eq hget] at hparts
      have hadds := resolveNamespace_adds h.namespaces hns hparts hres
      refine .of_grows h hwf hg ?_
      rw [procPath, wordText_eq hget, resolveFrom_eq hparts]
      exact hadds
    | USER =>
      simp only [htype] at hrun
      obtain ⟨⟨fit, found⟩, hu, hrun⟩ := bind_eq_ok.mp hrun
      cases hrun
      exact indexUsage_adds h site hns htype hu
    | WHILE | FOR | FOREACH | IF =>
      simp only [htype] at hrun
      cases hrun
      exact .refl h

/-! ## The loops -/

theorem indexTargets_congr (h : ∀ path name, index'.procsIn path name = index.procsIn path name)
    (site : Site Path) : site.indexTargets index' = site.indexTargets index := by
  unfold Site.indexTargets Index.lookedUp
  simp only [searched_congr fun path => h path _]

theorem scanLoop_adds (sites : List (Site Path)) :
    ∀ {index : Index}, index.WF → sites.foldlM scanAt index = .ok index' →
      ScanAdds index index' (sites.flatMap Site.scanTargets) := by
  induction sites with
  | nil =>
    intro _ h hrun
    cases hrun
    exact .refl h
  | cons site sites ih =>
    intro index h hrun
    obtain ⟨turned, hturn, hrun⟩ := bind_eq_ok.mp hrun
    have hfirst := scanAt_adds h site hturn
    exact hfirst.trans (ih hfirst.wf hrun)

theorem indexLoop_adds (sites : List (Site Path)) :
    ∀ {index : Index}, index.WF → sites.foldlM indexAt index = .ok index' →
      IndexAdds index index' (sites.flatMap (Site.indexTargets index)) := by
  induction sites with
  | nil =>
    intro _ h hrun
    cases hrun
    exact .refl h
  | cons site sites ih =>
    intro index h hrun
    obtain ⟨turned, hturn, hrun⟩ := bind_eq_ok.mp hrun
    have hfirst := indexAt_adds h site hturn
    have hrest := ih hfirst.wf hrun
    -- no turn changes which procs a namespace holds, so all look in the same places
    have hsame : sites.flatMap (Site.indexTargets turned) = sites.flatMap (Site.indexTargets index) :=
      congrArg sites.flatMap (funext (indexTargets_congr (hfirst.procsIn h)))
    rw [List.flatMap_cons, ← hsame]
    exact hfirst.trans hrest

/-- The two loops of `Build`, with what each of them keeps. -/
theorem buildNew_loops (h : buildNew script = .ok result) :
    ∃ scanned, script.scanSites.foldlM scanAt makeIndex = .ok scanned ∧
      ScanAdds makeIndex scanned (script.scanSites.flatMap Site.scanTargets) ∧
      IndexAdds scanned result.index (script.indexSites.flatMap (Site.indexTargets scanned)) := by
  obtain ⟨scanned, hscan, hindex⟩ := bind_eq_ok.mp (buildFlat_of_buildNew h)
  have hscans := scanLoop_adds _ makeIndex_wf hscan
  exact ⟨scanned, hscan, hscans, indexLoop_adds _ hscans.wf hindex⟩

theorem makeIndex_hasPath (path : Path) : makeIndex.HasPath path ↔ path = [] := by
  constructor
  · rintro ⟨ns, hns⟩
    cases path with
    | nil => rfl
    | cons part path =>
      have hchild : makeIndex.tree.child makeIndex.globalNamespaceId part = none := rfl
      simp [Index.atPath, NameTree.walk, hchild] at hns
  · rintro rfl
    exact ⟨_, rfl⟩

/-- The namespaces of a built index are the global one, those that a call of the script names and those
in which a lookup of the script looks, with the ones around them, and no others. -/
theorem namespaces_exact (h : buildNew script = .ok result) (path : Path) :
    result.index.HasPath path ↔
      path = [] ∨ ∃ target ∈ script.namespaceTargets result.index, path <+: target := by
  obtain ⟨scanned, -, hscans, hturns⟩ := buildNew_loops h
  have hsame : script.indexSites.flatMap (Site.indexTargets result.index) =
      script.indexSites.flatMap (Site.indexTargets scanned) :=
    congrArg script.indexSites.flatMap (funext (indexTargets_congr (hturns.procsIn hscans.wf)))
  rw [hscans.adds.trans hturns.adds path, makeIndex_hasPath, Script.namespaceTargets, hsame]

/-- `namespace eval a { proc b::f {} {}; c::g }` -/
def evalA : Call :=
  ⟨.NAMESPACE_EVAL, [textWord 0 "namespace", textWord 10 "eval", textWord 15 "a",
    scriptWord 18 " proc b::f {} {}; c::g "
      [⟨.PROC, [textWord 19 "proc", textWord 24 "b::f", listWord 30 "" [], scriptWord 33 "" []],
        bytes "::a"⟩,
      ⟨.USER, [textWord 36 "c::g"], bytes "::a"⟩]], []⟩

/-- The lookup of `c::g` makes `a::c` and `c`. -/
theorem namespaces_exact_evalA : ∃ result, buildNew ⟨lineLocation 0, [evalA]⟩ = .ok result ∧
    ∀ path, result.index.HasPath path ↔ path = [] ∨ ∃ target ∈ [[bytes "a"], [bytes "a", bytes "b"],
      [bytes "a"], [bytes "a", bytes "b"], [bytes "a", bytes "c"], [bytes "c"]], path <+: target := by
  obtain ⟨result, h, htargets⟩ := exists_of_returns
    (show returns (buildNew ⟨lineLocation 0, [evalA]⟩) (fun result =>
      Script.namespaceTargets ⟨lineLocation 0, [evalA]⟩ result.index = [[bytes "a"],
        [bytes "a", bytes "b"], [bytes "a"], [bytes "a", bytes "b"], [bytes "a", bytes "c"],
        [bytes "c"]]) = true by decide +kernel)
  refine ⟨result, h, fun path => ?_⟩
  rw [namespaces_exact h path, of_decide_eq_true htargets]

end TclAnalyzer
