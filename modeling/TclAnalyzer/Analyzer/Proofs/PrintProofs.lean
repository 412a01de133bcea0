import TclAnalyzer.Analyzer.Registrations
import TclAnalyzer.Analyzer.Samples
import TclAnalyzer.Analyzer.Proofs.AbsPathProofs
import TclAnalyzer.Analyzer.Proofs.InvariantProofs

/-!
# Printing names and looking them up

`GetPrintName` joins the names from the global namespace down, whose own name is empty, so that what it
prints starts with a separator. `FindNamespace` and `FindProc` split that into the same names as long
as they are plain.
-/

namespace TclAnalyzer

variable {index index' : Index}

/-- The global namespace has no name, and the others have a plain one. -/
def Namespace.NamedPlainly (n : Namespace) : Prop :=
  match n.parentNamespace with
  | none => n.name = []
  | some _ => Plain [n.name]

/-- The invariant of registering plain names. -/
structure Index.NamedPlainly (index : Index) : Prop where
  wf : index.WF
  namespaces : ∀ n ∈ index.namespaces.table, n.NamedPlainly
  procs : ∀ p ∈ index.procs.table, Plain [p.name]

theorem plain_singleton {components : List Str} (h : Plain components) {component : Str}
    (hmem : component ∈ components) : Plain [component] := by
  intro c hc
  rw [List.mem_singleton.mp hc]
  exact h component hmem

/-! ## Keeping names plain -/

theorem makeIndex_namedPlainly : makeIndex.NamedPlainly where
  wf := makeIndex_wf
  namespaces n hn := by
    rw [List.mem_singleton.mp hn]
    rfl
  procs p hp := absurd hp List.not_mem_nil

theorem Registration.Step.namedPlainly {registration : Registration}
    (hs : registration.Step index index') (h : index.NamedPlainly) : index'.NamedPlainly := by
  obtain ⟨hplain, hns, hrun⟩ := hs
  obtain ⟨path, hpath⟩ := (hasNamespace_iff h.wf.namespaces).mp hns
  cases registration with
  | resolveNamespace qn ns =>
    obtain ⟨⟨target, index1⟩, hres, hrun⟩ := bind_eq_ok.mp hrun
    cases hrun
    obtain ⟨parts, hparts, hplain⟩ := hplain
    obtain ⟨hrows, hprocs⟩ := resolveNamespace_rows (P := Namespace.NamedPlainly) (fun _ _ hn => hn)
      hparts (fun part hmem _ _ => plain_singleton hplain hmem) h.namespaces hres
    rcases resolveNamespace_spec h.wf.namespaces qn hpath with
      ⟨-, ns', index2, -, hres', -, hwf, hg⟩ | ⟨fault, -, hf⟩
    · cases hres.symm.trans hres'
      refine ⟨hg.wf h.wf hwf, hrows, ?_⟩
      rw [hprocs]
      exact h.procs
    · cases hres.symm.trans hf
  | addProcToIndex ns words =>
    obtain ⟨nameWord, parts, hword, hparts, hplain⟩ := hplain
    obtain ⟨hwf, -, reg, hreg, -, htable, -⟩ :=
      addProcToIndex_ok h.wf ⟨[], ⟨.PROC, words, []⟩, path⟩ hpath hrun
    refine ⟨hwf, (addProcToIndex_rows (P := Namespace.NamedPlainly) (fun _ _ hn => hn)
      (fun _ hn => hn) ?_ h.namespaces hrun).1, ?_⟩
    · intro nameWord' parts' hword' hparts' part hmem _ _
      cases hword.symm.trans hword'
      cases hparts.symm.trans hparts'
      exact plain_singleton hplain (List.mem_append_left _ hmem)
    · intro p hp
      rw [htable] at hp
      rcases List.mem_append.mp hp with hp | hp
      · exact h.procs p hp
      · rw [List.mem_singleton.mp hp, hreg.name, wordText_eq hword]
        exact plain_singleton hplain (List.mem_append_right _ List.mem_cons_self)

/-- The names on the way to a namespace are plain. -/
theorem Index.NamedPlainly.plain (h : index.NamedPlainly) {path : Path} {ns : Nat}
    (hns : index.atPath path = some ns) : Plain path := by
  induction path using List.reverseRecOn generalizing ns with
  | nil => exact fun _ hmem => absurd hmem List.not_mem_nil
  | append_singleton outer part ih =>
    obtain ⟨p, hp, hparent, hname⟩ := NameTree.walk_concat h.wf.namespaces.tree hns
    obtain ⟨n, hn, -, hnname, hnparent, -⟩ :=
      get_namespace h.wf.namespaces (Index.atPath_valid h.wf.namespaces hns)
    have hplain := h.namespaces n (RefRecord.mem_of_row (RefRecord.get_eq_ok.mp hn))
    rw [Namespace.NamedPlainly, hnparent, hparent, hnname, hname] at hplain
    exact (ih hp).append hplain

/-! ## Printing and looking up -/

theorem Index.NamedPlainly.global_name (h : index.NamedPlainly) :
    index.tree.name index.globalNamespaceId = [] := by
  obtain ⟨n, hn, -, hname, hparent, -⟩ :=
    get_namespace h.wf.namespaces h.wf.namespaces.tree.root_valid
  have hplain := h.namespaces n (RefRecord.mem_of_row (RefRecord.get_eq_ok.mp hn))
  rw [Namespace.NamedPlainly, hparent, h.wf.namespaces.tree.root_parent] at hplain
  exact hname.symm.trans hplain

/-- An entity prints as the string for the path of its namespace and its name. -/
theorem Index.NamedPlainly.getPrintName_eq (h : index.NamedPlainly) {path : Path} {ns : Nat}
    (hns : index.atPath path = some ns) (name : Str) :
    getPrintName index name (some ns) = .ok (pathString (path ++ [name])) := by
  rw [TclAnalyzer.getPrintName_eq h.wf.namespaces hns, h.global_name, List.cons_append,
    pathString_eq_intercalate (by simp), List.intercalate_cons_of_ne_nil (by simp), List.nil_append]

/-- A namespace prints as the string for its path. -/
theorem Index.NamedPlainly.getPrintName_namespace (h : index.NamedPlainly) {path : Path} {ns : Nat}
    (hns : index.atPath path = some ns) {n : Namespace} (hn : index.namespaces.get ns = .ok n) :
    getPrintName index n.name n.parentNamespace = .ok (pathString path) := by
  obtain ⟨-, hname, hparent, -⟩ := get_valid h.wf.namespaces hn
  rcases parent_atPath h.wf.namespaces hns with ⟨rfl, hnone⟩ | ⟨outer, part, p, rfl, houter, hsome, -⟩
  · obtain rfl : index.globalNamespaceId = ns := by simpa [Index.atPath] using hns
    rw [hname, h.global_name, hparent, hnone]
    simp [getPrintName, ancestorNames]
  · obtain ⟨-, -, -, hpart⟩ := NameTree.walk_concat h.wf.namespaces.tree hns
    rw [hname, hpart, hparent, hsome]
    exact h.getPrintName_eq houter part

theorem Index.NamedPlainly.findNamespace_pathString (h : index.NamedPlainly) {path : Path} {ns : Nat}
    (hns : index.atPath path = some ns) :
    findNamespace index (pathString path) = .ok (some ns) := by
  obtain ⟨habs, hparts⟩ := (h.plain hns).names
  rw [findNamespace_eq h.wf.namespaces habs, hparts, Except.map, hns]

/-- The name of a proc with its path is looked up in that namespace only. -/
theorem Index.NamedPlainly.findProc_pathString (h : index.NamedPlainly) {path : Path} {p : Proc}
    (hp : p ∈ index.procs.table) (hns : index.atPath path = some p.parentNamespace) :
    ∃ procs index', findProc index index.globalNamespaceId (pathString (path ++ [p.name])) =
      .ok (procs, index') ∧ p ∈ procs := by
  have hplain : Plain (path ++ [p.name]) := (h.plain hns).append (h.procs p hp)
  have hstring : nameOf true (path ++ [p.name]) = pathString (path ++ [p.name]) :=
    (pathString_eq_intercalate (by simp)).symm
  obtain ⟨hparts, habs, hname⟩ := namespaceParts_nameOf hplain true
  rw [hstring] at hparts habs hname
  have hglobal : index.atPath [] = some index.globalNamespaceId := rfl
  rcases findProc_spec h.wf hglobal (pathString (path ++ [p.name])) with
    ⟨-, index', -, hfind, -⟩ | ⟨fault, hfault, -⟩
  · refine ⟨_, index', hfind, ?_⟩
    rw [nearest_of_absolute hparts habs, Index.directly, QualifiedName.targetPath, if_pos habs, hname]
    exact List.mem_filter.mpr ⟨hp, by simpa using hns⟩
  · cases hparts.symm.trans hfault

theorem Index.NamedPlainly.printsBack (h : index.NamedPlainly) : index.PrintsBack where
  namespaces ns n hn := by
    obtain ⟨path, hpath⟩ := (hasNamespace_iff h.wf.namespaces).mp ⟨n, hn⟩
    exact ⟨_, h.getPrintName_namespace hpath hn, h.findNamespace_pathString hpath⟩
  distinct ns ns' n n' printName hn hn' hprint hprint' := by
    obtain ⟨path, hpath⟩ := (hasNamespace_iff h.wf.namespaces).mp ⟨n, hn⟩
    obtain ⟨path', hpath'⟩ := (hasNamespace_iff h.wf.namespaces).mp ⟨n', hn'⟩
    cases hprint.symm.trans (h.getPrintName_namespace hpath hn)
    have hsame := Except.ok.inj (hprint'.symm.trans (h.getPrintName_namespace hpath' hn'))
    have hfind := h.findNamespace_pathString hpath
    rw [hsame, h.findNamespace_pathString hpath'] at hfind
    exact (Option.some.inj (Except.ok.inj hfind)).symm
  procs p hp := by
    obtain ⟨path, hpath⟩ := Index.exists_atPath h.wf.namespaces (h.wf.parents p hp)
    obtain ⟨procs, index', hfind, hmem⟩ := h.findProc_pathString hp hpath
    exact ⟨_, procs, index', h.getPrintName_eq hpath p.name, hfind, hmem⟩

/-- In every index that comes of registering plain names, printing a namespace or a proc and looking
it up are inverses. -/
theorem registered_printsBack {registrations : List Registration}
    (h : Run Registration.Step makeIndex registrations index) : index.PrintsBack :=
  (h.invariant makeIndex_namedPlainly fun _ _ _ hi hs => hs.namedPlainly hi).printsBack

/-- The definition of `A::f` in the new index. -/
def registerF : Registration :=
  .addProcToIndex 1 [textWord 0 "proc", textWord 5 "A::f", listWord 10 "" [], scriptWord 13 "" []]

theorem registerF_printsBack :
    ∃ index, Run Registration.Step makeIndex [registerF] index ∧ index.PrintsBack := by
  obtain ⟨index, h, -⟩ := exists_of_returns (show returns (registerF.perform makeIndex)
    (fun _ => true) = true by decide +kernel)
  have hplain : registerF.PlainName :=
    ⟨textWord 5 "A::f", [bytes "A"], rfl, by decide +kernel, by decide +kernel⟩
  have hrun : Run Registration.Step makeIndex [registerF] index := .single ⟨hplain, ⟨_, rfl⟩, h⟩
  exact ⟨index, hrun, registered_printsBack hrun⟩

end TclAnalyzer
