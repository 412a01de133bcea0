import TclAnalyzer.Analyzer.Samples
import TclAnalyzer.Analyzer.Proofs.OrderProofs
import TclAnalyzer.Analyzer.Proofs.PrintProofs
import TclAnalyzer.Analyzer.Proofs.SortedTablesProofs
import TclAnalyzer.Tool.Report

/-!
# The report is complete

The loops of the report print what they meet, and sorting the index by name neither loses nor repeats
a row. So the report of an index lists everything that is in it.
-/

namespace TclAnalyzer

variable {index : Index}

/-! ## Names -/

/-- The global namespace has no name. -/
def Index.RootUnnamed (index : Index) : Prop := index.tree.name index.globalNamespaceId = []

/-- An entity prints as the string for the path of its namespace and its name. -/
theorem getPrintName_path (h : index.NamespacesWF) (hroot : index.RootUnnamed) {path : Path} {ns : Nat}
    (hns : index.atPath path = some ns) (name : Str) :
    getPrintName index name (some ns) = .ok (pathString (path ++ [name])) := by
  rw [getPrintName_eq h hns, hroot, List.cons_append, pathString_eq_intercalate (by simp),
    List.intercalate_cons_of_ne_nil (by simp), List.nil_append]

/-- A namespace prints as the string for its path. -/
theorem getPrintName_namespace (h : index.NamespacesWF) (hroot : index.RootUnnamed) {path : Path}
    {n : Namespace} (hns : index.atPath path = some n.id) (hn : n ∈ index.namespaces.table) :
    getPrintName index n.name n.parentNamespace = .ok (pathString path) := by
  have hget := RefRecord.get_eq_ok.mpr (h.table.row_id hn)
  obtain ⟨-, hname, hparent, -⟩ := get_valid h hget
  rcases parent_atPath h hns with ⟨rfl, hnone⟩ | ⟨outer, part, p, rfl, houter, hsome, -⟩
  · have hid : index.globalNamespaceId = n.id := by simpa [Index.atPath] using hns
    have hunnamed : index.tree.name n.id = [] := hid ▸ hroot
    rw [hname, hparent, show index.tree.parent (Row.id n) = none from hnone,
      show index.tree.name (Row.id n) = [] from hunnamed]
    simp [getPrintName, ancestorNames]
  · obtain ⟨-, -, -, hpart⟩ := NameTree.walk_concat h.tree hns
    rw [hname, hparent, show index.tree.parent (Row.id n) = some p from hsome,
      show index.tree.name (Row.id n) = part from hpart]
    exact getPrintName_path h hroot houter part

/-! ## The loops -/

theorem printNamespaces_eq (h : index.NamespacesWF) (hroot : index.RootUnnamed)
    {path : Namespace → Path} {rows : List Namespace} (hrows : ∀ n ∈ rows, n ∈ index.namespaces.table)
    (hpath : ∀ n ∈ rows, index.atPath (path n) = some n.id) :
    printNamespaces index (rows.map fun n => (n.name, n.id)) =
      .ok (rows.flatMap fun n => namespaceLine (pathString (path n))) := by
  induction rows with
  | nil => rfl
  | cons n rows ih =>
    have hn := hrows n List.mem_cons_self
    have hget := RefRecord.get_eq_ok.mpr (h.table.row_id hn)
    have hname := getPrintName_namespace h hroot (hpath n List.mem_cons_self) hn
    have hrest := ih (fun m hm => hrows m (List.mem_cons_of_mem _ hm))
      fun m hm => hpath m (List.mem_cons_of_mem _ hm)
    rw [List.map_cons, printNamespaces, show index.namespaces.get n.id = .ok n from hget, hrest]
    simp [hname]

/-- The lines of the references to a proc, under the name of the proc. -/
theorem printReferences_eq {p : Proc} {name : Str} (hget : index.procs.get p.id = .ok p)
    (hname : getPrintName index p.name (some p.parentNamespace) = .ok name) {range : List Nat}
    (hrange : ∀ pos ∈ range, ∃ r, index.procs.references[pos]? = some r ∧ r.id = p.id) :
    printReferences index range = .ok
      ((range.filterMap fun pos => index.procs.references[pos]?).flatMap (referenceLine name)) := by
  induction range with
  | nil => rfl
  | cons pos range ih =>
    obtain ⟨r, hr, hid⟩ := hrange pos List.mem_cons_self
    have hrest := ih fun pos hpos => hrange pos (List.mem_cons_of_mem _ hpos)
    rw [printReferences, nth_eq_ok.mpr hr, hrest]
    simp [hr, hid, hget, hname]

theorem printReferences_refsOf (h : index.WF) {p : Proc} {name : Str} (hp : p ∈ index.procs.table)
    (hname : getPrintName index p.name (some p.parentNamespace) = .ok name) :
    printReferences index (index.procs.refsByID.equalRange p.id) =
      .ok ((index.procs.refsOf p.id).flatMap (referenceLine name)) :=
  printReferences_eq (RefRecord.get_eq_ok.mpr (h.procs.row_id hp)) hname fun pos hpos =>
    (h.procs.mem_refsByID p.id pos).mp hpos

theorem printProcs_eq (h : index.WF) (hroot : index.RootUnnamed) {path : Proc → Path}
    {rows : List Proc} (hrows : ∀ p ∈ rows, p ∈ index.procs.table)
    (hpath : ∀ p ∈ rows, index.atPath (path p) = some p.parentNamespace) :
    printProcs index (rows.map fun p => (p.name, p.id)) =
      .ok (rows.flatMap fun p => procText index (path p) p) := by
  induction rows with
  | nil => rfl
  | cons p rows ih =>
    have hp := hrows p List.mem_cons_self
    have hget := RefRecord.get_eq_ok.mpr (h.procs.row_id hp)
    have hname := getPrintName_path h.namespaces hroot (hpath p List.mem_cons_self) p.name
    have hrest := ih (fun q hq => hrows q (List.mem_cons_of_mem _ hq))
      fun q hq => hpath q (List.mem_cons_of_mem _ hq)
    rw [List.map_cons, printProcs, show index.procs.get p.id = .ok p from hget, hrest]
    simp [hname, printReferences_refsOf h hp hname, procText]

/-! ## Completeness -/

/-- Grouping by the keys that occur neither loses nor repeats an element. -/
theorem flatMap_filter_perm {α κ : Type*} [DecidableEq κ] (key : α → κ) {keys : List κ}
    (hnodup : keys.Nodup) {l : List α} (hkeys : ∀ a ∈ l, key a ∈ keys) :
    (keys.flatMap fun k => l.filter fun a => key a = k).Perm l := by
  induction keys generalizing l with
  | nil =>
    obtain rfl : l = [] := List.eq_nil_iff_forall_not_mem.mpr fun a ha => nomatch hkeys a ha
    exact .nil
  | cons k keys ih =>
    obtain ⟨hk, hnodup⟩ := List.nodup_cons.mp hnodup
    have hothers : (keys.flatMap fun k' => l.filter fun a => key a = k') =
        keys.flatMap fun k' => (l.filter fun a => ¬key a = k).filter fun a => key a = k' := by
      refine List.flatMap_congr fun k' hk' => ?_
      rw [List.filter_filter]
      refine List.filter_congr fun a _ => ?_
      have hne : k' ≠ k := fun heq => hk (heq ▸ hk')
      by_cases ha : key a = k'
      · simp [ha, hne]
      · simp [ha]
    have hrest : ∀ a ∈ l.filter (fun a => ¬key a = k), key a ∈ keys := by
      intro a ha
      obtain ⟨hmem, hne⟩ := List.mem_filter.mp ha
      exact (List.mem_cons.mp (hkeys a hmem)).resolve_left (by simpa using hne)
    have hsplit := List.filter_append_perm (fun a => decide (key a = k)) l
    simp only [← decide_not] at hsplit
    rw [List.flatMap_cons, hothers]
    exact ((ih hnodup hrest).append_left _).trans hsplit

theorem references_grouped (h : index.WF) {rows : List Proc} (hrows : rows.Perm index.procs.table) :
    (rows.flatMap fun p => index.procs.refsOf p.id).Perm index.procs.references := by
  have hnodup : (rows.map Row.id).Nodup := (hrows.map Row.id).nodup_iff.mpr h.procs.nodup
  have hids : ∀ r ∈ index.procs.references, r.id ∈ rows.map Row.id := by
    intro r hr
    obtain ⟨p, hp⟩ := RefRecord.row_isSome.mpr (h.referenced r hr)
    exact List.mem_map.mpr ⟨p, hrows.mem_iff.mpr (RefRecord.mem_of_row hp), h.procs.ids _ _ hp⟩
  have hgrouped := flatMap_filter_perm Reference.id hnodup hids
  rw [List.flatMap_map] at hgrouped
  simp only [h.procs.refsOf_eq]
  exact hgrouped

theorem exists_path_of_row (h : index.NamespacesWF) {n : Namespace} (hn : n ∈ index.namespaces.table) :
    ∃ path, index.atPath path = some n.id :=
  Index.exists_atPath h (h.table.id_valid hn)

/-- The report of an index with the invariant lists all that is in it. -/
theorem printIndex_lists (h : index.WF) (hroot : index.RootUnnamed) :
    ∃ report : Report, report.Lists index ∧ printIndex index = .ok (report.text index) := by
  obtain ⟨namespaces, hnames, hnsperm, hnsorder⟩ := SortedRecord.exists_rows h.namespaces.table
  obtain ⟨procs, hprocs, hperm, horder⟩ := SortedRecord.exists_rows h.procs
  have hns : ∀ n ∈ namespaces, n ∈ index.namespaces.table := fun n hn => hnsperm.mem_iff.mp hn
  have hp : ∀ p ∈ procs, p ∈ index.procs.table := fun p hp => hperm.mem_iff.mp hp
  have hnspath : ∀ n ∈ namespaces, ∃ path, index.atPath path = some n.id :=
    fun n hn => exists_path_of_row h.namespaces (hns n hn)
  have hppath : ∀ p ∈ procs, ∃ path, index.atPath path = some p.parentNamespace :=
    fun p hmem => Index.exists_atPath h.namespaces (h.parents p (hp p hmem))
  choose! nsPath hnsPath using hnspath
  choose! procPath hprocPath using hppath
  refine ⟨{ namespaces := namespaces.map fun n => (nsPath n, n),
            procs := procs.map fun p => (procPath p, p) }, ?_, ?_⟩
  · exact {
      namespaces := by simpa [Function.comp_def] using hnsperm
      namespacePaths := by simpa using hnsPath
      namespaceOrder := List.pairwise_map.mpr hnsorder
      procs := by simpa [Function.comp_def] using hperm
      procPaths := by simpa using hprocPath
      procOrder := List.pairwise_map.mpr horder
      references := by simpa [List.flatMap_map] using references_grouped h hperm
      definitions := by
        intro e he
        obtain ⟨p, hmem, rfl⟩ := List.mem_map.mp he
        exact h.sound.definitions p (hp p hmem) }
  · have hprintNs := printNamespaces_eq h.namespaces hroot hns hnsPath
    have hprintProcs := printProcs_eq h hroot hp hprocPath
    have hnsEntries : index.namespaces.sorted.byName.entries =
        namespaces.map fun n => (n.name, n.id) := hnames
    have hprocEntries : index.procs.sorted.byName.entries = procs.map fun p => (p.name, p.id) := hprocs
    rw [printIndex, hnsEntries, hprocEntries, hprintNs, hprintProcs, Report.text, List.flatMap_map,
      List.flatMap_map]
    rfl

theorem Index.Extends.rootUnnamed {index' : Index} (hx : index.Extends index')
    (h : index.NamespacesWF) (hroot : index.RootUnnamed) : index'.RootUnnamed := by
  rw [Index.RootUnnamed, hx.global, hx.tree.name _ h.tree.root_valid]
  exact hroot

theorem buildNew_rootUnnamed {script : Script} {result : BuildResult}
    (h : buildNew script = .ok result) : result.index.RootUnnamed := by
  obtain ⟨scan, hscan, h⟩ := bind_eq_ok.mp h
  obtain ⟨indexed, hindex, h⟩ := bind_eq_ok.mp h
  cases h
  have hscanned := scanScript_ok makeIndex_wf makeIndex_at hscan
  have hat := makeIndex_at.mono hscanned.extended makeIndex_wf.namespaces
  have hstart : ({ index := scan.index, visits := [] } : PassState).index.WF := hscanned.wf
  have hindexed := indexScript_ok hstart hat hindex
  have hx : makeIndex.Extends indexed.index := hscanned.extended.trans hindexed.extended
  exact hx.rootUnnamed makeIndex_wf.namespaces rfl

/-- The tool prints all that `Build` makes of a script: it does not abort, and every namespace, every
proc and every reference is listed once, by name. -/
theorem printIndex_built {script : Script} {result : BuildResult} (h : buildNew script = .ok result) :
    ∃ report : Report, report.Lists result.index ∧
      printIndex result.index = .ok (report.text result.index) :=
  printIndex_lists (buildNew_ok h).wf (buildNew_rootUnnamed h)

/-- `proc f {} {};f` -/
theorem printIndex_defineF : ∃ result, buildNew ⟨lineLocation 0, [defineF, useF]⟩ = .ok result ∧
    result.index.procs.references.map Reference.type = [.DEFINITION, .USAGE] ∧
    ∃ report : Report, report.Lists result.index ∧
      printIndex result.index = .ok (report.text result.index) := by
  obtain ⟨result, h, hreferences⟩ := exists_of_returns (show returns
    (buildNew ⟨lineLocation 0, [defineF, useF]⟩) (fun result =>
      result.index.procs.references.map Reference.type = [.DEFINITION, .USAGE]) = true by
    decide +kernel)
  exact ⟨result, h, of_decide_eq_true hreferences, printIndex_built h⟩

end TclAnalyzer
