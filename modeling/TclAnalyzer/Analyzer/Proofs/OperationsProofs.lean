import TclAnalyzer.Analyzer.Operations
import TclAnalyzer.Analyzer.Samples
import TclAnalyzer.Analyzer.Proofs.BuildProofs

/-!
# Every index is sound

The invariant `Index.WF` holds of the new index and is kept by every operation, and it gives what the
rest of the analyzer relies on.
-/

namespace TclAnalyzer

variable {index index' : Index}

theorem hasNamespace_iff (h : index.NamespacesWF) {ns : Nat} :
    index.HasNamespace ns ↔ ∃ path, index.atPath path = some ns := by
  constructor
  · rintro ⟨n, hn⟩
    exact Index.exists_atPath h (tree_valid_iff.mpr ⟨n, RefRecord.get_eq_ok.mp hn⟩)
  · rintro ⟨path, hpath⟩
    obtain ⟨n, hn, -⟩ := get_namespace h (Index.atPath_valid h hpath)
    exact ⟨n, hn⟩

theorem ScanContext.at_of_existing (h : index.NamespacesWF) {context : ScanContext}
    (hne : context.nsPath ≠ []) (hall : ∀ ns ∈ context.nsPath, index.HasNamespace ns) :
    ∃ path, context.At index path := by
  obtain ⟨top, rest, hcons⟩ := List.exists_cons_of_ne_nil hne
  obtain ⟨path, hpath⟩ := (hasNamespace_iff h).mp (hall top (hcons ▸ List.mem_cons_self))
  exact ⟨path, top, rest, hcons, hpath⟩

/-! ## Keeping the invariant -/

/-- An operation keeps the invariant and the namespaces. -/
theorem Operation.Step.keeps {operation : Operation} (hs : operation.Step index index')
    (h : index.WF) : index'.WF ∧ index.Extends index' := by
  obtain ⟨hex, hrun⟩ := hs
  cases operation with
  | scanScript context script =>
    obtain ⟨st, hst, hrun⟩ := bind_eq_ok.mp hrun
    cases hrun
    obtain ⟨path, hc⟩ := ScanContext.at_of_existing h.namespaces hex.1 hex.2
    have hstart : ({ index, visits := [] } : PassState).index.WF := h
    have hs := scanScript_ok hstart hc hst
    exact ⟨hs.wf, hs.extended⟩
  | indexScript context script =>
    obtain ⟨st, hst, hrun⟩ := bind_eq_ok.mp hrun
    cases hrun
    obtain ⟨path, hc⟩ := ScanContext.at_of_existing h.namespaces hex.1 hex.2
    have hstart : ({ index, visits := [] } : PassState).index.WF := h
    have hi := indexScript_ok hstart hc hst
    exact ⟨hi.wf, hi.extended⟩
  | resolveNamespace qn ns =>
    obtain ⟨⟨target, index1⟩, hres, hrun⟩ := bind_eq_ok.mp hrun
    cases hrun
    obtain ⟨path, hpath⟩ := (hasNamespace_iff h.namespaces).mp hex
    rcases resolveNamespace_spec h.namespaces qn hpath with
      ⟨-, ns', index2, -, hres', -, hwf, hg⟩ | ⟨fault, -, hf⟩
    · cases hres.symm.trans hres'
      exact ⟨hg.wf h hwf, hg.toExtends⟩
    · cases hres.symm.trans hf
  | findProc ns cmdName =>
    obtain ⟨⟨procs, index1⟩, hfind, hrun⟩ := bind_eq_ok.mp hrun
    cases hrun
    obtain ⟨path, hpath⟩ := (hasNamespace_iff h.namespaces).mp hex
    rcases findProc_spec h hpath cmdName with ⟨-, index2, -, hfind', hwf, hg⟩ | ⟨fault, -, hf⟩
    · cases hfind.symm.trans hfind'
      exact ⟨hg.wf h hwf, hg.toExtends⟩
    · cases hfind.symm.trans hf

theorem run_keeps {operations : List Operation} (hr : Run Operation.Step index operations index')
    (h : index.WF) : index'.WF ∧ index.Extends index' := by
  refine hr.invariant (I := fun x => x.WF ∧ index.Extends x) ⟨h, .refl index⟩ ?_
  rintro t operation u ⟨hwf, hx⟩ hs
  obtain ⟨hwf', hx'⟩ := hs.keeps hwf
  exact ⟨hwf', hx.trans hx'⟩

/-- The invariant holds of every index that comes of a new one. -/
theorem reachable_wf {operations : List Operation} (h : Run Operation.Step makeIndex operations index) :
    index.WF :=
  (run_keeps h makeIndex_wf).1

/-! ## What the invariant gives -/

/-- The walk up the parents ends with the names on the path, after that of the global namespace. -/
theorem ancestorNames_eq (h : index.NamespacesWF) {fuel : Nat} :
    ∀ {path : List Str} {ns : Nat}, index.atPath path = some ns → ns ≤ fuel →
      ancestorNames index fuel (some ns) =
        .ok (index.tree.name index.globalNamespaceId :: path) := by
  induction fuel with
  | zero =>
    intro path ns hns hle
    have := (Index.atPath_valid h hns).1
    omega
  | succ fuel ih =>
    intro path ns hns hle
    obtain ⟨n, hget, -, hname, hpar, -⟩ := get_namespace h (Index.atPath_valid h hns)
    rw [ancestorNames, hget]
    rcases parent_atPath h hns with ⟨rfl, hnone⟩ | ⟨outer, part, p, rfl, houter, hsome, hlt⟩
    · obtain rfl : index.globalNamespaceId = ns := by simpa [Index.atPath] using hns
      simp [hpar, hnone, hname, ancestorNames]
    · obtain ⟨-, -, -, hpart⟩ := NameTree.walk_concat h.tree hns
      simp [hpar, hsome, ih houter (by omega), hname, hpart]

/-- What is printed for an entity with this name in the namespace at a path. -/
theorem getPrintName_eq (h : index.NamespacesWF) {path : List Str} {ns : Nat}
    (hns : index.atPath path = some ns) (name : Str) : getPrintName index name (some ns) =
      .ok (separator.intercalate (index.tree.name index.globalNamespaceId :: path ++ [name])) := by
  have hle : ns ≤ index.namespaces.table.length := (Index.atPath_valid h hns).2
  rw [getPrintName, ancestorNames_eq h hns hle]
  rfl

theorem namespaceParts_ne_diverges (qn : QualifiedName) : qn.namespaceParts ≠ .error .diverges := by
  unfold QualifiedName.namespaceParts
  split
  · simp
  · split
    · split <;> simp
    · split <;> simp

theorem findProc_ne_diverges (h : index.WF) {ns : Nat} (hns : index.HasNamespace ns)
    (cmdName : Str) : findProc index ns cmdName ≠ .error .diverges := by
  obtain ⟨path, hpath⟩ := (hasNamespace_iff h.namespaces).mp hns
  rcases findProc_spec h hpath cmdName with ⟨-, index', -, hfind, -⟩ | ⟨fault, hparts, hfind⟩
  · simp [hfind]
  · rw [hfind]
    intro hd
    rw [Except.error.inj hd] at hparts
    exact namespaceParts_ne_diverges _ hparts

theorem get_valid (h : index.NamespacesWF) {id : Nat} {n : Namespace}
    (hn : index.namespaces.get id = .ok n) :
    index.tree.Valid id ∧ n.name = index.tree.name id ∧ n.parentNamespace = index.tree.parent id ∧
      n.childNamespaces = index.tree.children id := by
  have hv : index.tree.Valid id := tree_valid_iff.mpr ⟨n, RefRecord.get_eq_ok.mp hn⟩
  obtain ⟨n', hn', -, hname, hpar, hch⟩ := get_namespace h hv
  cases hn.symm.trans hn'
  exact ⟨hv, hname, hpar, hch⟩

theorem Index.WF.sound (h : index.WF) : index.Sound where
  root := by
    obtain ⟨n, hn, -, -, hpar, -⟩ := get_namespace h.namespaces h.namespaces.tree.root_valid
    exact ⟨n, hn, hpar.trans h.namespaces.tree.root_parent⟩
  parent id n hn hne := by
    obtain ⟨hv, -, hpar, -⟩ := get_valid h.namespaces hn
    obtain ⟨p, hp, hpv, hlt⟩ := h.namespaces.tree.parent_lt id hv hne
    obtain ⟨parent, hget, -, -, -, hch⟩ := get_namespace h.namespaces hpv
    refine ⟨p, parent, hpar.trans hp, hlt, hget, ?_⟩
    rw [hch]
    exact List.count_eq_one_of_mem (h.namespaces.tree.nodup p hpv)
      ((h.namespaces.tree.mem_children p id hpv).mpr ⟨hv, hp⟩)
  child p parent id hp hid := by
    obtain ⟨hpv, -, -, hch⟩ := get_valid h.namespaces hp
    obtain ⟨hv, hpar⟩ := (h.namespaces.tree.mem_children p id hpv).mp (hch ▸ hid)
    obtain ⟨n, hn, -, -, hnpar, -⟩ := get_namespace h.namespaces hv
    exact ⟨n, hn, hnpar.trans hpar⟩
  siblings p parent i j n m hp hi hj hn hm hname := by
    obtain ⟨hpv, -, -, hch⟩ := get_valid h.namespaces hp
    obtain ⟨-, hni, -, -⟩ := get_valid h.namespaces hn
    obtain ⟨-, hmj, -, -⟩ := get_valid h.namespaces hm
    exact h.namespaces.tree.names p i j hpv (hch ▸ hi) (hch ▸ hj) (hni ▸ hmj ▸ hname)
  parents p hp := by
    obtain ⟨n, hn, -⟩ := get_namespace h.namespaces (h.parents p hp)
    exact ⟨n, hn⟩
  definitions p hp := by
    obtain ⟨location, usages, hrefs, hall⟩ := h.definitions p hp
    exact ⟨_, usages, hrefs, rfl, hall⟩
  findProc _ cmdName hns := findProc_ne_diverges h hns cmdName
  getPrintName name _ hns := by
    obtain ⟨path, hpath⟩ := (hasNamespace_iff h.namespaces).mp hns
    exact ⟨_, getPrintName_eq h.namespaces hpath name⟩

/-- Every index that any sequence of completed operations makes of a new one is sound. -/
theorem reachable_sound {operations : List Operation}
    (h : Run Operation.Step makeIndex operations index) :
    index.Sound :=
  (reachable_wf h).sound

/-- A proc `f` and a call of it. Looking up `A::f` then makes the namespace `A`. -/
theorem reachable_sound_findProc : ∃ index,
    Run Operation.Step makeIndex [.scanScript ⟨[1]⟩ ⟨lineLocation 0, [defineF, useF]⟩,
      .indexScript ⟨[1]⟩ ⟨lineLocation 0, [defineF, useF]⟩, .findProc 1 (bytes "A::f")] index ∧
    index.Sound ∧ index.namespaces.table.length = 2 ∧
    index.procs.references.map Reference.type = [.DEFINITION, .USAGE] := by
  have hroot : ∀ index : Index, returns (index.namespaces.get 1) (fun _ => true) = true →
      index.HasNamespace 1 := fun index h => (exists_of_returns h).imp fun n hn => hn.1
  have hnames : ∀ index : Index, index.HasNamespace 1 → ([1] : List Nat) ≠ [] ∧
      ∀ ns ∈ [1], index.HasNamespace ns := fun index h => ⟨by simp, by simpa using h⟩
  obtain ⟨scanned, hscan, h⟩ := exists_of_returns (show returns
    ((Operation.scanScript ⟨[1]⟩ ⟨lineLocation 0, [defineF, useF]⟩).perform makeIndex) (fun scanned =>
      returns (scanned.namespaces.get 1) (fun _ => true) ∧ returns
        ((Operation.indexScript ⟨[1]⟩ ⟨lineLocation 0, [defineF, useF]⟩).perform scanned) (fun indexed =>
        returns (indexed.namespaces.get 1) (fun _ => true) ∧ returns
          ((Operation.findProc 1 (bytes "A::f")).perform indexed) (fun index =>
          index.namespaces.table.length = 2 ∧
            index.procs.references.map Reference.type = [.DEFINITION, .USAGE]))) = true by
    decide +kernel)
  obtain ⟨hscanned, h⟩ := of_decide_eq_true h
  obtain ⟨indexed, hindex, h⟩ := exists_of_returns h
  obtain ⟨hindexed, h⟩ := of_decide_eq_true h
  obtain ⟨index, hfind, h⟩ := exists_of_returns h
  obtain ⟨hnamespaces, hreferences⟩ := of_decide_eq_true h
  have hrun : Run Operation.Step makeIndex [.scanScript ⟨[1]⟩ ⟨lineLocation 0, [defineF, useF]⟩,
      .indexScript ⟨[1]⟩ ⟨lineLocation 0, [defineF, useF]⟩, .findProc 1 (bytes "A::f")] index :=
    .cons ⟨hnames makeIndex (hroot _ (by decide)), hscan⟩
      (.cons ⟨hnames scanned (hroot _ hscanned), hindex⟩ (.single ⟨hroot _ hindexed, hfind⟩))
  exact ⟨index, hrun, reachable_sound hrun, hnamespaces, hreferences⟩

end TclAnalyzer
