import TclAnalyzer.Analyzer.Proofs.EnclosingProofs

/-!
# When a lookup leaves the index alone

`ResolveNamespace` creates the namespaces that it does not find, so that a lookup changes the index
unless the name leads to namespaces that exist, from every namespace it is tried in.
-/

namespace TclAnalyzer

variable {index index' : Index} {ns : Nat} {path parts : List Str} {starts : List Nat} {cmdName : Str}

/-! ## Names that lead to namespaces there are -/

theorem resolveParts_existing (h : index.NamespacesWF) {parts : List Str} {start target : Nat}
    (hstart : index.tree.Valid start) (hwalk : index.tree.walk start parts = some target) :
    resolveParts index start parts = .ok (target, index) := by
  induction parts generalizing start with
  | nil =>
    obtain rfl : start = target := Option.some.inj hwalk
    rfl
  | cons part parts ih =>
    obtain ⟨child, hchild, hwalk⟩ := Option.bind_eq_some_iff.mp hwalk
    obtain ⟨row, hget, -, -, -, hchildren⟩ := get_namespace h hstart
    have hfind := findChild_children h part hstart hchildren
    rw [hchild] at hfind
    have hstep : resolveParts index start (part :: parts) = resolveParts index child parts := by
      simp only [resolveParts, hget, hfind, ok_bind]
    rw [hstep]
    exact ih (NameTree.child_valid h.tree hstart hchild) hwalk

/-- The target of a name that is there is found without a change. -/
theorem resolveQualified_existing (h : index.NamespacesWF) {qn : QualifiedName} {target : Nat}
    (hns : index.atPath path = some ns) (hparts : qn.namespaceParts = .ok parts)
    (htarget : index.atPath (qn.targetPath path parts) = some target) :
    resolveQualified index qn ns = .ok (target, index) := by
  obtain ⟨row, hget, hid, -⟩ := get_namespace h (Index.atPath_valid h htarget)
  have hresolve : resolveParts index (if qn.absolute then index.globalNamespaceId else ns) parts =
      .ok (target, index) := by
    by_cases habs : qn.absolute
    · rw [if_pos habs]
      rw [QualifiedName.targetPath, if_pos habs] at htarget
      exact resolveParts_existing h h.tree.root_valid htarget
    · rw [if_neg habs]
      rw [QualifiedName.targetPath, if_neg habs, atPath_append hns] at htarget
      exact resolveParts_existing h (Index.atPath_valid h hns) htarget
  by_cases hq : qn.absolute ∨ qn.ns.isSome
  · rw [resolveQualified, if_pos hq]
    simp only [resolveNamespace, hparts, hresolve, hget, hid, ok_bind, pure_eq_ok]
  · obtain ⟨habs, hnone⟩ := not_or.mp hq
    have hnil : parts = [] := by
      have hns : qn.ns = none := by simpa using hnone
      simpa [QualifiedName.namespaceParts, hns] using hparts.symm
    rw [QualifiedName.targetPath, if_neg habs, hnil, List.append_nil, hns] at htarget
    rw [resolveQualified, if_neg hq, Option.some.inj htarget]
    rfl

/-! ## `FindProc` -/

section FindProcAt

variable (h : index.WF) (hparts : (splitName cmdName).namespaceParts = .ok parts)
include h hparts

theorem findProcAt_existing (fuel : Nat) (hns : index.atPath path = some ns) {target : Nat}
    (htarget : index.atPath ((splitName cmdName).targetPath path parts) = some target) :
    findProcAt index cmdName (fuel + 1) ns =
      match index.tree.parent ns with
      | some parent =>
        if (index.directly path cmdName parts).isEmpty ∧ ¬ (splitName cmdName).absolute then
          findProcAt index cmdName fuel parent
        else .ok (index.directly path cmdName parts, index)
      | none => .ok (index.directly path cmdName parts, index) :=
  findProcAt_resolved h fuel hns (resolveQualified_existing h.namespaces hns hparts htarget) htarget
    h.namespaces (.refl index)

/-- A target that is not there is created, and stays. -/
theorem findProcAt_missing {fuel : Nat} (hns : index.atPath path = some ns) (hle : ns ≤ fuel + 1)
    (hmissing : index.atPath ((splitName cmdName).targetPath path parts) = none) {procs : List Proc}
    (hfind : findProcAt index cmdName (fuel + 1) ns = .ok (procs, index')) : index' ≠ index := by
  rintro rfl
  obtain ⟨index1, hwf1, hg1, ⟨target, htarget⟩, hstep⟩ := findProcAt_succ h hparts fuel hns
  have hextends : index1.Extends index' := by
    rw [hstep] at hfind
    rcases parent_atPath h.namespaces hns with ⟨-, hnone⟩ | ⟨outer, -, p, -, houter, hsome, hlt⟩
    · rw [hnone] at hfind
      cases hfind
      exact .refl _
    · rw [hsome] at hfind
      dsimp only at hfind
      split at hfind
      · obtain ⟨index2, hfind2, -, hg2⟩ := findProcAt_spec hparts fuel (hg1.wf h hwf1)
          (hg1.toExtends.atPath h.namespaces houter) (by omega)
        cases hfind2.symm.trans hfind
        exact hg2.toExtends
      · cases hfind
        exact .refl _
  cases hmissing.symm.trans (hextends.atPath hwf1 htarget)

/-- A lookup that cannot go on to a parent. -/
theorem findProcAt_direct_iff {fuel : Nat} (hns : index.atPath path = some ns) (hle : ns ≤ fuel)
    (hlast : (splitName cmdName).absolute = true ∨ index.tree.parent ns = none) {procs : List Proc}
    (hfind : findProcAt index cmdName fuel ns = .ok (procs, index')) :
    index' = index ↔ (index.atPath ((splitName cmdName).targetPath path parts)).isSome := by
  obtain ⟨fuel, rfl⟩ := Nat.exists_eq_add_one.mpr
    (Nat.le_trans (Index.atPath_valid h.namespaces hns).1 hle)
  cases htarget : index.atPath ((splitName cmdName).targetPath path parts) with
  | none => exact iff_of_false (findProcAt_missing h hparts hns hle htarget hfind) (by simp)
  | some target =>
    refine iff_of_true ?_ rfl
    rw [findProcAt_existing h hparts fuel hns htarget] at hfind
    rcases hlast with habs | hnone
    · cases hparent : index.tree.parent ns <;> simp [hparent, habs] at hfind <;> exact hfind.2.symm
    · rw [hnone] at hfind
      cases hfind
      rfl

/-- The lookup of a relative name, by induction on the namespaces it goes through. -/
theorem findProcAt_relative_iff (habs : (splitName cmdName).absolute = false)
    (ha : index.Around ns starts) : ∀ {fuel : Nat} {path : List Str} {procs : List Proc},
    index.atPath path = some ns → ns ≤ fuel → findProcAt index cmdName fuel ns = .ok (procs, index') →
      (index' = index ↔ index.Settled parts (splitName cmdName).name starts) := by
  have htarget : ∀ {path : List Str} {start : Nat}, index.atPath path = some start →
      index.atPath ((splitName cmdName).targetPath path parts) = index.tree.walk start parts := by
    intro path start hstart
    rw [← atPath_append hstart, QualifiedName.targetPath, habs, if_neg Bool.false_ne_true]
  induction ha with
  | global =>
    intro fuel path procs hns hle hfind
    rw [findProcAt_direct_iff h hparts hns hle (.inr h.namespaces.tree.root_parent) hfind, htarget hns]
    simp [Index.Settled]
  | @inner ns parent row outer hget hpar ha ih =>
    intro fuel path procs hns hle hfind
    obtain ⟨fuel, rfl⟩ := Nat.exists_eq_add_one.mpr
      (Nat.le_trans (Index.atPath_valid h.namespaces hns).1 hle)
    rw [Index.Settled]
    cases hwalk : index.tree.walk ns parts with
    | none =>
      have hmissing := (htarget hns).trans hwalk
      exact iff_of_false (findProcAt_missing h hparts hns hle hmissing hfind) (by simp)
    | some target =>
      rw [findProcAt_existing h hparts fuel hns ((htarget hns).trans hwalk)] at hfind
      obtain ⟨-, -, hrow, -⟩ := get_valid h.namespaces hget
      rcases parent_atPath h.namespaces hns with ⟨-, hnone⟩ | ⟨init, part, p, rfl, hinit, hsome, hlt⟩
      · rw [hpar, hnone] at hrow
        cases hrow
      · obtain rfl : parent = p := Option.some.inj (hpar.symm.trans (hrow.trans hsome))
        have hdirectly : index.directly (init ++ [part]) cmdName parts =
            index.procsFrom parts (splitName cmdName).name ns := by
          rw [Index.directly, QualifiedName.targetPath, habs, if_neg Bool.false_ne_true,
            procsFrom_eq hns]
        rw [hsome, hdirectly, habs] at hfind
        by_cases hempty : index.procsFrom parts (splitName cmdName).name ns = []
        · -- on to the parent, with the same index
          have hrest : findProcAt index cmdName fuel parent = .ok (procs, index') := by
            simpa [hempty] using hfind
          rw [ih hinit (by omega) hrest]
          simp [hempty]
        · have hsame : index.procsFrom parts (splitName cmdName).name ns = procs ∧ index = index' := by
            simpa [hempty] using hfind
          exact iff_of_true hsame.2.symm ⟨rfl, fun hnil => absurd hnil hempty⟩

end FindProcAt

/-- A lookup that completes leaves the index alone exactly when the parts of the name lead to a
namespace that exists from each start, up to the nearest from which they lead to such procs. -/
theorem findProc_same_iff {operations : List Operation}
    (h : Run Operation.Step makeIndex operations index) (hns : index.HasNamespace ns) (cmdName : Str) :
    (∀ procs index', findProc index ns cmdName = .ok (procs, index') → index' = index) ↔
      ∀ parts starts, (splitName cmdName).namespaceParts = .ok parts →
        index.Starts ns (splitName cmdName).absolute starts →
        index.Settled parts (splitName cmdName).name starts := by
  have hwf := reachable_wf h
  obtain ⟨path, hpath⟩ := (hasNamespace_iff hwf.namespaces).mp hns
  have hle := (Index.atPath_valid hwf.namespaces hpath).2
  rw [tree_size] at hle
  have hiff : ∀ parts starts procs index', (splitName cmdName).namespaceParts = .ok parts →
      index.Starts ns (splitName cmdName).absolute starts →
      findProc index ns cmdName = .ok (procs, index') →
      (index' = index ↔ index.Settled parts (splitName cmdName).name starts) := by
    intro parts starts procs index' hparts hs hfind
    generalize habs : (splitName cmdName).absolute = absolute at hs
    cases hs with
    | absolute =>
      rw [findProcAt_direct_iff hwf hparts hpath hle (.inl habs) hfind, QualifiedName.targetPath, habs,
        if_pos rfl]
      simp [Index.Settled, Index.atPath]
    | relative ha => exact findProcAt_relative_iff hwf hparts habs ha hpath hle hfind
  constructor
  · intro hsame parts starts hparts hs
    rcases findProc_spec hwf hpath cmdName with ⟨-, index', -, hfind, -⟩ | ⟨fault, hfault, -⟩
    · exact (hiff _ _ _ _ hparts hs hfind).mp (hsame _ _ hfind)
    · rw [hparts] at hfault
      cases hfault
  · intro hsettled procs index' hfind
    rcases findProc_spec hwf hpath cmdName with ⟨parts, -, hparts, -⟩ | ⟨fault, -, hfault⟩
    · obtain ⟨starts, hs⟩ := exists_starts hwf.namespaces hpath (splitName cmdName).absolute
      exact (hiff _ _ _ _ hparts hs hfind).mpr (hsettled _ _ hparts hs)
    · rw [hfind] at hfault
      cases hfault

/-- In the new index, the lookup of `A::f` finds nothing and creates the namespace `A`. -/
theorem newIndex_changes : ∃ index', findProc makeIndex 1 (bytes "A::f") = .ok ([], index') ∧
    index'.namespaces.table.map Namespace.name = [[], bytes "A"] ∧ index' ≠ makeIndex := by
  obtain ⟨⟨procs, index'⟩, hfind, htest⟩ := exists_of_returns (show returns
    (findProc makeIndex 1 (bytes "A::f")) (fun result => decide (result.1 = [] ∧
      result.2.namespaces.table.map Namespace.name = [[], bytes "A"])) = true by decide +kernel)
  obtain ⟨hprocs, hnames⟩ : procs = [] ∧ index'.namespaces.table.map Namespace.name = [[], bytes "A"] :=
    of_decide_eq_true htest
  subst hprocs
  refine ⟨index', hfind, hnames, ?_⟩
  rintro rfl
  exact absurd hnames (by decide)

theorem settled_nil (index : Index) (name : Str) (starts : List Nat) : index.Settled [] name starts := by
  induction starts with
  | nil => exact trivial
  | cons start outer ih => exact ⟨rfl, fun _ => ih⟩

/-- The lookup of `f` creates nothing. -/
theorem newIndex_same_iff :
    ((∀ procs index', findProc makeIndex 1 (bytes "A::f") = .ok (procs, index') →
        index' = makeIndex) ↔
      ∀ parts starts, (splitName (bytes "A::f")).namespaceParts = .ok parts →
        makeIndex.Starts 1 (splitName (bytes "A::f")).absolute starts →
        makeIndex.Settled parts (splitName (bytes "A::f")).name starts) ∧
    ∀ procs index', findProc makeIndex 1 (bytes "f") = .ok (procs, index') → index' = makeIndex := by
  have hroot : makeIndex.HasNamespace 1 := ⟨_, rfl⟩
  refine ⟨findProc_same_iff .nil hroot (bytes "A::f"), ?_⟩
  refine (findProc_same_iff .nil hroot (bytes "f")).mpr fun parts starts hparts _ => ?_
  have hnone : (splitName (bytes "f")).namespaceParts = .ok [] := rfl
  cases hnone.symm.trans hparts
  exact settled_nil makeIndex _ starts

end TclAnalyzer
