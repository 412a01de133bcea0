import TclAnalyzer.Analyzer.Lookup
import Mathlib.Data.List.Infix

/-!
# `FindProc` is nearest enclosing lookup

The lookup creates namespaces while it goes; they hold no procs and change no path, so the result can
be read off the index at any later time.
-/

namespace TclAnalyzer

variable {index index' : Index}

@[simp] theorem enclosing_nil : enclosing [] = [[]] := rfl

@[simp] theorem enclosing_concat (path : List Str) (part : Str) :
    enclosing (path ++ [part]) = (path ++ [part]) :: enclosing path := by
  simp [enclosing, List.inits_append]

theorem firstNonempty_mem {α : Type} {ls : List (List α)} {a : α} (h : a ∈ firstNonempty ls) :
    ∃ l ∈ ls, a ∈ l := by
  induction ls with
  | nil => cases h
  | cons l ls ih =>
    unfold firstNonempty at h
    split at h
    · obtain ⟨l', hl', ha⟩ := ih h
      exact ⟨l', List.mem_cons_of_mem l hl', ha⟩
    · exact ⟨l, List.mem_cons_self, h⟩

/-! ## Growing an index keeps its invariant and its lookups -/

theorem Index.Grows.wf (hg : index.Grows index') (h : index.WF) (h' : index'.NamespacesWF) :
    index'.WF where
  namespaces := h'
  procs := hg.procs ▸ h.procs
  parents p hp := (h.parents p (hg.procs ▸ hp)).mono hg.tree
  referenced := hg.procs ▸ h.referenced
  definitions := hg.procs ▸ h.definitions

/-- The procs of a path do not depend on namespaces that are added. -/
theorem Index.Extends.procsIn (hx : index.Extends index') (h : index.WF) (h' : index'.NamespacesWF)
    (ht : index'.procs.table = index.procs.table) (path : List Str) (name : Str) :
    index'.procsIn path name = index.procsIn path name := by
  unfold Index.procsIn
  rw [ht]
  refine List.filter_congr fun p hp => ?_
  rw [decide_eq_decide, hx.atPath_iff h.namespaces h' (h.parents p hp)]

theorem Index.Extends.nearest (hx : index.Extends index') (h : index.WF) (h' : index'.NamespacesWF)
    (ht : index'.procs.table = index.procs.table) (path : List Str) (cmdName : Str) :
    index'.nearest path cmdName = index.nearest path cmdName := by
  simp only [Index.nearest, hx.procsIn h h' ht]

theorem Index.Grows.procsIn (hg : index.Grows index') (h : index.WF) (h' : index'.NamespacesWF)
    (path : List Str) (name : Str) : index'.procsIn path name = index.procsIn path name :=
  hg.toExtends.procsIn h h' (by rw [hg.procs]) path name

theorem Index.Grows.nearest (hg : index.Grows index') (h : index.WF) (h' : index'.NamespacesWF)
    (path : List Str) (cmdName : Str) : index'.nearest path cmdName = index.nearest path cmdName :=
  hg.toExtends.nearest h h' (by rw [hg.procs]) path cmdName

/-! ## `FindProc` -/

theorem getAll_map_id (h : index.procs.WF) {procs : List Proc}
    (hp : ∀ p ∈ procs, p ∈ index.procs.table) :
    getAll index (procs.map Row.id) = .ok procs := by
  induction procs with
  | nil => rfl
  | cons p procs ih =>
    have hget := RefRecord.get_eq_ok.mpr (h.row_id (hp p List.mem_cons_self))
    have hrest := ih fun q hq => hp q (List.mem_cons_of_mem p hq)
    simp [getAll, hget, hrest]

/-- The procs of a range that are in the namespace at a path. -/
theorem getAll_filter (h : index.procs.WF) {path : List Str} {target : Nat}
    (ht : index.atPath path = some target) (name : Str) :
    ∃ procs, getAll index (index.procs.byName.equalRange name) = .ok procs ∧
      procs.filter (fun p => p.parentNamespace = target) = index.procsIn path name := by
  refine ⟨index.procs.table.filter fun p => Row.name p = name, ?_, ?_⟩
  · rw [h.equalRange_byName]
    exact getAll_map_id h fun p hp => (List.mem_filter.mp hp).1
  · rw [List.filter_filter, Index.procsIn]
    refine List.filter_congr fun p _ => ?_
    simp [ht, Row.name, eq_comm, and_comm]

/-- The target of a name seen from a namespace: the namespace itself when the name is not qualified. -/
theorem resolveQualified_spec (h : index.NamespacesWF) (qn : QualifiedName) {path : List Str} {ns : Nat}
    (hns : index.atPath path = some ns) :
    (∃ parts target index', qn.namespaceParts = .ok parts ∧
      resolveQualified index qn ns = .ok (target, index') ∧
      index'.atPath (qn.targetPath path parts) = some target ∧ index'.NamespacesWF ∧
      index.Grows index') ∨
    (∃ fault, qn.namespaceParts = .error fault ∧ resolveQualified index qn ns = .error fault) := by
  unfold resolveQualified
  by_cases hq : qn.absolute ∨ qn.ns.isSome
  · simp only [hq, if_true]
    exact resolveNamespace_spec h qn hns
  · have hnone : qn.ns = none := by simpa using fun e => hq (Or.inr e)
    have habs : qn.absolute = false := by simpa using fun e => hq (Or.inl e)
    exact Or.inl ⟨[], ns, index, by simp [QualifiedName.namespaceParts, hnone],
      by simp [hq], by simpa [QualifiedName.targetPath, habs] using hns, h,
      .refl index⟩

/-- A namespace without a parent is the global one, and others have their parent around them. -/
theorem parent_atPath (h : index.NamespacesWF) {path : List Str} {ns : Nat}
    (hns : index.atPath path = some ns) :
    (path = [] ∧ index.tree.parent ns = none) ∨
    (∃ outer part p, path = outer ++ [part] ∧ index.atPath outer = some p ∧
      index.tree.parent ns = some p ∧ p < ns) := by
  rcases List.eq_nil_or_concat path with rfl | ⟨outer, part, rfl⟩
  · obtain rfl : index.globalNamespaceId = ns := by simpa [Index.atPath] using hns
    exact Or.inl ⟨rfl, h.tree.root_parent⟩
  · rw [List.concat_eq_append] at hns
    obtain ⟨p, hp, hpar, -⟩ := NameTree.walk_concat h.tree hns
    have hv := Index.atPath_valid h hns
    have hne : ns ≠ index.globalNamespaceId := by
      rintro rfl
      rw [h.tree.root_parent] at hpar
      cases hpar
    obtain ⟨p', hp', -, hlt⟩ := h.tree.parent_lt ns hv hne
    obtain rfl : p = p' := Option.some.inj (hpar.symm.trans hp')
    exact Or.inr ⟨outer, part, p, by simp, hp, hpar, hlt⟩

section FindProcAt

variable {cmdName : Str} {parts : List Str}

/-- The procs that `FindProc` finds without going to a parent. -/
def Index.directly (index : Index) (path : List Str) (cmdName : Str) (parts : List Str) : List Proc :=
  index.procsIn ((splitName cmdName).targetPath path parts) (splitName cmdName).name

theorem nearest_of_absolute (hparts : (splitName cmdName).namespaceParts = .ok parts)
    (habs : (splitName cmdName).absolute) (path : List Str) :
    index.nearest path cmdName = index.directly path cmdName parts := by
  by_cases he : index.procsIn parts (splitName cmdName).name = [] <;>
    simp [Index.nearest, Index.directly, hparts, candidates, QualifiedName.targetPath, habs,
      firstNonempty, he]

theorem nearest_nil (hparts : (splitName cmdName).namespaceParts = .ok parts)
    (habs : ¬ (splitName cmdName).absolute) :
    index.nearest [] cmdName = index.directly [] cmdName parts := by
  by_cases he : index.procsIn parts (splitName cmdName).name = [] <;>
    simp [Index.nearest, Index.directly, hparts, candidates, QualifiedName.targetPath, habs,
      firstNonempty, he]

theorem nearest_concat (hparts : (splitName cmdName).namespaceParts = .ok parts)
    (habs : ¬ (splitName cmdName).absolute) (outer : List Str) (part : Str) :
    index.nearest (outer ++ [part]) cmdName =
      if (index.directly (outer ++ [part]) cmdName parts).isEmpty then index.nearest outer cmdName
      else index.directly (outer ++ [part]) cmdName parts := by
  simp [Index.nearest, Index.directly, hparts, candidates, QualifiedName.targetPath, habs,
    firstNonempty]

/-- One step of `FindProc`, with the target resolved: the lookup in it, and then the parent. -/
theorem findProcAt_resolved (h : index.WF) (fuel : Nat) {path : List Str} {ns target : Nat}
    (hns : index.atPath path = some ns)
    (hres : resolveQualified index (splitName cmdName) ns = .ok (target, index'))
    (hpath : index'.atPath ((splitName cmdName).targetPath path parts) = some target)
    (hwf : index'.NamespacesWF) (hg : index.Grows index') :
    findProcAt index cmdName (fuel + 1) ns =
      match index.tree.parent ns with
      | some parent =>
        if (index.directly path cmdName parts).isEmpty ∧ ¬ (splitName cmdName).absolute then
          findProcAt index' cmdName fuel parent
        else .ok (index.directly path cmdName parts, index')
      | none => .ok (index.directly path cmdName parts, index') := by
  obtain ⟨n, hget, hid, -, hpar, -⟩ := get_namespace h.namespaces (Index.atPath_valid h.namespaces hns)
  obtain ⟨procs, hall, hfilter⟩ := getAll_filter (hg.wf h hwf).procs hpath (splitName cmdName).name
  rw [hg.procsIn h hwf] at hfilter
  rw [hg.procs] at hall
  rw [findProcAt]
  simp only [hget, hid, hpar, hres, hall, hfilter, ok_bind, pure_eq_ok]
  cases index.tree.parent ns <;> rfl

theorem findProcAt_succ (h : index.WF) (hparts : (splitName cmdName).namespaceParts = .ok parts)
    (fuel : Nat) {path : List Str} {ns : Nat} (hns : index.atPath path = some ns) :
    ∃ index', index'.NamespacesWF ∧ index.Grows index' ∧
      (∃ target, index'.atPath ((splitName cmdName).targetPath path parts) = some target) ∧
      findProcAt index cmdName (fuel + 1) ns =
        match index.tree.parent ns with
        | some parent =>
          if (index.directly path cmdName parts).isEmpty ∧ ¬ (splitName cmdName).absolute then
            findProcAt index' cmdName fuel parent
          else .ok (index.directly path cmdName parts, index')
        | none => .ok (index.directly path cmdName parts, index') := by
  rcases resolveQualified_spec h.namespaces (splitName cmdName) hns with
    ⟨parts', target, index', hparts', hres, hpath, hwf, hg⟩ | ⟨fault, hfault, -⟩
  · obtain rfl : parts = parts' := Except.ok.inj (hparts.symm.trans hparts')
    exact ⟨index', hwf, hg, ⟨target, hpath⟩, findProcAt_resolved h fuel hns hres hpath hwf hg⟩
  · rw [hparts] at hfault
    cases hfault

/-- The induction is on the fuel, which the id of the namespace bounds: a parent has a smaller id. -/
theorem findProcAt_spec (hparts : (splitName cmdName).namespaceParts = .ok parts) (fuel : Nat) :
    ∀ {index : Index} {path : List Str} {ns : Nat}, index.WF → index.atPath path = some ns →
      ns ≤ fuel → ∃ index', findProcAt index cmdName fuel ns =
          .ok (index.nearest path cmdName, index') ∧ index'.NamespacesWF ∧ index.Grows index' := by
  induction fuel with
  | zero =>
    intro index path ns h hns hle
    have := (Index.atPath_valid h.namespaces hns).1
    omega
  | succ fuel ih =>
    intro index path ns h hns hle
    obtain ⟨index1, hwf1, hg1, -, hstep⟩ := findProcAt_succ h hparts fuel hns
    rw [hstep]
    by_cases habs : (splitName cmdName).absolute
    · refine ⟨index1, ?_, hwf1, hg1⟩
      rw [nearest_of_absolute hparts habs]
      cases index.tree.parent ns <;> simp [habs]
    · rcases parent_atPath h.namespaces hns with
        ⟨rfl, hnone⟩ | ⟨outer, part, p, rfl, houter, hsome, hlt⟩
      · exact ⟨index1, by rw [hnone, nearest_nil hparts habs], hwf1, hg1⟩
      · rw [hsome, nearest_concat hparts habs]
        by_cases he : (index.directly (outer ++ [part]) cmdName parts).isEmpty
        · obtain ⟨index2, h2, hwf2, hg2⟩ :=
            ih (hg1.wf h hwf1) (hg1.toExtends.atPath h.namespaces houter) (by omega)
          rw [hg1.nearest h hwf1] at h2
          exact ⟨index2, by simpa [he, habs] using h2, hwf2, hg1.trans hg2⟩
        · exact ⟨index1, by simp [he], hwf1, hg1⟩

end FindProcAt

theorem findProcAt_error {cmdName : Str} {fault : Fault}
    (hparts : (splitName cmdName).namespaceParts = .error fault) (fuel : Nat) {path : List Str}
    {ns : Nat} (h : index.WF) (hns : index.atPath path = some ns) :
    findProcAt index cmdName fuel ns = .error fault := by
  obtain ⟨n, hget, hid, -⟩ := get_namespace h.namespaces (Index.atPath_valid h.namespaces hns)
  rcases resolveQualified_spec h.namespaces (splitName cmdName) hns with
    ⟨parts, -, -, hok, -⟩ | ⟨fault', hfault', hres⟩
  · rw [hparts] at hok
    cases hok
  · obtain rfl : fault = fault' := Except.error.inj (hparts.symm.trans hfault')
    rw [findProcAt]
    simp only [hget, hid, hres, ok_bind, error_bind]

/-- `FindProc` returns the procs that the name means in the namespace, and only adds namespaces. It
fails exactly when the namespace part of the name has no parts. -/
theorem findProc_spec (h : index.WF) {path : List Str} {ns : Nat}
    (hns : index.atPath path = some ns) (cmdName : Str) :
    (∃ parts index', (splitName cmdName).namespaceParts = .ok parts ∧
      findProc index ns cmdName = .ok (index.nearest path cmdName, index') ∧
      index'.NamespacesWF ∧ index.Grows index') ∨
    (∃ fault, (splitName cmdName).namespaceParts = .error fault ∧
      findProc index ns cmdName = .error fault) := by
  cases hparts : (splitName cmdName).namespaceParts with
  | ok parts =>
    obtain ⟨index', hf, hwf, hg⟩ := findProcAt_spec hparts index.namespaces.table.length h hns
      (Index.atPath_valid h.namespaces hns).2
    exact Or.inl ⟨parts, index', rfl, hf, hwf, hg⟩
  | error fault => exact Or.inr ⟨fault, rfl, findProcAt_error hparts _ h hns⟩

/-- The procs found are rows of the table. -/
theorem nearest_subset (index : Index) (path : List Str) (cmdName : Str) :
    ∀ p ∈ index.nearest path cmdName, p ∈ index.procs.table := by
  intro p hp
  unfold Index.nearest at hp
  split at hp
  · obtain ⟨l, hl, hpl⟩ := firstNonempty_mem hp
    obtain ⟨target, -, rfl⟩ := List.mem_map.mp hl
    exact (List.mem_filter.mp hpl).1
  · cases hp

end TclAnalyzer
