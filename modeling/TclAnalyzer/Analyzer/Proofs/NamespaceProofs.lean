import TclAnalyzer.Analyzer.Index
import TclAnalyzer.Analyzer.Proofs.DbProofs
import TclAnalyzer.Data.NameTree

/-!
# The namespaces of an index are a named tree

`Index.tree` reads the table of namespaces as a `NameTree`. `FindNamespace` walks down that tree and
`ResolveNamespace` grows it.
-/

namespace TclAnalyzer

/-- The tree of the namespaces. -/
def Index.tree (index : Index) : NameTree Str where
  size := index.namespaces.table.length
  name i := (index.namespaces.row i).elim [] Namespace.name
  parent i := (index.namespaces.row i).bind Namespace.parentNamespace
  children i := (index.namespaces.row i).elim [] Namespace.childNamespaces

/-- The namespace with these names on the way down from the global one. -/
def Index.atPath (index : Index) (path : List Str) : Option Nat :=
  index.tree.walk index.globalNamespaceId path

/-- The table of namespaces is sound and holds a tree. -/
structure Index.NamespacesWF (index : Index) : Prop where
  table : index.namespaces.WF
  tree : index.tree.WF index.globalNamespaceId

/-- `index'` has the namespaces of `index`, and possibly more. -/
structure Index.Extends (index index' : Index) : Prop where
  tree : index.tree.Extends index'.tree
  global : index'.globalNamespaceId = index.globalNamespaceId

/-- `index'` differs from `index` in added namespaces only. -/
structure Index.Grows (index index' : Index) : Prop extends index.Extends index' where
  procs : index'.procs = index.procs
  vars : index'.vars = index.vars

variable {index index' : Index}

@[simp] theorem tree_size : index.tree.size = index.namespaces.table.length := rfl

theorem Index.Extends.refl (index : Index) : index.Extends index := ⟨.refl _, rfl⟩

theorem Index.Extends.trans {index'' : Index} (h : index.Extends index')
    (h' : index'.Extends index'') : index.Extends index'' :=
  ⟨h.tree.trans h'.tree, h'.global.trans h.global⟩

theorem Index.Grows.refl (index : Index) : index.Grows index := ⟨.refl _, rfl, rfl⟩

theorem Index.Grows.trans {index'' : Index} (h : index.Grows index') (h' : index'.Grows index'') :
    index.Grows index'' :=
  ⟨h.toExtends.trans h'.toExtends, h'.procs.trans h.procs, h'.vars.trans h.vars⟩

theorem tree_valid_iff {i : Nat} : index.tree.Valid i ↔ ∃ n, index.namespaces.row i = some n :=
  RefRecord.row_isSome.symm

/-- What a lookup of an existing namespace reads off the tree. -/
theorem get_namespace (h : index.NamespacesWF) {i : Nat} (hi : index.tree.Valid i) :
    ∃ n, index.namespaces.get i = .ok n ∧ n.id = i ∧ n.name = index.tree.name i ∧
      n.parentNamespace = index.tree.parent i ∧ n.childNamespaces = index.tree.children i := by
  obtain ⟨n, hn⟩ := tree_valid_iff.mp hi
  exact ⟨n, RefRecord.get_eq_ok.mpr hn, h.table.ids i n hn, by simp [Index.tree, hn],
    by simp [Index.tree, hn], by simp [Index.tree, hn]⟩

theorem Index.atPath_valid (h : index.NamespacesWF) {path : List Str} {i : Nat}
    (hi : index.atPath path = some i) : index.tree.Valid i :=
  NameTree.walk_valid h.tree h.tree.root_valid hi

theorem Index.exists_atPath (h : index.NamespacesWF) {i : Nat} (hi : index.tree.Valid i) :
    ∃ path, index.atPath path = some i :=
  NameTree.exists_path h.tree hi

theorem Index.atPath_injective (h : index.NamespacesWF) {path path' : List Str} {i : Nat}
    (hp : index.atPath path = some i) (hp' : index.atPath path' = some i) : path = path' :=
  NameTree.walk_injective h.tree hp hp'

theorem Index.Extends.atPath (hg : index.Extends index') (h : index.NamespacesWF) {path : List Str}
    {i : Nat} (hi : index.atPath path = some i) : index'.atPath path = some i := by
  rw [Index.atPath, hg.global]
  exact NameTree.walk_mono h.tree hg.tree h.tree.root_valid hi

/-- Namespaces that are added change the path of no older one. -/
theorem Index.Extends.atPath_iff (hg : index.Extends index') (h : index.NamespacesWF)
    (h' : index'.NamespacesWF) {path : List Str} {i : Nat} (hi : index.tree.Valid i) :
    index'.atPath path = some i ↔ index.atPath path = some i := by
  have ht := h'.tree
  rw [hg.global] at ht
  rw [Index.atPath, hg.global]
  exact NameTree.walk_extends_iff h.tree ht hg.tree hi

/-! ## Looking up children -/

theorem findChild_eq (h : index.NamespacesWF) (part : Str) {children : List Nat}
    (hc : ∀ i ∈ children, index.tree.Valid i) :
    findChild index part children = .ok (children.find? fun i => index.tree.name i = part) := by
  induction children with
  | nil => rfl
  | cons i children ih =>
    obtain ⟨n, hget, -, hname, -⟩ := get_namespace h (hc i List.mem_cons_self)
    have ih := ih fun j hj => hc j (List.mem_cons_of_mem i hj)
    by_cases hp : index.tree.name i = part
    · simp [findChild, hget, hname, hp]
    · simp [findChild, hget, hname, hp, ih]

theorem findChild_children (h : index.NamespacesWF) (part : Str) {i : Nat}
    (hi : index.tree.Valid i) {n : Namespace} (hn : n.childNamespaces = index.tree.children i) :
    findChild index part n.childNamespaces = .ok (index.tree.child i part) := by
  rw [hn, findChild_eq h part fun j hj => ((h.tree.mem_children i j hi).mp hj).1]
  rfl

/-- `FindNamespace` walks down the tree. -/
theorem findParts_eq (h : index.NamespacesWF) (parts : List Str) {i : Nat}
    (hi : index.tree.Valid i) : findParts index i parts = .ok (index.tree.walk i parts) := by
  induction parts generalizing i with
  | nil => rfl
  | cons part parts ih =>
    obtain ⟨n, hget, -, -, -, hn⟩ := get_namespace h hi
    have hfind := findChild_children h part hi hn
    cases hc : index.tree.child i part with
    | none =>
      simp [findParts, hget, hfind, hc]
    | some j =>
      simp [findParts, hget, hfind, hc, ih (NameTree.child_valid h.tree hi hc)]

/-- `FindNamespace` on an absolute name finds the namespace at the path of its parts. -/
theorem findNamespace_eq (h : index.NamespacesWF) {nsName : Str}
    (habs : (splitName nsName).absolute = true) :
    findNamespace index nsName = (splitName nsName).parts.map index.atPath := by
  have hfind : ∀ parts, findParts index index.globalNamespaceId parts = .ok (index.atPath parts) :=
    fun parts => findParts_eq h parts h.tree.root_valid
  unfold findNamespace
  cases hparts : (splitName nsName).parts with
  | error fault => simp [habs, hparts, Except.map]
  | ok parts =>
    cases hat : index.atPath parts with
    | none => simp [habs, hparts, hfind, hat, Except.map]
    | some ns =>
      obtain ⟨n, hget, hid, -⟩ := get_namespace h (Index.atPath_valid h hat)
      simp [habs, hparts, hfind, hat, hget, hid, Except.map]

theorem findNamespace_absolute {nsName : Str} {ns : Option Nat}
    (hfind : findNamespace index nsName = .ok ns) : (splitName nsName).absolute = true := by
  unfold findNamespace at hfind
  cases habs : (splitName nsName).absolute with
  | false =>
    simp only [habs] at hfind
    cases hfind
  | true => rfl

/-- What it returns is a namespace of the index. -/
theorem findNamespace_atPath (h : index.NamespacesWF) {nsName : Str} {ns : Option Nat}
    (hfind : findNamespace index nsName = .ok ns) :
    ∃ parts, (splitName nsName).parts = .ok parts ∧ index.atPath parts = ns := by
  rw [findNamespace_eq h (findNamespace_absolute hfind)] at hfind
  cases hparts : (splitName nsName).parts with
  | error fault =>
    rw [hparts] at hfind
    cases hfind
  | ok parts =>
    rw [hparts] at hfind
    exact ⟨parts, rfl, Except.ok.inj hfind⟩

/-! ## Creating namespaces -/

/-- The index with a new child of a namespace. -/
def Index.withChild (index : Index) (curId : Nat) (part : Str) : Index :=
  let (child, namespaces) := index.namespaces.insert (newNamespace part (some curId))
  { index with namespaces := namespaces.modify curId fun n =>
      { n with childNamespaces := n.childNamespaces ++ [child.id] } }

theorem row_withChild {i : Nat} (hi : index.tree.Valid i) (part : Str) (j : Nat) :
    (index.withChild i part).namespaces.row j =
      if j = index.namespaces.table.length + 1 then
        some { newNamespace part (some i) with id := index.namespaces.table.length + 1 }
      else if j = i then
        (index.namespaces.row j).map fun n =>
          { n with childNamespaces := n.childNamespaces ++ [index.namespaces.table.length + 1] }
      else index.namespaces.row j := by
  have hne : i ≠ index.namespaces.table.length + 1 := hi.ne_fresh
  rw [Index.withChild, RefRecord.row_modify _ _ _ hi.1, RefRecord.row_insert]
  by_cases hj : j = index.namespaces.table.length + 1
  · subst hj
    simp [hne.symm, RefRecord.insert, Row.withId]
  · simp [hj, RefRecord.insert, Row.withId]

theorem tree_withChild {i : Nat} (hi : index.tree.Valid i) (part : Str) :
    (index.withChild i part).tree = index.tree.addChild i part := by
  have hrow := row_withChild hi part
  have hne : i ≠ index.namespaces.table.length + 1 := hi.ne_fresh
  have hsize : (index.withChild i part).namespaces.table.length =
      index.namespaces.table.length + 1 := by
    simp [Index.withChild, RefRecord.modify, RefRecord.insert]
  obtain ⟨n, hn⟩ := tree_valid_iff.mp hi
  rw [NameTree.addChild, Index.tree, hsize]
  congr 1 <;> funext j <;> rw [hrow j] <;> by_cases hj : j = index.namespaces.table.length + 1
  -- the new node, and then the nodes there were, the parent of the new one among them
  · simp [hj, newNamespace]
  · by_cases hji : j = i <;> simp [hj, hji, hn, hne, Index.tree]
  · simp [hj, newNamespace]
  · by_cases hji : j = i <;> simp [hj, hji, hn, hne, Index.tree]
  · simp [hj, hne.symm, newNamespace]
  · by_cases hji : j = i <;> simp [hj, hji, hn, hne, Index.tree]

theorem withChild_wf (h : index.NamespacesWF) {i : Nat} (hi : index.tree.Valid i) {part : Str}
    (hc : index.tree.child i part = none) : (index.withChild i part).NamespacesWF where
  table := (h.table.insert _).modify hi.1 (fun _ => rfl) fun _ => rfl
  tree := by
    rw [tree_withChild hi]
    exact NameTree.addChild_wf h.tree hi hc

theorem withChild_grows {i : Nat} (hi : index.tree.Valid i) (part : Str) :
    index.Grows (index.withChild i part) where
  tree := by
    rw [tree_withChild hi]
    exact NameTree.addChild_extends hi part
  global := rfl
  procs := rfl
  vars := rfl

/-- `ResolveNamespace` grows the tree. -/
theorem resolveParts_eq (h : index.NamespacesWF) (parts : List Str) {i : Nat}
    (hi : index.tree.Valid i) :
    ∃ index', resolveParts index i parts = .ok ((index.tree.grow i parts).1, index') ∧
      index'.tree = (index.tree.grow i parts).2 ∧ index'.NamespacesWF ∧ index.Grows index' := by
  induction parts generalizing index i with
  | nil => exact ⟨index, rfl, rfl, h, .refl index⟩
  | cons part parts ih =>
    obtain ⟨n, hget, hid, -, -, hn⟩ := get_namespace h hi
    have hfind := findChild_children h part hi hn
    cases hc : index.tree.child i part with
    | some j =>
      obtain ⟨index', h1, h2, h3, h4⟩ := ih h (NameTree.child_valid h.tree hi hc)
      refine ⟨index', ?_, by simpa [NameTree.grow, hc] using h2, h3, h4⟩
      simpa [resolveParts, hget, hfind, hc, NameTree.grow] using h1
    | none =>
      have hwf := withChild_wf h hi hc
      have hg := withChild_grows hi part
      have htree := tree_withChild hi part
      have hnew : (index.withChild i part).tree.Valid (index.namespaces.table.length + 1) := by
        rw [htree, NameTree.addChild_valid_iff]
        exact Or.inr rfl
      have hstep : resolveParts index i (part :: parts) =
          resolveParts (index.withChild i part) (index.namespaces.table.length + 1) parts := by
        simp only [resolveParts, hget, hid, hfind, hc, ok_bind]
        rfl
      obtain ⟨index', h1, h2, h3, h4⟩ := ih hwf hnew
      rw [htree] at h1 h2
      exact ⟨index', by simpa [hstep, NameTree.grow, hc] using h1,
        by simpa [NameTree.grow, hc] using h2, h3, hg.trans h4⟩

/-- The path a qualified name resolves to, seen from a namespace. -/
def QualifiedName.targetPath (qn : QualifiedName) (path parts : List Str) : List Str :=
  if qn.absolute then parts else path ++ parts

/-- The namespace `ResolveNamespace` returns is the one at the target path of the name, and only
namespaces are added. It fails exactly when the name has no parts. -/
theorem resolveNamespace_spec (h : index.NamespacesWF) (qn : QualifiedName) {ns : Nat}
    {path : List Str} (hns : index.atPath path = some ns) :
    (∃ parts ns' index', qn.namespaceParts = .ok parts ∧
      resolveNamespace index qn ns = .ok (ns', index') ∧
      index'.atPath (qn.targetPath path parts) = some ns' ∧ index'.NamespacesWF ∧
      index.Grows index') ∨
    (∃ fault, qn.namespaceParts = .error fault ∧ resolveNamespace index qn ns = .error fault) := by
  cases hparts : qn.namespaceParts with
  | error fault =>
    exact Or.inr ⟨fault, rfl, by simp [resolveNamespace, hparts]⟩
  | ok parts =>
    left
    set start := if qn.absolute then index.globalNamespaceId else ns with hstart
    have hv : index.tree.Valid start := by
      by_cases ha : qn.absolute
      · simpa [hstart, ha] using h.tree.root_valid
      · simpa [hstart, ha] using Index.atPath_valid h hns
    obtain ⟨index', h1, h2, h3, h4⟩ := resolveParts_eq h parts hv
    obtain ⟨-, -, hwalk⟩ := NameTree.grow_spec h.tree hv parts
    rw [← h2] at hwalk
    have hpath : index'.atPath (qn.targetPath path parts) = some (index.tree.grow start parts).1 := by
      by_cases ha : qn.absolute
      · simpa [QualifiedName.targetPath, ha, Index.atPath, h4.global, hstart] using hwalk
      · have hns' := h4.toExtends.atPath h hns
        rw [Index.atPath] at hns'
        have hstart' : start = ns := by simp [hstart, ha]
        rw [hstart'] at hwalk ⊢
        simp [QualifiedName.targetPath, ha, Index.atPath, NameTree.walk_append, hns', hwalk]
    obtain ⟨n, hget, hid, -⟩ := get_namespace h3 (Index.atPath_valid h3 hpath)
    refine ⟨parts, (index.tree.grow start parts).1, index', rfl, ?_, hpath, h3, h4⟩
    simp [resolveNamespace, hparts, ← hstart, h1, hget, hid]

end TclAnalyzer
