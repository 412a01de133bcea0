import Mathlib.Data.List.Find
import Mathlib.Data.List.Induction
import Mathlib.Data.List.Nodup
import Mathlib.Data.Nat.Init
import Mathlib.Logic.Function.Basic

/-!
# Named trees over numbered nodes

A rooted tree whose nodes are the numbers `1, …, size`, handed out in order of creation. Every node
carries a name, an optional parent and the list of its children. Siblings have different names, so a
node is determined by the names on the way down from the root, its *path*: `walk` reads a path
downwards, `grow` reads one and creates the nodes that are missing.

The order between trees is `Extends`: nodes are only added, and only at the end of the lists of
children. Walks of a tree are walks of every extension of it.
-/

/-- Nodes `1, …, size` with names, parents and lists of children. -/
structure NameTree (α : Type*) where
  /-- The number of nodes. -/
  size : ℕ
  /-- The name of a node. -/
  name : ℕ → α
  /-- The parent of a node. -/
  parent : ℕ → Option ℕ
  /-- The children of a node, in order of creation. -/
  children : ℕ → List ℕ

namespace NameTree

variable {α : Type*}

/-- The numbers that are nodes. -/
def Valid (t : NameTree α) (i : ℕ) : Prop := 1 ≤ i ∧ i ≤ t.size

/-- The tree invariant: `root` has no parent, every other node has a parent with a smaller number,
the children of a node are exactly the nodes that have it as their parent, each listed once, and
siblings have different names. -/
structure WF (t : NameTree α) (root : ℕ) : Prop where
  root_valid : t.Valid root
  root_parent : t.parent root = none
  parent_lt : ∀ i, t.Valid i → i ≠ root → ∃ p, t.parent i = some p ∧ t.Valid p ∧ p < i
  mem_children : ∀ p i, t.Valid p → (i ∈ t.children p ↔ t.Valid i ∧ t.parent i = some p)
  nodup : ∀ p, t.Valid p → (t.children p).Nodup
  names : ∀ p i j, t.Valid p → i ∈ t.children p → j ∈ t.children p → t.name i = t.name j → i = j

/-- `t'` has the nodes of `t`, with their names and parents, and possibly more. -/
structure Extends (t t' : NameTree α) : Prop where
  size_le : t.size ≤ t'.size
  name : ∀ i, t.Valid i → t'.name i = t.name i
  parent : ∀ i, t.Valid i → t'.parent i = t.parent i
  children : ∀ i, t.Valid i → t.children i <+: t'.children i

/-- A new node named `a` under `p`. -/
def addChild (t : NameTree α) (p : ℕ) (a : α) : NameTree α where
  size := t.size + 1
  name := Function.update t.name (t.size + 1) a
  parent := Function.update t.parent (t.size + 1) (some p)
  children := Function.update (Function.update t.children (t.size + 1) []) p
    (t.children p ++ [t.size + 1])

theorem Valid.ne_fresh {t : NameTree α} {i : ℕ} (h : t.Valid i) : i ≠ t.size + 1 := by
  have := h.2
  omega

theorem Valid.mono {t t' : NameTree α} {i : ℕ} (h : t.Valid i) (hx : Extends t t') : t'.Valid i :=
  ⟨h.1, h.2.trans hx.size_le⟩

theorem Extends.refl (t : NameTree α) : Extends t t :=
  ⟨le_rfl, fun _ _ => rfl, fun _ _ => rfl, fun _ _ => List.prefix_rfl⟩

theorem Extends.trans {t t' t'' : NameTree α} (h : Extends t t') (h' : Extends t' t'') :
    Extends t t'' where
  size_le := h.size_le.trans h'.size_le
  name i hi := (h'.name i (hi.mono h)).trans (h.name i hi)
  parent i hi := (h'.parent i (hi.mono h)).trans (h.parent i hi)
  children i hi := (h.children i hi).trans (h'.children i (hi.mono h))

variable {t t' : NameTree α} {root : ℕ}

theorem addChild_extends {p : ℕ} (hp : t.Valid p) (a : α) : Extends t (t.addChild p a) where
  size_le := Nat.le_succ _
  name i hi := Function.update_of_ne hi.ne_fresh ..
  parent i hi := Function.update_of_ne hi.ne_fresh ..
  children i hi := by
    by_cases hip : i = p
    · subst hip
      simp [addChild]
    · simp [addChild, Function.update_of_ne hip, Function.update_of_ne hi.ne_fresh]

theorem addChild_valid_iff {p i : ℕ} {a : α} :
    (t.addChild p a).Valid i ↔ t.Valid i ∨ i = t.size + 1 := by
  simp only [Valid, addChild]
  omega

theorem mem_addChild_children {p q i : ℕ} {a : α} (hp : t.Valid p) (hq : (t.addChild p a).Valid q) :
    i ∈ (t.addChild p a).children q ↔ (t.Valid q ∧ i ∈ t.children q) ∨ (q = p ∧ i = t.size + 1) := by
  rcases addChild_valid_iff.mp hq with hq | rfl
  · by_cases hqp : q = p
    · subst hqp
      have hv : t.Valid q := hp
      simp [addChild, hv]
    · simp [addChild, hq.ne_fresh, hq, hqp]
  · have hfresh : ¬ t.Valid (t.size + 1) := fun h => h.ne_fresh rfl
    simp [addChild, hfresh, hp.ne_fresh.symm]

/-! ## Walking down a path -/

section Walk

variable [DecidableEq α]

/-- The first child of `p` named `a`. -/
def child (t : NameTree α) (p : ℕ) (a : α) : Option ℕ :=
  (t.children p).find? fun i => t.name i = a

/-- The node reached from `i` by the names of a path. -/
def walk (t : NameTree α) (i : ℕ) : List α → Option ℕ
  | [] => some i
  | a :: as => (t.child i a).bind fun j => walk t j as

/-- The node reached from `i` by a path in the tree that has the missing nodes of the path added. -/
def grow (t : NameTree α) (i : ℕ) : List α → ℕ × NameTree α
  | [] => (i, t)
  | a :: as =>
    match t.child i a with
    | some j => grow t j as
    | none => grow (t.addChild i a) (t.size + 1) as

@[simp] theorem walk_nil (t : NameTree α) (i : ℕ) : t.walk i [] = some i := rfl

@[simp] theorem walk_cons (t : NameTree α) (i : ℕ) (a : α) (as : List α) :
    t.walk i (a :: as) = (t.child i a).bind fun j => t.walk j as := rfl

theorem walk_append (t : NameTree α) (i : ℕ) (as bs : List α) :
    t.walk i (as ++ bs) = (t.walk i as).bind fun j => t.walk j bs := by
  induction as generalizing i with
  | nil => rfl
  | cons a as ih => cases h : t.child i a <;> simp [h, ih]

theorem child_eq_some (h : t.WF root) {p i : ℕ} (hp : t.Valid p) {a : α} :
    t.child p a = some i ↔ i ∈ t.children p ∧ t.name i = a := by
  constructor
  · intro hc
    exact ⟨List.mem_of_find?_eq_some hc, by simpa using List.find?_some hc⟩
  · rintro ⟨hi, rfl⟩
    cases hc : t.child p (t.name i) with
    | none =>
      have := List.find?_eq_none.mp hc i hi
      simp at this
    | some j =>
      have hj : t.name j = t.name i := by simpa using List.find?_some hc
      rw [h.names p j i hp (List.mem_of_find?_eq_some hc) hi hj]

theorem child_valid (h : t.WF root) {p i : ℕ} (hp : t.Valid p) {a : α}
    (hc : t.child p a = some i) : t.Valid i :=
  ((h.mem_children p i hp).mp ((child_eq_some h hp).mp hc).1).1

theorem walk_valid (h : t.WF root) {i j : ℕ} (hi : t.Valid i) {as : List α}
    (hw : t.walk i as = some j) : t.Valid j := by
  induction as generalizing i with
  | nil => obtain rfl : i = j := by simpa using hw
           exact hi
  | cons a as ih =>
    obtain ⟨k, hk, hw⟩ := Option.bind_eq_some_iff.mp hw
    exact ih (child_valid h hi hk) hw

/-- Every node has a path. -/
theorem exists_path (h : t.WF root) {i : ℕ} (hi : t.Valid i) : ∃ as, t.walk root as = some i := by
  induction i using Nat.strong_induction_on with
  | _ i ih =>
    by_cases hr : i = root
    · exact ⟨[], by simp [hr]⟩
    · obtain ⟨p, hp, hpv, hlt⟩ := h.parent_lt i hi hr
      obtain ⟨as, has⟩ := ih p hlt hpv
      have hc : t.child p (t.name i) = some i :=
        (child_eq_some h hpv).mpr ⟨(h.mem_children p i hpv).mpr ⟨hi, hp⟩, rfl⟩
      exact ⟨as ++ [t.name i], by simp [walk_append, has, hc]⟩

/-- The last step of a walk: the node before the last is the parent of the node reached. -/
theorem walk_concat (h : t.WF root) {i : ℕ} {as : List α} {a : α}
    (hw : t.walk root (as ++ [a]) = some i) :
    ∃ p, t.walk root as = some p ∧ t.parent i = some p ∧ t.name i = a := by
  rw [walk_append] at hw
  obtain ⟨p, hp, hw⟩ := Option.bind_eq_some_iff.mp hw
  have hpv := walk_valid h h.root_valid hp
  have hc : t.child p a = some i := by simpa using hw
  obtain ⟨hmem, hname⟩ := (child_eq_some h hpv).mp hc
  exact ⟨p, hp, ((h.mem_children p i hpv).mp hmem).2, hname⟩

/-- A node has one path only. -/
theorem walk_injective (h : t.WF root) {i : ℕ} {as bs : List α} (ha : t.walk root as = some i)
    (hb : t.walk root bs = some i) : as = bs := by
  induction as using List.reverseRecOn generalizing i bs with
  | nil =>
    obtain rfl : root = i := by simpa using ha
    rcases List.eq_nil_or_concat bs with rfl | ⟨bs, b, rfl⟩
    · rfl
    · obtain ⟨p, -, hp, -⟩ := walk_concat h (by simpa using hb)
      rw [h.root_parent] at hp
      cases hp
  | append_singleton as a ih =>
    obtain ⟨p, hpa, hp, hna⟩ := walk_concat h ha
    rcases List.eq_nil_or_concat bs with rfl | ⟨bs, b, rfl⟩
    · obtain rfl : root = i := by simpa using hb
      rw [h.root_parent] at hp
      cases hp
    · obtain ⟨q, hqb, hq, hnb⟩ := walk_concat h (by simpa using hb)
      obtain rfl : p = q := Option.some.inj (hp.symm.trans hq)
      rw [ih hpa hqb, ← hna, ← hnb, List.concat_eq_append]

theorem child_mono (h : t.WF root) (hx : Extends t t') {p i : ℕ} (hp : t.Valid p) {a : α}
    (hc : t.child p a = some i) : t'.child p a = some i := by
  obtain ⟨rest, hrest⟩ := hx.children p hp
  have hsame : ∀ j ∈ t.children p, decide (t'.name j = a) = decide (t.name j = a) := by
    intro j hj
    rw [hx.name j ((h.mem_children p j hp).mp hj).1]
  have hold : (t.children p).find? (fun j => t'.name j = a) = some i := by
    rw [← hc, child, List.find?_congr hsame]
  rw [child, ← hrest, List.find?_append, hold]
  rfl

/-- Walks of a tree are walks of its extensions. -/
theorem walk_mono (h : t.WF root) (hx : Extends t t') {i j : ℕ} (hi : t.Valid i) {as : List α}
    (hw : t.walk i as = some j) : t'.walk i as = some j := by
  induction as generalizing i with
  | nil => exact hw
  | cons a as ih =>
    obtain ⟨k, hk, hw⟩ := Option.bind_eq_some_iff.mp hw
    simp [child_mono h hx hi hk, ih (child_valid h hi hk) hw]

/-- An extension reaches a node of the tree by its path in the tree only. -/
theorem walk_extends_iff (h : t.WF root) (h' : t'.WF root) (hx : Extends t t') {j : ℕ}
    (hj : t.Valid j) {as : List α} : t'.walk root as = some j ↔ t.walk root as = some j := by
  constructor
  · intro hw
    obtain ⟨bs, hbs⟩ := exists_path h hj
    rwa [walk_injective h' hw (walk_mono h hx h.root_valid hbs)]
  · exact walk_mono h hx h.root_valid

/-! ## Growing a path -/

/-- A new child with a name no sibling has keeps the tree invariant. -/
theorem addChild_wf (h : t.WF root) {p : ℕ} (hp : t.Valid p) {a : α} (hc : t.child p a = none) :
    (t.addChild p a).WF root := by
  have hx := addChild_extends hp a
  have hnames : ∀ i ∈ t.children p, t.name i ≠ a := by
    intro i hi hia
    exact absurd (List.find?_eq_none.mp hc i hi) (by simp [hia])
  have hchild : ∀ q i, t.Valid q → i ∈ t.children q → t.Valid i := fun q i hq hi =>
    ((h.mem_children q i hq).mp hi).1
  refine
    { root_valid := h.root_valid.mono hx
      root_parent := (hx.parent root h.root_valid).trans h.root_parent
      parent_lt := ?_
      mem_children := ?_
      nodup := ?_
      names := ?_ }
  · intro i hi hr
    rcases addChild_valid_iff.mp hi with hi | rfl
    · obtain ⟨q, hq, hqv, hlt⟩ := h.parent_lt i hi hr
      exact ⟨q, (hx.parent i hi).trans hq, hqv.mono hx, hlt⟩
    · exact ⟨p, by simp [addChild], hp.mono hx, Nat.lt_succ_of_le hp.2⟩
  · intro q i hq
    rw [mem_addChild_children hp hq, addChild_valid_iff]
    constructor
    · rintro (⟨hqv, hi⟩ | ⟨rfl, rfl⟩)
      · obtain ⟨hiv, hpar⟩ := (h.mem_children q i hqv).mp hi
        exact ⟨Or.inl hiv, (hx.parent i hiv).trans hpar⟩
      · exact ⟨Or.inr rfl, by simp [addChild]⟩
    · rintro ⟨hi | rfl, hpar⟩
      · rw [hx.parent i hi] at hpar
        have hne : i ≠ root := by
          rintro rfl
          rw [h.root_parent] at hpar
          cases hpar
        obtain ⟨q', hq', hqv, -⟩ := h.parent_lt i hi hne
        obtain rfl : q' = q := Option.some.inj (hq'.symm.trans hpar)
        exact Or.inl ⟨hqv, (h.mem_children q' i hqv).mpr ⟨hi, hpar⟩⟩
      · exact Or.inr ⟨by simpa [addChild, eq_comm] using hpar, rfl⟩
  · intro q hq
    rcases addChild_valid_iff.mp hq with hqv | rfl
    · by_cases hqp : q = p
      · subst hqp
        have hnot : t.size + 1 ∉ t.children q := fun hi => (hchild q _ hqv hi).ne_fresh rfl
        simpa [addChild] using (List.nodup_concat _ _).mpr ⟨hnot, h.nodup q hqv⟩
      · simpa [addChild, hqp, hqv.ne_fresh] using h.nodup q hqv
    · simp [addChild, hp.ne_fresh.symm]
  · intro q i j hq hi hj hij
    rw [mem_addChild_children hp hq] at hi hj
    rcases hi with ⟨hqv, hi⟩ | ⟨rfl, rfl⟩ <;> rcases hj with ⟨hqv', hj⟩ | ⟨hqp, rfl⟩
    · rw [hx.name i (hchild q i hqv hi), hx.name j (hchild q j hqv hj)] at hij
      exact h.names q i j hqv hi hj hij
    · subst hqp
      rw [hx.name i (hchild q i hqv hi)] at hij
      exact absurd (by simpa [addChild] using hij) (hnames i hi)
    · rw [hx.name j (hchild q j hqv' hj)] at hij
      exact absurd (by simpa [addChild, eq_comm] using hij) (hnames j hj)
    · rfl

theorem child_addChild_self (h : t.WF root) {p : ℕ} (hp : t.Valid p) {a : α}
    (hc : t.child p a = none) : (t.addChild p a).child p a = some (t.size + 1) := by
  have hx := addChild_extends hp a
  rw [child_eq_some (addChild_wf h hp hc) (hp.mono hx), mem_addChild_children hp (hp.mono hx)]
  exact ⟨Or.inr ⟨rfl, rfl⟩, by simp [addChild]⟩

/-- Growing a path keeps the tree invariant, only adds nodes, and reaches the end of the path. -/
theorem grow_spec (h : t.WF root) {i : ℕ} (hi : t.Valid i) (as : List α) :
    (t.grow i as).2.WF root ∧ Extends t (t.grow i as).2 ∧
      (t.grow i as).2.walk i as = some (t.grow i as).1 := by
  induction as generalizing t i with
  | nil => exact ⟨h, Extends.refl t, rfl⟩
  | cons a as ih =>
    cases hc : t.child i a with
    | some j =>
      obtain ⟨h1, h2, h3⟩ := ih h (child_valid h hi hc)
      simp only [grow, hc]
      exact ⟨h1, h2, by simp [child_mono h h2 hi hc, h3]⟩
    | none =>
      have hx := addChild_extends hi a
      have hwf := addChild_wf h hi hc
      have hself := child_addChild_self h hi hc
      obtain ⟨h1, h2, h3⟩ := ih hwf (child_valid hwf (hi.mono hx) hself)
      simp only [grow, hc]
      exact ⟨h1, hx.trans h2, by simp [child_mono hwf h2 (hi.mono hx) hself, h3]⟩

/-! ## The paths of a tree -/

/-- The path leads to a node. -/
def HasPath (t : NameTree α) (root : ℕ) (path : List α) : Prop := ∃ i, t.walk root path = some i

theorem hasPath_of_prefix {as bs : List α} (h : t.HasPath root as) (hbs : bs <+: as) :
    t.HasPath root bs := by
  obtain ⟨cs, rfl⟩ := hbs
  obtain ⟨i, hi⟩ := h
  rw [walk_append] at hi
  obtain ⟨j, hj, -⟩ := Option.bind_eq_some_iff.mp hi
  exact ⟨j, hj⟩

/-- A new node adds its own path only. -/
theorem hasPath_addChild_iff (h : t.WF root) {p : ℕ} {base : List α} {a : α}
    (hp : t.walk root base = some p) (hc : t.child p a = none) (path : List α) :
    (t.addChild p a).HasPath root path ↔ t.HasPath root path ∨ path = base ++ [a] := by
  have hpv := walk_valid h h.root_valid hp
  have hx := addChild_extends hpv a
  have hwf := addChild_wf h hpv hc
  have hnew : (t.addChild p a).walk root (base ++ [a]) = some (t.size + 1) := by
    rw [walk_append, walk_mono h hx h.root_valid hp]
    simp [child_addChild_self h hpv hc]
  constructor
  · rintro ⟨i, hi⟩
    rcases addChild_valid_iff.mp (walk_valid hwf hwf.root_valid hi) with hiv | rfl
    · exact Or.inl ⟨i, (walk_extends_iff h hwf hx hiv).mp hi⟩
    · exact Or.inr (walk_injective hwf hi hnew)
  · rintro (⟨i, hi⟩ | rfl)
    · exact ⟨i, walk_mono h hx h.root_valid hi⟩
    · exact ⟨t.size + 1, hnew⟩

/-- Growing a path adds it with what is before it, and nothing else. -/
theorem hasPath_grow_iff (h : t.WF root) {i : ℕ} {base : List α} (hi : t.walk root base = some i)
    (as path : List α) :
    (t.grow i as).2.HasPath root path ↔ t.HasPath root path ∨ path <+: base ++ as := by
  have hiv := walk_valid h h.root_valid hi
  induction as generalizing t i base with
  | nil =>
    rw [List.append_nil]
    refine ⟨Or.inl, fun hpath => hpath.elim id fun hprefix => ?_⟩
    exact hasPath_of_prefix ⟨i, hi⟩ hprefix
  | cons a as ih =>
    rw [show base ++ a :: as = (base ++ [a]) ++ as by simp]
    cases hc : t.child i a with
    | some j =>
      have hj : t.walk root (base ++ [a]) = some j := by simp [walk_append, hi, hc]
      simp only [grow, hc]
      exact ih h hj (child_valid h hiv hc)
    | none =>
      have hx := addChild_extends hiv a
      have hwf := addChild_wf h hiv hc
      have hself := child_addChild_self h hiv hc
      have hj : (t.addChild i a).walk root (base ++ [a]) = some (t.size + 1) := by
        rw [walk_append, walk_mono h hx h.root_valid hi]
        simp [hself]
      simp only [grow, hc]
      refine (ih hwf hj (child_valid hwf (hiv.mono hx) hself)).trans ?_
      rw [hasPath_addChild_iff h hi hc]
      constructor
      · rintro ((hpath | rfl) | hprefix)
        · exact Or.inl hpath
        · exact Or.inr (List.prefix_append _ _)
        · exact Or.inr hprefix
      · rintro (hpath | hprefix)
        · exact Or.inl (Or.inl hpath)
        · exact Or.inr hprefix

end Walk

end NameTree
