import TclAnalyzer.Analyzer.Proofs.OperationsProofs

/-!
# What every operation on an index keeps

The passes write to the index through three functions only, `ResolveNamespace`, `AddProcToIndex` and
`AddCommandReference`. What these keep, a turn of a pass keeps, and with it every run of operations.
-/

namespace TclAnalyzer

variable {index index' : Index}

/-! ## The rows of the namespaces -/

theorem mem_modify {α : Type} {l : List α} {i : Nat} {f : α → α} {a : α} (h : a ∈ l.modify i f) :
    a ∈ l ∨ ∃ b ∈ l, a = f b := by
  obtain ⟨j, hj⟩ := List.mem_iff_getElem?.mp h
  rw [List.getElem?_modify] at hj
  obtain ⟨b, hb, rfl⟩ := Option.map_eq_some_iff.mp hj
  have hmem : b ∈ l := List.mem_of_getElem? hb
  by_cases hij : i = j
  · rw [if_pos hij]
    exact Or.inr ⟨b, hmem, rfl⟩
  · rw [if_neg hij]
    exact Or.inl hmem

/-- A row as it is inserted for a component of a name. -/
def childRow (part : Str) (parent id : Nat) : Namespace :=
  { newNamespace part (some parent) with id }

section Rows

variable {P : Namespace → Prop}
  (hchildren : ∀ (n : Namespace) (childNamespaces : List Nat), P n → P { n with childNamespaces })
include hchildren

/-- What holds of all namespaces, of the new ones too and whatever their children, still holds after
`ResolveNamespace`. -/
theorem resolveParts_rows {parts : List Str} {ns : Nat} {res : Nat × Index}
    (hnew : ∀ part ∈ parts, ∀ parent id, P (childRow part parent id))
    (h : ∀ n ∈ index.namespaces.table, P n) (hres : resolveParts index ns parts = .ok res) :
    (∀ n ∈ res.2.namespaces.table, P n) ∧ res.2.procs = index.procs := by
  induction parts generalizing index ns with
  | nil =>
    cases hres
    exact ⟨h, rfl⟩
  | cons part parts ih =>
    have hrest : ∀ part' ∈ parts, ∀ parent id, P (childRow part' parent id) :=
      fun part' hmem => hnew part' (List.mem_cons_of_mem part hmem)
    obtain ⟨current, -, hres⟩ := bind_eq_ok.mp hres
    obtain ⟨child, -, hres⟩ := bind_eq_ok.mp hres
    cases child with
    | some childId => exact ih hrest h hres
    | none =>
      have hrec := fun hrows => ih hrest hrows hres
      refine hrec ?_
      have hinserted : ∀ n ∈ (index.namespaces.insert (newNamespace part (some current.id))).2.table,
          P n := by
        intro n hn
        rcases List.mem_append.mp hn with hn | hn
        · exact h n hn
        · rw [List.mem_singleton.mp hn]
          exact hnew part List.mem_cons_self current.id _
      intro n hn
      rcases mem_modify hn with hn | ⟨n', hn', rfl⟩
      · exact hinserted n hn
      · exact hchildren n' _ (hinserted n' hn')

/-- The same for a whole name, which adds no procs. -/
theorem resolveNamespace_rows {qn : QualifiedName} {parts : List Str} {ns : Nat} {res : Nat × Index}
    (hparts : qn.namespaceParts = .ok parts)
    (hnew : ∀ part ∈ parts, ∀ parent id, P (childRow part parent id))
    (h : ∀ n ∈ index.namespaces.table, P n) (hres : resolveNamespace index qn ns = .ok res) :
    (∀ n ∈ res.2.namespaces.table, P n) ∧ res.2.procs = index.procs := by
  obtain ⟨parts', hparts', hres⟩ := bind_eq_ok.mp hres
  cases hparts.symm.trans hparts'
  obtain ⟨⟨target, index1⟩, hresolve, hres⟩ := bind_eq_ok.mp hres
  have h1 := resolveParts_rows hchildren hnew h hresolve
  obtain ⟨n, -, hres⟩ := bind_eq_ok.mp hres
  cases hres
  exact h1

/-- `AddProcToIndex` pushes the id of a proc that is not in the table yet, which is 0. -/
theorem addProcToIndex_rows {words : List Word} {ns : Nat}
    (hpush : ∀ n : Namespace, P n →
      P { n with scope := { n.scope with procs := n.scope.procs ++ [0] } })
    (hnew : ∀ nameWord parts, words[1]? = some nameWord →
      (splitName nameWord.text.bytes).namespaceParts = .ok parts →
      ∀ part ∈ parts, ∀ parent id, P (childRow part parent id))
    (h : ∀ n ∈ index.namespaces.table, P n) (hadd : addProcToIndex index ns words = .ok index') :
    (∀ n ∈ index'.namespaces.table, P n) ∧ index'.procs.table ≠ [] := by
  obtain ⟨nameWord, hname, hadd⟩ := bind_eq_ok.mp hadd
  obtain ⟨argsWord, -, hadd⟩ := bind_eq_ok.mp hadd
  obtain ⟨⟨proc, index1⟩, hargs, hadd⟩ := bind_eq_ok.mp hadd
  obtain ⟨⟨target, index2⟩, hres, hfin⟩ := bind_eq_ok.mp hadd
  obtain ⟨-, hid, vars, rfl⟩ := addArgumentWord_ok hargs
  have h1 : ∀ n ∈ ({ index with vars } : Index).namespaces.table, P n := h
  have h2 : ∀ n ∈ index2.namespaces.table, P n := by
    unfold resolveQualified at hres
    split at hres
    · have hres' := hres
      obtain ⟨parts, hparts, -⟩ := bind_eq_ok.mp hres'
      exact (resolveNamespace_rows hchildren hparts
        (hnew nameWord parts (nth_eq_ok.mp hname) hparts) h1 hres).1
    · cases hres
      exact h1
  cases hfin
  constructor
  · intro n hn
    rcases mem_modify hn with hn | ⟨n', hn', rfl⟩
    · exact h2 n hn
    · rw [hid]
      exact hpush n' (h2 n' hn')
  · exact List.append_ne_nil_of_right_ne_nil _ (List.cons_ne_nil _ _)

end Rows

/-! ## The functions that write -/

/-- A property of indexes that the three functions keep. -/
structure Kept (I : Index → Prop) : Prop where
  resolve : ∀ {index : Index} {qn : QualifiedName} {ns : Nat} {res : Nat × Index}, I index →
    resolveNamespace index qn ns = .ok res → I res.2
  add : ∀ {index index' : Index} {ns : Nat} {words : List Word}, I index →
    addProcToIndex index ns words = .ok index' → I index'
  refer : ∀ {index : Index} (location : SourceLocation) (proc : Proc) (type : ReferenceType), I index →
    I (addCommandReference index location proc type)

section Kept

variable {I : Index → Prop}

theorem Kept.resolveQualified (hk : Kept I) {qn : QualifiedName} {ns : Nat} {res : Nat × Index}
    (h : I index) (hres : resolveQualified index qn ns = .ok res) : I res.2 := by
  unfold TclAnalyzer.resolveQualified at hres
  split at hres
  · exact hk.resolve h hres
  · cases hres
    exact h

/-- One turn of `FindProc`: the namespace of the name is resolved, and the search ends or goes on in a
parent. -/
theorem findProcAt_step {cmdName : Str} {fuel ns : Nat} {res : List Proc × Index}
    (hfind : findProcAt index cmdName fuel ns = .ok res) : ∃ from' target index1,
      resolveQualified index (splitName cmdName) from' = .ok (target, index1) ∧ (res.2 = index1 ∨
        ∃ fuel' parent, fuel = fuel' + 1 ∧ findProcAt index1 cmdName fuel' parent = .ok res) := by
  rw [findProcAt] at hfind
  obtain ⟨n, -, hfind⟩ := bind_eq_ok.mp hfind
  obtain ⟨⟨target, index1⟩, hres, hfind⟩ := bind_eq_ok.mp hfind
  obtain ⟨procs, -, hfind⟩ := bind_eq_ok.mp hfind
  refine ⟨n.id, target, index1, hres, ?_⟩
  cases hparent : n.parentNamespace with
  | none =>
    rw [hparent] at hfind
    cases hfind
    exact Or.inl rfl
  | some parent =>
    rw [hparent] at hfind
    dsimp only at hfind
    by_cases hup : (procs.filter fun p => p.parentNamespace = target).isEmpty ∧
        ¬ (splitName cmdName).absolute
    · rw [if_pos hup] at hfind
      cases fuel with
      | zero => cases hfind
      | succ fuel => exact Or.inr ⟨fuel, parent, rfl, hfind⟩
    · rw [if_neg hup] at hfind
      cases hfind
      exact Or.inl rfl

/-- The induction is on the bound for the walk up to the global namespace. -/
theorem Kept.findProcAt (hk : Kept I) {cmdName : Str} {fuel ns : Nat} {res : List Proc × Index}
    (h : I index) (hfind : findProcAt index cmdName fuel ns = .ok res) : I res.2 := by
  induction fuel generalizing index ns with
  | zero =>
    obtain ⟨ns', target, index1, hres, rfl | ⟨fuel', parent, hfuel, -⟩⟩ := findProcAt_step hfind
    · exact hk.resolveQualified h hres
    · cases hfuel
  | succ fuel ih =>
    obtain ⟨ns', target, index1, hres, rfl | ⟨fuel', parent, hfuel, hrest⟩⟩ := findProcAt_step hfind
    · exact hk.resolveQualified h hres
    · cases hfuel
      exact ih (hk.resolveQualified h hres) hrest

theorem Kept.findProc (hk : Kept I) {cmdName : Str} {ns : Nat} {res : List Proc × Index}
    (h : I index) (hfind : findProc index ns cmdName = .ok res) : I res.2 :=
  hk.findProcAt h hfind

/-- A usage is recorded after the lookup. -/
theorem Kept.usage (hk : Kept I) {call : Call} {ns : Nat} {res : Option Nat × Index}
    (h : I index) (hres : indexUsage index ns call = .ok res) : I res.2 := by
  obtain ⟨cmdWord, -, hres⟩ := bind_eq_ok.mp hres
  obtain ⟨⟨procs, index1⟩, hfind, hres⟩ := bind_eq_ok.mp hres
  have h1 := hk.findProc h hfind
  dsimp only at hres
  split at hres
  · cases hres
    exact hk.refer _ _ _ h1
  · cases hres
    exact h1

/-! ## A turn of the passes -/

/-- A turn of `ScanScript` writes through one of the three functions at most. -/
theorem Kept.scanAt (hk : Kept I) {site : Site Path} (h : I index)
    (hs : scanAt index site = .ok index') : I index' := by
  cases hns : index.atPath site.scope with
  | none =>
    simp only [TclAnalyzer.scanAt, hns] at hs
    cases hs
  | some ns =>
    cases htype : site.call.type with
    | NAMESPACE_EVAL =>
      simp only [TclAnalyzer.scanAt, hns, htype] at hs
      obtain ⟨word, -, hs⟩ := bind_eq_ok.mp hs
      obtain ⟨⟨target, index1⟩, hres, hs⟩ := bind_eq_ok.mp hs
      cases hs
      exact hk.resolve h hres
    | PROC =>
      simp only [TclAnalyzer.scanAt, hns, htype] at hs
      exact hk.add h hs
    | WHILE | FOR | FOREACH | IF | USER =>
      simp only [TclAnalyzer.scanAt, hns, htype] at hs
      cases hs
      exact h

theorem Kept.indexAt (hk : Kept I) {site : Site Path} (h : I index)
    (hs : indexAt index site = .ok index') : I index' := by
  cases hns : index.atPath site.scope with
  | none =>
    simp only [TclAnalyzer.indexAt, hns] at hs
    cases hs
  | some ns =>
    cases htype : site.call.type with
    | NAMESPACE_EVAL | PROC =>
      simp only [TclAnalyzer.indexAt, hns, htype] at hs
      obtain ⟨word, -, hs⟩ := bind_eq_ok.mp hs
      obtain ⟨⟨target, index1⟩, hres, hs⟩ := bind_eq_ok.mp hs
      cases hs
      exact hk.resolve h hres
    | USER =>
      simp only [TclAnalyzer.indexAt, hns, htype] at hs
      obtain ⟨⟨fit, index1⟩, hres, hs⟩ := bind_eq_ok.mp hs
      cases hs
      exact hk.usage h hres
    | WHILE | FOR | FOREACH | IF =>
      simp only [TclAnalyzer.indexAt, hns, htype] at hs
      cases hs
      exact h

/-! ## The runs -/

/-- The passes are loops over their turns as long as the contexts name namespaces of a sound index. -/
theorem Kept.step (hk : Kept I) {operation : Operation} (hs : operation.Step index index')
    (hwf : index.WF) (h : I index) : I index' := by
  obtain ⟨hex, hrun⟩ := hs
  have hwf' : ({ index, visits := [] } : PassState).index.WF := hwf
  cases operation with
  | scanScript context script =>
    obtain ⟨st, hst, hrun⟩ := bind_eq_ok.mp hrun
    cases hrun
    obtain ⟨path, hc⟩ := ScanContext.at_of_existing hwf.namespaces hex.1 hex.2
    have hloop := (scanScript_agrees script hwf' hc).ok hst
    have hturn : ∀ st site st', I st.index → scanVisit st site = .ok st' → I st'.index :=
      fun _ _ _ h hvisit => hk.scanAt h (scanVisit_index hvisit)
    exact foldlM_invariant hturn h hloop
  | indexScript context script =>
    obtain ⟨st, hst, hrun⟩ := bind_eq_ok.mp hrun
    cases hrun
    obtain ⟨path, hc⟩ := ScanContext.at_of_existing hwf.namespaces hex.1 hex.2
    have hloop := (indexScript_agrees script hwf' hc).ok hst
    have hturn : ∀ st site st', I st.index → indexVisit st site = .ok st' → I st'.index :=
      fun _ _ _ h hvisit => hk.indexAt h (indexVisit_index hvisit)
    exact foldlM_invariant hturn h hloop
  | resolveNamespace qn ns =>
    obtain ⟨⟨target, index1⟩, hres, hrun⟩ := bind_eq_ok.mp hrun
    cases hrun
    exact hk.resolve h hres
  | findProc ns cmdName =>
    obtain ⟨⟨procs, index1⟩, hfind, hrun⟩ := bind_eq_ok.mp hrun
    cases hrun
    exact hk.findProc h hfind

/-- What the three functions keep holds at the end of every run of operations on a sound index. -/
theorem Kept.run (hk : Kept I) {operations : List Operation}
    (hr : Run Operation.Step index operations index') (hwf : index.WF) (h : I index) : I index' := by
  refine (hr.invariant (I := fun x => x.WF ∧ I x) ⟨hwf, h⟩ ?_).2
  rintro t operation u ⟨hwf, h⟩ hs
  exact ⟨(hs.keeps hwf).1, hk.step hs hwf h⟩

end Kept

end TclAnalyzer
