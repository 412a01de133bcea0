import TclAnalyzer.Analyzer.Samples
import TclAnalyzer.Analyzer.Proofs.InvariantProofs

/-!
# The procs in the scopes of namespaces

`AddProcToIndex` pushes the id of a proc before the table assigns it. So the scopes hold nothing but
the id of a new proc, which is 0, once for every proc that was registered.
-/

namespace TclAnalyzer

variable {index index' : Index}

/-! ## What is pushed -/

/-- The scopes hold zeros only, and none before a proc is registered. -/
def Index.ZeroScopes (index : Index) : Prop :=
  ∀ n ∈ index.namespaces.table, ∀ id ∈ n.scope.procs, id = 0 ∧ index.procs.table ≠ []

theorem resolveNamespace_zeroScopes {qn : QualifiedName} {ns : Nat} {res : Nat × Index}
    (h : index.ZeroScopes) (hres : resolveNamespace index qn ns = .ok res) : res.2.ZeroScopes := by
  have hres' := hres
  obtain ⟨parts, hparts, -⟩ := bind_eq_ok.mp hres'
  obtain ⟨hrows, hprocs⟩ := resolveNamespace_rows
    (P := fun n => ∀ id ∈ n.scope.procs, id = 0 ∧ index.procs.table ≠ []) (fun _ _ hn => hn) hparts
    (fun _ _ _ _ id hid => absurd hid List.not_mem_nil) h hres
  unfold Index.ZeroScopes
  rw [hprocs]
  exact hrows

theorem addProcToIndex_zeroScopes {ns : Nat} {words : List Word} (h : index.ZeroScopes)
    (hadd : addProcToIndex index ns words = .ok index') : index'.ZeroScopes := by
  have hpush : ∀ n : Namespace, (∀ id ∈ n.scope.procs, id = 0) →
      ∀ id ∈ n.scope.procs ++ [0], id = 0 := by
    intro n hn id hid
    rcases List.mem_append.mp hid with hid | hid
    · exact hn id hid
    · exact List.mem_singleton.mp hid
  obtain ⟨hrows, hne⟩ := addProcToIndex_rows (P := fun n => ∀ id ∈ n.scope.procs, id = 0)
    (fun _ _ hn => hn) hpush (fun _ _ _ _ _ _ _ _ id hid => absurd hid List.not_mem_nil)
    (fun n hn id hid => (h n hn id hid).1) hadd
  exact fun n hn id hid => ⟨hrows n hn id hid, hne⟩

theorem zeroScopes_kept : Kept Index.ZeroScopes where
  resolve := resolveNamespace_zeroScopes
  add := addProcToIndex_zeroScopes
  refer _ _ _ h := h

theorem makeIndex_zeroScopes : makeIndex.ZeroScopes := by
  intro n hn id hid
  rw [List.mem_singleton.mp hn] at hid
  exact absurd hid List.not_mem_nil

/-! ## When a proc is registered -/

/-- Which calls `ScanScript` reaches does not depend on the namespace it starts in. -/
theorem scanPass_reaches {script : Script} {path : Path} {pos : Pos} {site : Site Path}
    (h : site ∈ sitesScript scanPass path pos script) (path' : Path) :
    ∃ scope, ⟨site.pos, site.call, scope⟩ ∈ sitesScript scanPass path' pos script := by
  have henter : ∀ {a b : Path} {call : Call} {k : Nat} {a' : Path},
      scanPass.enter a call k = some a' → ∃ b', scanPass.enter b call k = some b' := by
    intro a b call k a' he
    obtain ⟨type, words, callNs⟩ := call
    cases type with
    | NAMESPACE_EVAL =>
      by_cases hk : k = 3
      · exact ⟨_, if_pos hk⟩
      · simp [scanPass, hk] at he
    | PROC | WHILE | FOR | FOREACH | IF | USER => exact ⟨b, rfl⟩
  have hdescend : ∀ {a b : Path} {type : WordType} {a' : Path},
      scanPass.descend a type = some a' → ∃ b', scanPass.descend b type = some b' := by
    intro a b type a' he
    cases type <;> simp_all [scanPass]
  obtain ⟨scope, hr⟩ := Reaches.rescope henter hdescend (mem_sitesScript.mp h) path'
  exact ⟨scope, mem_sitesScript.mpr hr⟩

theorem Operation.scansProc_iff (context : ScanContext) (script : Script) (path : Path) :
    (Operation.scanScript context script).ScansProc ↔
      procSites (sitesScript scanPass path [] script) ≠ [] := by
  constructor
  · rintro ⟨site, hsite, hproc⟩
    obtain ⟨scope, hmem⟩ := scanPass_reaches hsite path
    exact List.ne_nil_of_mem (List.mem_filter.mpr ⟨hmem, decide_eq_true hproc⟩)
  · intro hne
    obtain ⟨site, hsite⟩ := List.exists_mem_of_ne_nil _ hne
    obtain ⟨hmem, hproc⟩ := List.mem_filter.mp hsite
    obtain ⟨scope, hmem⟩ := scanPass_reaches hmem []
    exact ⟨_, hmem, of_decide_eq_true hproc⟩

/-- Procs are registered by scans that reach a `proc` command and by nothing else. -/
theorem Operation.Step.procs_eq_nil_iff {operation : Operation} (hs : operation.Step index index')
    (h : index.WF) :
    index'.procs.table = [] ↔ index.procs.table = [] ∧ ¬ operation.ScansProc := by
  obtain ⟨hex, hrun⟩ := hs
  cases operation with
  | scanScript context script =>
    obtain ⟨st, hst, hrun⟩ := bind_eq_ok.mp hrun
    cases hrun
    obtain ⟨path, hc⟩ := ScanContext.at_of_existing h.namespaces hex.1 hex.2
    have hstart : ({ index, visits := [] } : PassState).index.WF := h
    obtain ⟨regs, hregs, htable, -⟩ := (scanScript_ok hstart hc hst).procs
    have hnil : regs = [] ↔ procSites (sitesScript scanPass path [] script) = [] := by
      rw [← List.length_eq_zero_iff, hregs.length_eq, List.length_eq_zero_iff]
    rw [htable, List.append_eq_nil_iff, List.map_eq_nil_iff, scansProc_iff context script path,
      not_not, hnil]
  | indexScript context script =>
    obtain ⟨st, hst, hrun⟩ := bind_eq_ok.mp hrun
    cases hrun
    obtain ⟨path, hc⟩ := ScanContext.at_of_existing h.namespaces hex.1 hex.2
    have hstart : ({ index, visits := [] } : PassState).index.WF := h
    rw [(indexScript_ok hstart hc hst).table]
    exact (and_iff_left not_false).symm
  | resolveNamespace qn ns =>
    obtain ⟨⟨target, index1⟩, hres, hrun⟩ := bind_eq_ok.mp hrun
    cases hrun
    obtain ⟨path, hpath⟩ := (hasNamespace_iff h.namespaces).mp hex
    rcases resolveNamespace_spec h.namespaces qn hpath with
      ⟨-, ns', index2, -, hres', -, -, hg⟩ | ⟨fault, -, hf⟩
    · cases hres.symm.trans hres'
      rw [hg.procs]
      exact (and_iff_left not_false).symm
    · cases hres.symm.trans hf
  | findProc ns cmdName =>
    obtain ⟨⟨procs, index1⟩, hfind, hrun⟩ := bind_eq_ok.mp hrun
    cases hrun
    obtain ⟨path, hpath⟩ := (hasNamespace_iff h.namespaces).mp hex
    rcases findProc_spec h hpath cmdName with ⟨-, index2, -, hfind', -, hg⟩ | ⟨fault, -, hf⟩
    · cases hfind.symm.trans hfind'
      rw [hg.procs]
      exact (and_iff_left not_false).symm
    · cases hfind.symm.trans hf

theorem run_procs_eq_nil_iff {operations : List Operation}
    (hr : Run Operation.Step makeIndex operations index) :
    index.procs.table = [] ↔ ∀ operation ∈ operations, ¬ operation.ScansProc := by
  refine hr.history (J := fun l t => t.procs.table = [] ↔ ∀ operation ∈ l, ¬ operation.ScansProc)
    ⟨by simp, fun _ => rfl⟩ ?_
  intro l t operation u hrun ih hs
  rw [hs.procs_eq_nil_iff (reachable_wf hrun), ih]
  simp [or_imp, forall_and]

/-! ## The scopes and the parents -/

/-- The scopes agree with the parents of the procs exactly as long as no proc is registered. -/
theorem scopesAgree_iff {operations : List Operation}
    (h : Run Operation.Step makeIndex operations index) :
    index.ScopesAgree ↔ ∀ operation ∈ operations, ¬ operation.ScansProc := by
  have hwf := reachable_wf h
  have hzero := zeroScopes_kept.run h makeIndex_wf makeIndex_zeroScopes
  have hzero : ∀ ns n, index.namespaces.get ns = .ok n → ∀ id ∈ n.scope.procs,
      id = 0 ∧ index.procs.table ≠ [] := by
    intro ns n hn
    have hrow := RefRecord.get_eq_ok.mp hn
    exact hzero n (RefRecord.mem_of_row hrow)
  rw [← run_procs_eq_nil_iff h]
  constructor
  · intro hagree
    by_contra hne
    obtain ⟨p, hp⟩ := List.exists_mem_of_ne_nil _ hne
    obtain ⟨n, hn, -⟩ := get_namespace hwf.namespaces (hwf.parents p hp)
    have hmem := (hagree.owned p hp _ n hn).mpr rfl
    have hid : 1 ≤ p.id := (hwf.procs.id_valid hp).1
    have := (hzero _ n hn _ hmem).1
    omega
  · intro hnil
    refine ⟨?_, ?_, ?_⟩
    · intro p hp
      rw [hnil] at hp
      cases hp
    · intro p hp
      rw [hnil] at hp
      cases hp
    · intro ns n hn id hid
      exact absurd hnil (hzero ns n hn id hid).2

/-- `proc f {} {}`. -/
def emptyProc : Script :=
  { location := lineLocation 0
    commands := [⟨.PROC, [textWord 0 "proc", textWord 5 "f", listWord 7 "" [],
      scriptWord 10 "" []], []⟩] }

/-- The proc has the id 1 and the global namespace, whose scope holds 0. -/
theorem emptyProc_disagrees : ∃ result, buildNew emptyProc = .ok result ∧ ¬ result.index.ScopesAgree := by
  obtain ⟨result, h, htest⟩ := exists_of_returns (show returns (buildNew emptyProc) (fun result =>
    result.index.procs.table.map (fun p => (p.id, p.parentNamespace)) = [(1, 1)] ∧
      returns (result.index.namespaces.get 1) fun n => n.scope.procs = [0]) = true by decide +kernel)
  obtain ⟨hprocs, hscope⟩ := of_decide_eq_true htest
  obtain ⟨n, hn, hzero⟩ := exists_of_returns hscope
  refine ⟨result, h, fun hagree => ?_⟩
  have hone : (1, 1) ∈ result.index.procs.table.map fun p => (p.id, p.parentNamespace) := by
    rw [hprocs]
    exact List.mem_singleton_self _
  obtain ⟨p, hp, heq⟩ := List.mem_map.mp hone
  obtain ⟨hid, hparent⟩ := Prod.mk.inj heq
  have hmem := (hagree.owned p hp 1 n hn).mpr hparent
  rw [hid, of_decide_eq_true hzero] at hmem
  exact absurd hmem (by decide)

/-- Without a proc, the scopes agree. -/
theorem emptyProc_agrees_iff :
    (∃ index, Run Operation.Step makeIndex [.scanScript ⟨[1]⟩ emptyProc] index ∧
      (index.ScopesAgree ↔ ∀ operation ∈ [.scanScript ⟨[1]⟩ emptyProc],
        ¬ Operation.ScansProc operation)) ∧
    ∃ index, Run Operation.Step makeIndex [.findProc 1 (bytes "A::f")] index ∧
      index.namespaces.table.length = 2 ∧ index.ScopesAgree := by
  constructor
  · obtain ⟨index, h, -⟩ := exists_of_returns (show returns
      ((Operation.scanScript ⟨[1]⟩ emptyProc).perform makeIndex) (fun _ => true) = true by
      decide +kernel)
    have hrun : Run Operation.Step makeIndex [.scanScript ⟨[1]⟩ emptyProc] index :=
      .single ⟨⟨List.cons_ne_nil _ _, by simpa [Index.HasNamespace] using ⟨_, rfl⟩⟩, h⟩
    exact ⟨index, hrun, scopesAgree_iff hrun⟩
  · obtain ⟨index, h, htwo⟩ := exists_of_returns (show returns
      ((Operation.findProc 1 (bytes "A::f")).perform makeIndex)
      (fun index => index.namespaces.table.length = 2) = true by decide +kernel)
    have hrun : Run Operation.Step makeIndex [.findProc 1 (bytes "A::f")] index :=
      .single ⟨⟨_, rfl⟩, h⟩
    refine ⟨index, hrun, of_decide_eq_true htwo, (scopesAgree_iff hrun).mpr ?_⟩
    intro operation hoperation
    rw [List.mem_singleton.mp hoperation]
    exact id

end TclAnalyzer
