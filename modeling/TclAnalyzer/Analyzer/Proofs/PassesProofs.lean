import TclAnalyzer.Analyzer.Samples
import TclAnalyzer.Analyzer.Proofs.BuildProofs
import TclAnalyzer.Analyzer.Proofs.NameProofs

/-!
# The two passes and the namespace they are in

`IndexScript` pushes the namespace of a proc for its body and `ScanScript` does not, so that the two
agree on a call unless it is in the body of a proc that is defined into another namespace.
-/

namespace TclAnalyzer

/-- A proc stays in the namespace of its command exactly when its name says so. -/
theorem procPath_eq_self {path : Path} {call : Call} {parts : List Str}
    (hparts : (splitName (call.wordText 1)).namespaceParts = .ok parts) :
    procPath path call = path ↔ call.namesProcIn path := by
  rw [procPath, resolveFrom_eq hparts, QualifiedName.targetPath, Call.namesProcIn]
  by_cases habs : (splitName (call.wordText 1)).absolute
  · simp [habs, hparts]
  · have hns : (splitName (call.wordText 1)).ns = none ↔ parts = [] := by
      cases hn : (splitName (call.wordText 1)).ns with
      | none =>
        rw [QualifiedName.namespaceParts, hn] at hparts
        cases hparts
        simp
      | some ns =>
        rw [QualifiedName.namespaceParts, hn] at hparts
        simp only [habs, Bool.false_eq_true, false_and, if_false] at hparts
        cases hparts
        simp [splitPath, splitPathFrom_ne_nil]
    simp [habs, hns]

variable {script : Script} {result : BuildResult}

theorem Pass.Steady.prod {σ τ : Type} {p : Pass σ} {q : Pass τ} (hp : p.Steady) (hq : q.Steady) :
    (p.prod q).Steady := by
  rintro scope type scope' h
  obtain ⟨a, b, ha, hb, rfl⟩ := Option.map₂_eq_some_iff.mp h
  rw [hp _ _ _ ha, hq _ _ _ hb]

/-- Calls that both passes reach at one position are a site of both. -/
theorem mem_bothSites {s t : Site Path} (hs : s ∈ script.scanSites) (ht : t ∈ script.indexSites)
    (hpos : s.pos = t.pos) : ⟨s.pos, s.call, (s.scope, t.scope)⟩ ∈ script.bothSites :=
  mem_sitesScript.mpr (Reaches.join (mem_sitesScript.mp hs) (mem_sitesScript.mp ht) hpos).2

theorem proj_bothSites {site : Site (Path × Path)} (h : site ∈ script.bothSites) :
    ⟨site.pos, site.call, site.scope.1⟩ ∈ script.scanSites ∧
      ⟨site.pos, site.call, site.scope.2⟩ ∈ script.indexSites :=
  have hr := Reaches.proj (mem_sitesScript.mp h)
  ⟨mem_sitesScript.mpr hr.1, mem_sitesScript.mpr hr.2⟩

/-- The namespaces that `Build` had on top are the same exactly when the paths are. -/
theorem Built.same_ns_iff (h : Built script result) :
    (∀ v ∈ result.scanned, ∀ w ∈ result.indexed, v.pos = w.pos → v.ns = w.ns) ↔
      ∀ site ∈ script.bothSites, site.scope.1 = site.scope.2 := by
  have hwf := h.wf.namespaces
  constructor
  · intro hall site hsite
    obtain ⟨h1, h2⟩ := proj_bothSites hsite
    obtain ⟨v, hv, hvat⟩ := mem_of_forall₂_right h.scanned h1
    obtain ⟨w, hw, hwat⟩ := mem_of_forall₂_right h.indexed h2
    have hns := hall v hv w hw (hvat.pos.trans hwat.pos.symm)
    exact Index.atPath_injective hwf hvat.ns (hns ▸ hwat.ns)
  · intro hall v hv w hw hpos
    obtain ⟨s, hs, hvat⟩ := mem_of_forall₂_left h.scanned hv
    obtain ⟨t, ht, hwat⟩ := mem_of_forall₂_left h.indexed hw
    have hscope : s.scope = t.scope :=
      hall _ (mem_bothSites hs ht (hvat.pos.symm.trans (hpos.trans hwat.pos)))
    have hns := hvat.ns
    rw [hscope, hwat.ns] at hns
    exact (Option.some.inj hns).symm

/-- Of the words that both passes enter, only the body of a proc can set them apart. -/
theorem enter_both {path : Path} {call : Call} {k : Nat} {scope : Path × Path}
    (h : (scanPass.prod indexPass).enter (path, path) call k = some scope) :
    scope.1 = scope.2 ∨ call.type = .PROC ∧ k = 3 ∧ scope = (path, procPath path call) := by
  obtain ⟨a, b, ha, hb, rfl⟩ := Option.map₂_eq_some_iff.mp h
  unfold scanPass at ha
  unfold indexPass at hb
  dsimp only at ha hb
  cases htype : call.type <;> rw [htype] at ha hb <;> simp_all

/-- The two passes agree on the namespace of every call that both reach exactly when every proc with
such a call in its body is defined into the namespace its command is in. -/
theorem scanScript_indexScript_ns_iff (h : buildNew script = .ok result) :
    (∀ v ∈ result.scanned, ∀ w ∈ result.indexed, v.pos = w.pos → v.ns = w.ns) ↔
      ∀ site ∈ script.bothSites, site.call.type = .PROC →
        site.inWord (scanPass.prod indexPass) 3 ≠ [] → site.call.namesProcIn site.scope.1 := by
  have hb := buildNew_ok h
  have hparts : ∀ site ∈ script.bothSites, site.call.type = .PROC →
      ∃ parts, (splitName (site.call.wordText 1)).namespaceParts = .ok parts := by
    intro site hsite hproc
    obtain ⟨regs, hregs, -⟩ := hb.procs
    obtain ⟨reg, -, hr⟩ := mem_of_forall₂_right hregs
      (List.mem_filter.mpr ⟨(proj_bothSites hsite).1, by simpa using hproc⟩)
    exact hr.parts
  have hsites := forall_scope_iff (scanPass_steady.prod indexPass_steady)
    (fun scope => scope.1 = scope.2) ([], []) rfl [] script
  rw [hb.same_ns_iff]
  constructor
  · intro hall site hsite hproc hne
    obtain ⟨parts, hp⟩ := hparts site hsite hproc
    have hbody : site.scope.1 = procPath site.scope.2 site.call :=
      hsites.mp hall site hsite 3 (site.scope.1, procPath site.scope.2 site.call) (hall site hsite)
        hne (by simp [Pass.prod, scanPass, indexPass, hproc])
    rw [← hall site hsite] at hbody
    exact (procPath_eq_self hp).mp hbody.symm
  · intro hall
    refine hsites.mpr fun site hsite k scope' heq hne he => ?_
    have he' := he
    rw [show site.scope = (site.scope.1, site.scope.1) from Prod.ext rfl heq.symm] at he'
    rcases enter_both he' with hsame | ⟨hproc, rfl, rfl⟩
    · exact hsame
    · obtain ⟨parts, hp⟩ := hparts site hsite hproc
      exact ((procPath_eq_self hp).mpr (hall site hsite hproc hne)).symm

/-- `proc A::f {} {g}`, with the body in the namespace `::A`. -/
def qualifiedProc : Script :=
  { location := lineLocation 0
    commands := [⟨.PROC, [textWord 0 "proc", textWord 5 "A::f", listWord 10 "" [],
      scriptWord 14 "g" [⟨.USER, [textWord 14 "g"], bytes "::A"⟩]], []⟩] }

/-- `ScanScript` reaches the body of this proc in the global namespace, `IndexScript` in `A`. -/
theorem qualifiedProc_ns_differs : ∃ result, buildNew qualifiedProc = .ok result ∧
    ∃ v ∈ result.scanned, ∃ w ∈ result.indexed, v.pos = w.pos ∧ v.ns ≠ w.ns := by
  obtain ⟨result, h, htest⟩ := exists_of_returns (show returns (buildNew qualifiedProc) (fun result =>
    result.scanned.any fun v => result.indexed.any fun w => v.pos = w.pos ∧ v.ns ≠ w.ns) = true by
    decide +kernel)
  simp only [List.any_eq_true, decide_eq_true_eq] at htest
  exact ⟨result, h, htest⟩

/-- `proc f {} {g}`. -/
def plainProc : Script :=
  { location := lineLocation 0
    commands := [⟨.PROC, [textWord 0 "proc", textWord 5 "f", listWord 7 "" [],
      scriptWord 11 "g" [⟨.USER, [textWord 11 "g"], []⟩]], []⟩] }

/-- The body of a proc without a namespace is reached in the same one. -/
theorem qualifiedProc_ns_iff :
    (∃ result, buildNew qualifiedProc = .ok result ∧
      ((∀ v ∈ result.scanned, ∀ w ∈ result.indexed, v.pos = w.pos → v.ns = w.ns) ↔
        ∀ site ∈ qualifiedProc.bothSites, site.call.type = .PROC →
          site.inWord (scanPass.prod indexPass) 3 ≠ [] → site.call.namesProcIn site.scope.1)) ∧
    ∃ result, buildNew plainProc = .ok result ∧ result.indexed.length = 2 ∧
      ∀ v ∈ result.scanned, ∀ w ∈ result.indexed, v.pos = w.pos → v.ns = w.ns := by
  constructor
  · obtain ⟨result, h, -⟩ := exists_of_returns
      (show returns (buildNew qualifiedProc) (fun _ => true) = true by decide +kernel)
    exact ⟨result, h, scanScript_indexScript_ns_iff h⟩
  · obtain ⟨result, h, htwo⟩ := exists_of_returns (show returns (buildNew plainProc) (fun result =>
      result.indexed.length = 2) = true by decide +kernel)
    refine ⟨result, h, of_decide_eq_true htwo, ?_⟩
    exact (scanScript_indexScript_ns_iff h).mpr (by decide +kernel)

end TclAnalyzer
