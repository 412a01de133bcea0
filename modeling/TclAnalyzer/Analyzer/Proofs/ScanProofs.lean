import Mathlib.Data.List.Forall2
import TclAnalyzer.Analyzer.Proofs.TurnsProofs

/-!
# `ScanScript` registers the procs of the calls it reaches

The loop of `ScanScript` over the calls that it reaches: each is recorded in the namespace of its
scope, and a proc is registered for each `proc` command among them.
-/

namespace TclAnalyzer

/-- The namespace on top of `nsPath` is the one at `path`. -/
def ScanContext.At (context : ScanContext) (index : Index) (path : Path) : Prop :=
  ∃ top rest, context.nsPath = top :: rest ∧ index.atPath path = some top

/-- A call that was reached is the one at this site, in the namespace of its scope. -/
structure VisitAt (index : Index) (visit : Visit) (site : Site Path) : Prop where
  pos : visit.pos = site.pos
  call : visit.call = site.call
  ns : index.atPath site.scope = some visit.ns

/-- The namespaces in which `ScanScript` enters the words of a call exist. -/
def ScansExisting (index : Index) (site : Site Path) : Prop :=
  ∀ k path, scanPass.enter site.scope site.call k = some path → ∃ ns, index.atPath path = some ns

/-- What the turns at `sites` add to the state. -/
structure Scanned (st st' : PassState) (sites : List (Site Path)) : Prop where
  wf : st'.index.WF
  extended : st.index.Extends st'.index
  visits : ∃ visits, st'.visits = st.visits ++ visits ∧
    List.Forall₂ (VisitAt st'.index) visits sites
  enters : ∀ site ∈ sites, ScansExisting st'.index site
  procs : ∃ regs : List (Proc × SourceLocation),
    List.Forall₂ (Registers st'.index) regs (procSites sites) ∧
    st'.index.procs.table = st.index.procs.table ++ regs.map Prod.fst ∧
    st'.index.procs.references = st.index.procs.references ++ regs.map definitionOf

variable {index index' : Index}

theorem VisitAt.mono (hx : index.Extends index') (h : index.NamespacesWF) {visit : Visit}
    {site : Site Path} (hv : VisitAt index visit site) : VisitAt index' visit site :=
  ⟨hv.pos, hv.call, hx.atPath h hv.ns⟩

theorem ScansExisting.mono (hx : index.Extends index') (h : index.NamespacesWF) {site : Site Path}
    (hs : ScansExisting index site) : ScansExisting index' site := by
  intro k path henter
  obtain ⟨ns, hns⟩ := hs k path henter
  exact ⟨ns, hx.atPath h hns⟩

theorem ScanContext.At.mono {context : ScanContext} {path : Path} (hc : context.At index path)
    (hx : index.Extends index') (h : index.NamespacesWF) : context.At index' path := by
  obtain ⟨top, rest, hns, htop⟩ := hc
  exact ⟨top, rest, hns, hx.atPath h htop⟩

theorem ScanContext.At.push {context : ScanContext} {path : Path} {ns : Nat}
    (h : index.atPath path = some ns) : (context.push ns).At index path :=
  ⟨ns, context.nsPath, rfl, h⟩

theorem ScanContext.At.hasPath {context : ScanContext} {path : Path} (hc : context.At index path) :
    index.HasPath path := by
  obtain ⟨top, -, -, htop⟩ := hc
  exact ⟨top, htop⟩

theorem ScanContext.At.current {context : ScanContext} {path : Path} (hc : context.At index path)
    (h : index.NamespacesWF) :
    ∃ ns, context.current index = .ok ns ∧ index.atPath path = some ns.id := by
  obtain ⟨top, rest, hns, htop⟩ := hc
  obtain ⟨n, hget, hid, -⟩ := get_namespace h (Index.atPath_valid h htop)
  exact ⟨n, by simp [ScanContext.current, hns, nth, hget], hid ▸ htop⟩

/-- The name built for `namespace eval` resolves to the path both passes enter. -/
theorem resolveNamespace_eval (h : index.NamespacesWF) {path : Path} {ns : Nat}
    (hns : index.atPath path = some ns) (call : Call) {word : Word}
    (hword : call.words[2]? = some word) {res : Nat × Index}
    (hres : resolveNamespace index (namespaceEvalName word) ns = .ok res) :
    res.2.atPath (evalPath path call) = some res.1 ∧ res.2.NamespacesWF ∧ index.Grows res.2 := by
  have hparts : (namespaceEvalName word).namespaceParts = .ok (splitPath word.text.bytes) := rfl
  rcases resolveNamespace_spec h (namespaceEvalName word) hns with
    ⟨parts, ns', index', hok, hres', hpath, hwf, hg⟩ | ⟨fault, hf, -⟩
  · cases hres.symm.trans hres'
    cases hparts.symm.trans hok
    refine ⟨?_, hwf, hg⟩
    simpa [evalPath, wordText_eq hword, QualifiedName.targetPath, namespaceEvalName] using hpath
  · cases hparts.symm.trans hf

/-- The name of a proc resolves to the namespace in which it is registered. -/
theorem resolveNamespace_proc (h : index.NamespacesWF) {path : Path} {ns : Nat}
    (hns : index.atPath path = some ns) (call : Call) {word : Word}
    (hword : call.words[1]? = some word) {res : Nat × Index}
    (hres : resolveNamespace index (splitName word.text.bytes) ns = .ok res) :
    res.2.atPath (procPath path call) = some res.1 ∧ res.2.NamespacesWF ∧ index.Grows res.2 ∧
      ∃ parts, (splitName (call.wordText 1)).namespaceParts = .ok parts := by
  rcases resolveNamespace_spec h (splitName word.text.bytes) hns with
    ⟨parts, ns', index', hok, hres', hpath, hwf, hg⟩ | ⟨fault, -, hf⟩
  · cases hres.symm.trans hres'
    refine ⟨?_, hwf, hg, parts, by rwa [wordText_eq hword]⟩
    rwa [procPath, wordText_eq hword, resolveFrom_eq hok]
  · cases hres.symm.trans hf

/-! ## Composing parts of a scan -/

theorem Scanned.nil {st : PassState} (h : st.index.WF) : Scanned st st [] where
  wf := h
  extended := .refl _
  visits := ⟨[], by simp, .nil⟩
  enters := by simp
  procs := ⟨[], .nil, by simp, by simp⟩

theorem Scanned.append {st st1 st2 : PassState} {sites sites' : List (Site Path)}
    (h1 : Scanned st st1 sites) (h2 : Scanned st1 st2 sites') :
    Scanned st st2 (sites ++ sites') := by
  obtain ⟨visits, hv, hsites⟩ := h1.visits
  obtain ⟨visits', hv', hsites'⟩ := h2.visits
  obtain ⟨regs, hregs, ht, hr⟩ := h1.procs
  obtain ⟨regs', hregs', ht', hr'⟩ := h2.procs
  have hns := h1.wf.namespaces
  refine ⟨h2.wf, h1.extended.trans h2.extended, ⟨visits ++ visits', by simp [hv', hv], ?_⟩, ?_,
    ⟨regs ++ regs', ?_, by simp [ht', ht], by simp [hr', hr]⟩⟩
  · exact List.rel_append (hsites.imp fun _ _ => VisitAt.mono h2.extended hns) hsites'
  · intro site hsite
    rcases List.mem_append.mp hsite with hsite | hsite
    · exact (h1.enters site hsite).mono h2.extended hns
    · exact h2.enters site hsite
  · rw [procSites, List.filter_append]
    exact List.rel_append (hregs.imp fun _ _ => Registers.mono h2.extended hns) hregs'

/-- Reaching a call that registers nothing. -/
theorem Scanned.visit {st : PassState} (h : st.index.WF) {index' : Index} (h' : index'.NamespacesWF)
    (hg : st.index.Grows index') (site : Site Path) {ns : Nat}
    (hns : st.index.atPath site.scope = some ns) (hproc : site.call.type ≠ .PROC)
    (henters : ScansExisting index' site) : Scanned st { index := index', visits := st.visits ++
      [{ pos := site.pos, call := site.call, ns, fit := none }] } [site] where
  wf := hg.wf h h'
  extended := hg.toExtends
  visits := ⟨_, rfl, .cons ⟨rfl, rfl, hg.toExtends.atPath h.namespaces hns⟩ .nil⟩
  enters := by
    rintro _ (_ | ⟨_, ⟨⟩⟩)
    exact henters
  procs := ⟨[], by simp [procSites, hproc], by simp [hg.procs], by simp [hg.procs]⟩

/-- Reaching a `proc` command. -/
theorem Scanned.visitProc {st : PassState} (h : st.index.WF) {index' : Index} (site : Site Path)
    {ns : Nat} (hns : st.index.atPath site.scope = some ns) (hproc : site.call.type = .PROC)
    (hadd : addProcToIndex st.index ns site.call.words = .ok index') :
    Scanned st { index := index', visits := st.visits ++
      [{ pos := site.pos, call := site.call, ns, fit := none }] } [site] := by
  obtain ⟨h', hx, reg, hreg, -, ht, hr⟩ := addProcToIndex_ok h site hns hadd
  have hns' := hx.atPath h.namespaces hns
  refine ⟨h', hx, ⟨_, rfl, .cons ⟨rfl, rfl, hns'⟩ .nil⟩, ?_,
    ⟨[reg], ?_, by simpa using ht, by simpa using hr⟩⟩
  · rintro _ (_ | ⟨_, ⟨⟩⟩) k path henter
    simp only [scanPass, hproc, Option.some.injEq] at henter
    exact ⟨ns, henter ▸ hns'⟩
  · simpa [procSites, hproc] using hreg

/-! ## The loop -/

section Loop

variable {st st' : PassState} {site : Site Path} {sites : List (Site Path)}

theorem scanVisit_ok (h : st.index.WF) (hs : scanVisit st site = .ok st') : Scanned st st' [site] := by
  unfold scanVisit scanAt at hs
  cases hns : st.index.atPath site.scope with
  | none =>
    rw [hns] at hs
    cases hs
  | some ns =>
    simp only [hns] at hs
    obtain ⟨index', hat, hs⟩ := bind_eq_ok.mp hs
    cases hs
    cases htype : site.call.type with
    | NAMESPACE_EVAL =>
      rw [htype] at hat
      obtain ⟨word, hword, hat⟩ := bind_eq_ok.mp hat
      obtain ⟨⟨resolved, index'⟩, hres, hat⟩ := bind_eq_ok.mp hat
      cases hat
      obtain ⟨hpath, hwf, hg⟩ :=
        resolveNamespace_eval h.namespaces hns site.call (nth_eq_ok.mp hword) hres
      refine Scanned.visit h hwf hg site hns (by simp [htype]) fun k path henter => ?_
      simp only [scanPass, htype] at henter
      split at henter
      · cases henter
        exact ⟨resolved, hpath⟩
      · cases henter
    | PROC =>
      rw [htype] at hat
      exact Scanned.visitProc h site hns htype hat
    | WHILE | FOR | FOREACH | IF | USER =>
      rw [htype] at hat
      cases hat
      refine Scanned.visit h h.namespaces (.refl _) site hns (by simp [htype]) fun k path henter => ?_
      simp only [scanPass, htype, Option.some.injEq] at henter
      exact ⟨ns, henter ▸ hns⟩

theorem scanTurns : Turns scanPass scanVisit where
  wf h hs := (scanVisit_ok h hs).wf
  extended h hs := (scanVisit_ok h hs).extended
  enters h hs := (scanVisit_ok h hs).enters _ (List.mem_singleton_self _)

theorem scanVisits_ok (h : st.index.WF) (hs : sites.foldlM scanVisit st = .ok st') :
    Scanned st st' sites := by
  induction sites generalizing st with
  | nil =>
    cases hs
    exact .nil h
  | cons site sites ih =>
    rw [List.foldlM_cons] at hs
    obtain ⟨st1, hvisit, hs⟩ := bind_eq_ok.mp hs
    have hsite := scanVisit_ok h hvisit
    exact hsite.append (ih hsite.wf hs)

end Loop

end TclAnalyzer
