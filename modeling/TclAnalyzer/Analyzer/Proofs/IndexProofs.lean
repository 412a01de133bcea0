import TclAnalyzer.Analyzer.Proofs.ScanProofs

/-!
# `IndexScript` records the usages of the calls it reaches

The loop of `IndexScript` over the calls that it reaches: each is recorded in the namespace of its
scope. It registers no proc, and adds a usage for each `USER` call whose name means a proc there.
-/

namespace TclAnalyzer

/-- The proc that is selected for the call at a site. -/
def Index.selected (index : Index) (site : Site Path) : Option Proc :=
  if site.call.type = .USER then
    bestFitProcToCall (index.nearest site.scope (site.call.wordText 0)) site.call
  else none

/-- The reference that is recorded for the call at a site. -/
def Index.usageOf (index : Index) (site : Site Path) : Option Reference := do
  let p ← index.selected site
  let word ← site.call.words[0]?
  return { location := word.location, id := p.id, type := .USAGE }

/-- The namespaces in which the words of a call are entered exist. -/
def EntersExisting (index : Index) (site : Site Path) : Prop :=
  ∀ k path, indexPass.enter site.scope site.call k = some path → ∃ ns, index.atPath path = some ns

/-- A call that was reached, with the proc selected for it. -/
structure IndexedAt (index : Index) (visit : Visit) (site : Site Path) : Prop
    extends VisitAt index visit site where
  fit : visit.fit = (index.selected site).map Proc.id
  enters : EntersExisting index site
  parts : site.call.type = .USER →
    ∃ parts, (splitName (site.call.wordText 0)).namespaceParts = .ok parts
  procParts : site.call.type = .PROC →
    ∃ parts, (splitName (site.call.wordText 1)).namespaceParts = .ok parts

/-- What the turns at `sites` add to the state. -/
structure Indexed (st st' : PassState) (sites : List (Site Path)) : Prop where
  wf : st'.index.WF
  extended : st.index.Extends st'.index
  table : st'.index.procs.table = st.index.procs.table
  visits : ∃ visits, st'.visits = st.visits ++ visits ∧
    List.Forall₂ (IndexedAt st'.index) visits sites
  references : st'.index.procs.references =
    st.index.procs.references ++ sites.filterMap st'.index.usageOf

variable {index index' : Index}

/-! ## Selection -/

theorem Index.Extends.selected (hx : index.Extends index') (h : index.WF) (h' : index'.NamespacesWF)
    (ht : index'.procs.table = index.procs.table) (site : Site Path) :
    index'.selected site = index.selected site := by
  simp only [Index.selected, hx.nearest h h' ht]

theorem Index.Extends.usageOf (hx : index.Extends index') (h : index.WF) (h' : index'.NamespacesWF)
    (ht : index'.procs.table = index.procs.table) : index'.usageOf = index.usageOf := by
  funext site
  simp only [Index.usageOf, hx.selected h h' ht]

theorem bestFitFrom_mem {numArgs : Nat} {procs : List Proc} {bestFit : Option Proc} {p : Proc}
    (h : bestFitFrom numArgs bestFit procs = some p) : p ∈ procs ∨ bestFit = some p := by
  induction procs generalizing bestFit with
  | nil => exact Or.inr h
  | cons q procs ih =>
    have hq : ∀ best, best = some q ∨ best = bestFit → bestFitFrom numArgs best procs = some p →
        p ∈ q :: procs ∨ bestFit = some p := by
      rintro best (rfl | rfl) hb
      · rcases ih hb with hmem | heq
        · exact Or.inl (List.mem_cons_of_mem q hmem)
        · exact Or.inl (Option.some.inj heq ▸ List.mem_cons_self)
      · exact (ih hb).imp_left (List.mem_cons_of_mem q)
    rw [bestFitFrom] at h
    split at h
    · exact hq _ (Or.inl rfl) h
    · split at h
      · exact hq _ (Or.inr rfl) h
      · split at h
        · exact Or.inl (Option.some.inj h ▸ List.mem_cons_self)
        · split at h
          · exact hq _ (Or.inl rfl) h
          · split at h
            · exact hq _ (Or.inl rfl) h
            · exact hq _ (Or.inr rfl) h

theorem bestFitFrom_isSome (numArgs : Nat) (procs : List Proc) (p : Proc) :
    ∃ q, bestFitFrom numArgs (some p) procs = some q := by
  induction procs generalizing p with
  | nil => exact ⟨p, rfl⟩
  | cons q procs ih =>
    rw [bestFitFrom]
    split <;> first | exact ih _ | skip
    split <;> first | exact ih _ | skip
    split
    · exact ⟨q, rfl⟩
    · split <;> first | exact ih _ | skip
      split <;> exact ih _

/-- The proc selected is one of the candidates. -/
theorem bestFitProcToCall_mem {procs : List Proc} {call : Call} {p : Proc}
    (h : bestFitProcToCall procs call = some p) : p ∈ procs :=
  (bestFitFrom_mem h).resolve_right (by simp)

/-- A proc is selected whenever there are candidates. -/
theorem bestFitProcToCall_eq_none {procs : List Proc} {call : Call} :
    bestFitProcToCall procs call = none ↔ procs = [] := by
  cases procs with
  | nil => simp [bestFitProcToCall, bestFitFrom]
  | cons p procs =>
    obtain ⟨q, hq⟩ := bestFitFrom_isSome (call.words.length - 1) procs p
    simp [bestFitProcToCall, bestFitFrom, hq]

theorem selected_mem {site : Site Path} {p : Proc} (h : index.selected site = some p) :
    p ∈ index.procs.table := by
  unfold Index.selected at h
  split at h
  · exact nearest_subset _ _ _ p (bestFitProcToCall_mem h)
  · cases h

/-! ## Where words are entered -/

theorem EntersExisting.mono (hx : index.Extends index') (h : index.NamespacesWF) {site : Site Path}
    (he : EntersExisting index site) : EntersExisting index' site := by
  intro k path hk
  obtain ⟨ns, hns⟩ := he k path hk
  exact ⟨ns, hx.atPath h hns⟩

theorem entersExisting_same {site : Site Path} {ns : Nat} (hns : index.atPath site.scope = some ns)
    (hsame : ∀ k, indexPass.enter site.scope site.call k = some site.scope) :
    EntersExisting index site := by
  intro k path hk
  cases (hsame k).symm.trans hk
  exact ⟨ns, hns⟩

theorem entersExisting_body {site : Site Path} {body : Path} {ns : Nat}
    (hns : index.atPath body = some ns)
    (hbody : ∀ k, indexPass.enter site.scope site.call k = if k = 3 then some body else none) :
    EntersExisting index site := by
  intro k path hk
  rw [hbody] at hk
  split at hk
  · cases hk
    exact ⟨ns, hns⟩
  · cases hk

/-! ## Recording a usage -/

/-- A usage of a proc of the table keeps the invariant: it comes after the definition. -/
theorem addUsage_wf (h : index.WF) {location : SourceLocation} {p : Proc}
    (hp : p ∈ index.procs.table) : (addCommandReference index location p .USAGE).WF := by
  have hprocs : (addCommandReference index location p .USAGE).procs.WF := h.procs.addReference _
  refine ⟨⟨h.namespaces.table, h.namespaces.tree⟩, hprocs, h.parents, ?_, ?_⟩
  · intro r hr
    rcases List.mem_append.mp hr with hr | hr
    · exact h.referenced r hr
    · rw [List.mem_singleton.mp hr]
      exact h.procs.id_valid hp
  · intro q hq
    obtain ⟨loc, usages, hrefs, husages⟩ := h.definitions q hq
    rw [h.procs.refsOf_eq] at hrefs
    rw [hprocs.refsOf_eq]
    refine ⟨loc, usages ++ [{ location, id := p.id, type := .USAGE : Reference }].filter
      (fun x => x.id = q.id), ?_, ?_⟩
    · change List.filter _ (index.procs.references ++ _) = _
      rw [List.filter_append, hrefs, List.cons_append]
    · intro r hr
      rcases List.mem_append.mp hr with hr | hr
      · exact husages r hr
      · rw [List.mem_singleton.mp (List.mem_filter.mp hr).1]

/-- The `USER` case. -/
theorem indexUsage_ok (h : index.WF) (site : Site Path) {ns : Nat}
    (hns : index.atPath site.scope = some ns) (hu : site.call.type = .USER) {fit : Option Nat}
    (hrun : indexUsage index ns site.call = .ok (fit, index')) :
    index'.WF ∧ index.Extends index' ∧ index'.procs.table = index.procs.table ∧
      fit = (index.selected site).map Proc.id ∧
      index'.procs.references = index.procs.references ++ (index.usageOf site).toList ∧
      ∃ parts, (splitName (site.call.wordText 0)).namespaceParts = .ok parts := by
  obtain ⟨word, hword, hrun⟩ := bind_eq_ok.mp hrun
  obtain ⟨⟨procs, index1⟩, hfind, hrun⟩ := bind_eq_ok.mp hrun
  rcases findProc_spec h hns word.text.bytes with
    ⟨parts, index1', hparts, hfind', hwf1, hg1⟩ | ⟨fault, -, hfind'⟩
  · cases hfind.symm.trans hfind'
    have h1 := hg1.wf h hwf1
    have hget := nth_eq_ok.mp hword
    have hsel : index.selected site =
        bestFitProcToCall (index.nearest site.scope word.text.bytes) site.call := by
      rw [Index.selected, if_pos hu, wordText_eq hget]
    have husage : index.usageOf site = (index.selected site).map fun p =>
        { location := word.location, id := p.id, type := .USAGE } := by
      unfold Index.usageOf
      cases index.selected site <;> simp [hget]
    rw [husage, hsel, wordText_eq hget]
    cases hbest : bestFitProcToCall (index.nearest site.scope word.text.bytes) site.call with
    | none =>
      simp only [hbest] at hrun
      cases hrun
      exact ⟨h1, hg1.toExtends, by rw [hg1.procs], rfl, by simp [hg1.procs], parts, hparts⟩
    | some p =>
      simp only [hbest] at hrun
      cases hrun
      have hp : p ∈ index1.procs.table := by
        rw [hg1.procs]
        exact nearest_subset _ _ _ p (bestFitProcToCall_mem hbest)
      exact ⟨addUsage_wf h1 hp, ⟨hg1.tree, hg1.global⟩,
        by simp [addCommandReference, RefRecord.addReference, hg1.procs], rfl,
        by simp [addCommandReference, RefRecord.addReference, hg1.procs], parts, hparts⟩
  · cases hfind.symm.trans hfind'

/-! ## Composing parts of a run -/

theorem Indexed.nil {st : PassState} (h : st.index.WF) : Indexed st st [] where
  wf := h
  extended := .refl _
  table := rfl
  visits := ⟨[], by simp, .nil⟩
  references := by simp

theorem Indexed.append {st st1 st2 : PassState} {sites sites' : List (Site Path)}
    (h1 : Indexed st st1 sites) (h2 : Indexed st1 st2 sites') :
    Indexed st st2 (sites ++ sites') := by
  obtain ⟨visits, hv, hsites⟩ := h1.visits
  obtain ⟨visits', hv', hsites'⟩ := h2.visits
  have hx := h2.extended
  have hns := h2.wf.namespaces
  refine ⟨h2.wf, h1.extended.trans hx, h2.table.trans h1.table,
    ⟨visits ++ visits', by simp [hv', hv], List.rel_append (hsites.imp ?_) hsites'⟩, ?_⟩
  · rintro visit site ⟨hat, hfit, henters, hparts, hproc⟩
    exact ⟨hat.mono hx h1.wf.namespaces, by rw [hfit, hx.selected h1.wf hns h2.table],
      henters.mono hx h1.wf.namespaces, hparts, hproc⟩
  · rw [h2.references, h1.references, hx.usageOf h1.wf hns h2.table, List.filterMap_append,
      List.append_assoc]

/-- Reaching a call that is no `USER` call. -/
theorem Indexed.visit {st : PassState} (h : st.index.WF) {index' : Index} (h' : index'.NamespacesWF)
    (hg : st.index.Grows index') (site : Site Path) {ns : Nat}
    (hns : st.index.atPath site.scope = some ns) (huser : site.call.type ≠ .USER)
    (henters : EntersExisting index' site)
    (hproc : site.call.type = .PROC →
      ∃ parts, (splitName (site.call.wordText 1)).namespaceParts = .ok parts) :
    Indexed st { index := index', visits := st.visits ++
      [{ pos := site.pos, call := site.call, ns, fit := none }] } [site] := by
  have hsel : index'.selected site = none := if_neg huser
  exact ⟨hg.wf h h', hg.toExtends, by simp [hg.procs],
    ⟨_, rfl, .cons ⟨⟨rfl, rfl, hg.toExtends.atPath h.namespaces hns⟩, by simp [hsel],
      henters, fun hu => absurd hu huser, hproc⟩ .nil⟩,
    by simp [Index.usageOf, hsel, hg.procs]⟩

/-- Reaching a `USER` call. -/
theorem Indexed.visitUser {st : PassState} (h : st.index.WF) {index' : Index} (site : Site Path)
    {ns : Nat} {fit : Option Nat} (hns : st.index.atPath site.scope = some ns)
    (huser : site.call.type = .USER)
    (hrun : indexUsage st.index ns site.call = .ok (fit, index')) :
    Indexed st { index := index', visits := st.visits ++
      [{ pos := site.pos, call := site.call, ns, fit }] } [site] := by
  obtain ⟨h', hx, ht, hfit, hrefs, hparts⟩ := indexUsage_ok h site hns huser hrun
  have hns' := hx.atPath h.namespaces hns
  refine ⟨h', hx, ht, ⟨_, rfl, .cons ⟨⟨rfl, rfl, hns'⟩, ?_, ?_, fun _ => hparts,
    fun hproc => by simp [huser] at hproc⟩ .nil⟩, ?_⟩
  · rw [hfit, hx.selected h h'.namespaces ht]
  · exact entersExisting_same hns' fun k => by simp [indexPass, huser]
  · rw [hrefs, hx.usageOf h h'.namespaces ht]
    cases hu : st.index.usageOf site <;> simp [hu]

/-! ## The loop -/

section Loop

variable {st st' : PassState} {site : Site Path} {sites : List (Site Path)}

theorem indexVisit_ok (h : st.index.WF) (hs : indexVisit st site = .ok st') : Indexed st st' [site] := by
  unfold indexVisit indexAt at hs
  cases hns : st.index.atPath site.scope with
  | none =>
    rw [hns] at hs
    cases hs
  | some ns =>
    simp only [hns] at hs
    cases htype : site.call.type with
    | NAMESPACE_EVAL =>
      simp only [htype] at hs
      obtain ⟨index', hat, hs⟩ := bind_eq_ok.mp hs
      cases hs
      obtain ⟨word, hword, hat⟩ := bind_eq_ok.mp hat
      obtain ⟨⟨resolved, index'⟩, hres, hat⟩ := bind_eq_ok.mp hat
      cases hat
      obtain ⟨hpath, hwf, hg⟩ :=
        resolveNamespace_eval h.namespaces hns site.call (nth_eq_ok.mp hword) hres
      exact Indexed.visit h hwf hg site hns (by simp [htype])
        (entersExisting_body hpath fun k => by simp only [indexPass, htype]) (by simp [htype])
    | PROC =>
      simp only [htype] at hs
      obtain ⟨index', hat, hs⟩ := bind_eq_ok.mp hs
      cases hs
      obtain ⟨word, hword, hat⟩ := bind_eq_ok.mp hat
      obtain ⟨⟨resolved, index'⟩, hres, hat⟩ := bind_eq_ok.mp hat
      cases hat
      obtain ⟨hpath, hwf, hg, hproc⟩ :=
        resolveNamespace_proc h.namespaces hns site.call (nth_eq_ok.mp hword) hres
      exact Indexed.visit h hwf hg site hns (by simp [htype])
        (entersExisting_body hpath fun k => by simp only [indexPass, htype]) fun _ => hproc
    | USER =>
      simp only [htype] at hs
      obtain ⟨⟨fit, index'⟩, hu, hs⟩ := bind_eq_ok.mp hs
      cases hs
      exact Indexed.visitUser h site hns htype hu
    | WHILE | FOR | FOREACH | IF =>
      simp only [htype] at hs
      cases hs
      exact Indexed.visit h h.namespaces (.refl _) site hns (by simp [htype])
        (entersExisting_same hns fun k => by simp only [indexPass, htype]) (by simp [htype])

theorem indexTurns : Turns indexPass indexVisit where
  wf h hs := (indexVisit_ok h hs).wf
  extended h hs := (indexVisit_ok h hs).extended
  enters h hs := by
    obtain ⟨visits, -, hvisits⟩ := (indexVisit_ok h hs).visits
    obtain ⟨visit, -, hat⟩ := mem_of_forall₂_right hvisits (List.mem_singleton_self _)
    exact hat.enters

theorem indexVisits_ok (h : st.index.WF) (hs : sites.foldlM indexVisit st = .ok st') :
    Indexed st st' sites := by
  induction sites generalizing st with
  | nil =>
    cases hs
    exact .nil h
  | cons site sites ih =>
    rw [List.foldlM_cons] at hs
    obtain ⟨st1, hvisit, hs⟩ := bind_eq_ok.mp hs
    have hsite := indexVisit_ok h hvisit
    exact hsite.append (ih hsite.wf hs)

end Loop

end TclAnalyzer
