import TclAnalyzer.Analyzer.Proofs.FlatProofs

/-!
# What `Build` leaves behind

The index of a script that `Build` completes on, in terms of the calls that its two passes reach.
-/

namespace TclAnalyzer

/-- The result of `Build` on a new index. -/
structure Built (script : Script) (result : BuildResult) : Prop where
  wf : result.index.WF
  scanned : List.Forall₂ (VisitAt result.index) result.scanned script.scanSites
  scans : ∀ site ∈ script.scanSites, ScansExisting result.index site
  indexed : List.Forall₂ (IndexedAt result.index) result.indexed script.indexSites
  procs : ∃ regs : List (Proc × SourceLocation),
    List.Forall₂ (Registers result.index) regs (procSites script.scanSites) ∧
    result.index.procs.table = regs.map Prod.fst ∧
    result.index.procs.references =
      regs.map definitionOf ++ script.indexSites.filterMap result.index.usageOf

variable {script : Script} {result : BuildResult}

/-! ## The new index -/

theorem makeIndex_tree : makeIndex.tree.size = 1 ∧ makeIndex.tree.parent 1 = none ∧
    makeIndex.tree.children 1 = [] := ⟨rfl, rfl, rfl⟩

theorem makeIndex_wf : makeIndex.WF where
  namespaces :=
    { table := RefRecord.wf_empty.insert _
      tree := by
        obtain ⟨hsize, hparent, hchildren⟩ := makeIndex_tree
        have hone : ∀ i, makeIndex.tree.Valid i → i = 1 := by
          intro i hi
          have h1 := hi.1
          have h2 := hi.2
          omega
        refine
          { root_valid := ⟨le_rfl, hsize.ge⟩
            root_parent := hparent
            parent_lt := fun i hi hne => absurd (hone i hi) hne
            mem_children := fun p i hp => ?_
            nodup := fun p hp => ?_
            names := fun p i j hp hi => ?_ }
        · obtain rfl := hone p hp
          refine ⟨fun hi => by simp [hchildren] at hi, fun ⟨hi, hpar⟩ => ?_⟩
          obtain rfl := hone i hi
          simp [hparent] at hpar
        · obtain rfl := hone p hp
          simp [hchildren]
        · obtain rfl := hone p hp
          simp [hchildren] at hi }
  procs := RefRecord.wf_empty
  parents := by simp [makeIndex, RefRecord.empty]
  referenced := by simp [makeIndex, RefRecord.empty]
  definitions := by simp [makeIndex, RefRecord.empty]

theorem makeIndex_at : ScanContext.At { nsPath := [makeIndex.globalNamespaceId] } makeIndex [] :=
  ⟨_, [], rfl, rfl⟩

/-! ## `Build` -/

theorem buildNew_ok (h : buildNew script = .ok result) : Built script result := by
  obtain ⟨scan, hscan, h⟩ := bind_eq_ok.mp h
  obtain ⟨indexed, hindex, h⟩ := bind_eq_ok.mp h
  cases h
  have hs := scanScript_ok makeIndex_wf makeIndex_at hscan
  have hstart : ({ index := scan.index, visits := [] } : PassState).index.WF := hs.wf
  have hi := indexScript_ok hstart (makeIndex_at.mono hs.extended makeIndex_wf.namespaces) hindex
  have hns := hs.wf.namespaces
  obtain ⟨scanned, hv, hscanned⟩ := hs.visits
  obtain ⟨visits, hv', hvisits⟩ := hi.visits
  obtain ⟨regs, hregs, ht, hr⟩ := hs.procs
  have hscans : ∀ site ∈ script.scanSites, ScansExisting indexed.index site := by
    intro site hsite
    exact (hs.enters site hsite).mono hi.extended hns
  refine ⟨hi.wf, ?_, hscans, ?_, regs, ?_, ?_, ?_⟩
  · simp only [hv, List.nil_append]
    exact hscanned.imp fun _ _ => VisitAt.mono hi.extended hns
  · simp only [hv', List.nil_append]
    exact hvisits
  · exact hregs.imp fun _ _ => Registers.mono hi.extended hns
  · rw [hi.table, ht]
    rfl
  · rw [hi.references, hr]
    rfl

theorem scanVisit_index {st st' : PassState} {site : Site Path} (h : scanVisit st site = .ok st') :
    scanAt st.index site = .ok st'.index := by
  unfold scanVisit at h
  split at h
  · cases h
  · obtain ⟨index, hat, h⟩ := bind_eq_ok.mp h
    cases h
    exact hat

theorem indexVisit_index {st st' : PassState} {site : Site Path} (h : indexVisit st site = .ok st') :
    indexAt st.index site = .ok st'.index := by
  unfold indexVisit at h
  split at h
  · cases h
  · next ns hns =>
    dsimp only at h
    split at h
    · next huser =>
      obtain ⟨⟨fit, index⟩, hu, h⟩ := bind_eq_ok.mp h
      cases h
      unfold indexAt
      simp only [hns, huser, hu]
      rfl
    · obtain ⟨index, hat, h⟩ := bind_eq_ok.mp h
      cases h
      exact hat

/-- `Build` makes the index that the two loops make. -/
theorem buildFlat_of_buildNew (h : buildNew script = .ok result) :
    script.buildFlat = .ok result.index := by
  obtain ⟨scan, hscan, h⟩ := bind_eq_ok.mp h
  obtain ⟨indexed, hindex, h⟩ := bind_eq_ok.mp h
  cases h
  have hs := scanScript_ok makeIndex_wf makeIndex_at hscan
  have hstart : ({ index := scan.index, visits := [] } : PassState).index.WF := hs.wf
  have hat := makeIndex_at.mono hs.extended makeIndex_wf.namespaces
  have hscans := (scanScript_agrees script makeIndex_wf makeIndex_at).ok hscan
  have hindexes := (indexScript_agrees script hstart hat).ok hindex
  have hscanned := foldlM_map_ok PassState.index (fun _ _ _ => scanVisit_index) hscans
  have hindexed := foldlM_map_ok PassState.index (fun _ _ _ => indexVisit_index) hindexes
  exact bind_eq_ok.mpr ⟨scan.index, hscanned, hindexed⟩

/-! ## The procs -/

/-- The procs of the index are those that the script defines. -/
theorem Built.mem_definitions (h : Built script result) {path : Path} {name : Str} :
    (path, name) ∈ script.definitions ↔
      ∃ p ∈ result.index.procs.table, p.name = name ∧
        result.index.atPath path = some p.parentNamespace := by
  obtain ⟨regs, hregs, ht, -⟩ := h.procs
  rw [ht]
  constructor
  · intro hd
    obtain ⟨site, hsite, heq⟩ := List.mem_map.mp hd
    cases heq
    obtain ⟨reg, hreg, hr⟩ := mem_of_forall₂_right hregs hsite
    exact ⟨reg.1, List.mem_map_of_mem hreg, hr.name, hr.parent⟩
  · rintro ⟨p, hp, rfl, hpath⟩
    obtain ⟨reg, hreg, rfl⟩ := List.mem_map.mp hp
    obtain ⟨site, hsite, hr⟩ := mem_of_forall₂_left hregs hreg
    refine List.mem_map.mpr ⟨site, hsite, ?_⟩
    rw [Index.atPath_injective h.wf.namespaces hpath hr.parent, hr.name]

theorem Built.procsIn_ne_nil (h : Built script result) {path : Path} {name : Str} :
    result.index.procsIn path name ≠ [] ↔ (path, name) ∈ script.definitions := by
  rw [h.mem_definitions, Index.procsIn, Ne, List.filter_eq_nil_iff]
  simp

end TclAnalyzer
