import TclAnalyzer.Analyzer.Samples
import TclAnalyzer.Analyzer.Proofs.CompletionProofs
import TclAnalyzer.Analyzer.Proofs.UsageProofs

/-!
# The order of the commands of a script does not matter

Definitions are scanned before usages are indexed, so the procs and usages of a script depend on
which calls the passes reach and in which namespaces, not on the order in which they reach them.
-/

namespace TclAnalyzer

variable {σ : Type} {p : Pass σ} {script : Script} {result : BuildResult}

/-! ## Permuting the commands -/

theorem sitesCalls_content_eq (scope : σ) (pos : Pos) (i : Nat) (commands : List Call) :
    (sitesCalls p scope pos i commands).map Site.content =
      commands.flatMap fun call => (sitesCall p scope [] call).map Site.content := by
  induction commands generalizing i with
  | nil => rfl
  | cons call commands ih =>
    rw [sitesCalls, List.map_append, ih, List.flatMap_cons, sitesCall_content call scope _ []]

theorem sitesScript_content_perm (scope : σ) (pos : Pos) (location : SourceLocation)
    {commands commands' : List Call} (hperm : commands.Perm commands') :
    ((sitesScript p scope pos ⟨location, commands⟩).map Site.content).Perm
      ((sitesScript p scope pos ⟨location, commands'⟩).map Site.content) := by
  rw [sitesScript, sitesScript, sitesCalls_content_eq, sitesCalls_content_eq]
  exact hperm.flatMap_right _

/-- The proc that a command defines. -/
def defined (c : Call × Path) : Path × Str :=
  (procPath c.2 c.1, (splitName (c.1.wordText 1)).name)

theorem procSites_content (sites : List (Site σ)) :
    (procSites sites).map Site.content = (sites.map Site.content).filter fun c => c.1.type = .PROC := by
  rw [List.filter_map]
  rfl

theorem definitions_eq (script : Script) :
    script.definitions = ((procSites script.scanSites).map Site.content).map defined := by
  rw [List.map_map]
  rfl

/-! ## Procs and usages without positions -/

/-- A call reached by `IndexScript` refers to a `proc` command reached by `ScanScript`, with the
locations of the two names. -/
structure RefersTo (definitions : List (Path × Str)) (c d : Call × Path)
    (pair : SourceLocation × SourceLocation) : Prop where
  user : c.1.type = .USER
  resolved : (resolvedIn definitions c.2 c.1).head? = some (procPath d.2 d.1)
  name : (splitName (d.1.wordText 1)).name = (splitName (c.1.wordText 0)).name
  usage : (c.1.words[0]?).map Word.location = some pair.1
  definition : (d.1.words[1]?).map Word.location = some pair.2

theorem resolvedIn_congr {definitions definitions' : List (Path × Str)}
    (h : ∀ d, d ∈ definitions ↔ d ∈ definitions') (path : Path) (call : Call) :
    resolvedIn definitions path call = resolvedIn definitions' path call := by
  simp only [resolvedIn, h]

theorem Built.procPaths_eq (h : Built script result) :
    result.index.procPaths = {d | d ∈ script.definitions} := by
  ext ⟨path, name⟩
  rw [Set.mem_ofPred_eq, h.mem_definitions]
  simp only [Index.procPaths, Set.mem_ofPred_eq, and_comm]

theorem eq_of_mem_procsIn {index : Index} (hd : index.DistinctProcs) {path : Path} {name : Str}
    {p q : Proc} (hp : p ∈ index.procsIn path name) (hq : q ∈ index.procsIn path name) : p = q := by
  obtain ⟨hp, hp'⟩ := List.mem_filter.mp hp
  obtain ⟨hq, hq'⟩ := List.mem_filter.mp hq
  simp only [decide_eq_true_eq] at hp' hq'
  exact hd p hp q hq (hp'.1.trans hq'.1.symm)
    (Option.some.inj (hp'.2.symm.trans hq'.2))

/-- The only proc a name means is the one that is selected. -/
theorem Built.selected_iff (h : Built script result) (hd : result.index.DistinctProcs)
    {site : Site Path} {p : Proc} :
    result.index.selected site = some p ↔ site.call.type = .USER ∧
      ∃ target, (resolvedIn script.definitions site.scope site.call).head? = some target ∧
        p ∈ result.index.procsIn target (splitName (site.call.wordText 0)).name := by
  unfold Index.selected
  rw [h.nearest_eq]
  split
  · next huser =>
    cases hhead : (resolvedIn script.definitions site.scope site.call).head? with
    | none => simp [bestFitProcToCall, bestFitFrom]
    | some target =>
      simp only [Option.elim_some, huser, true_and, Option.some.injEq, exists_eq_left']
      refine ⟨bestFitProcToCall_mem, fun hp => ?_⟩
      cases hbest : bestFitProcToCall
          (result.index.procsIn target (splitName (site.call.wordText 0)).name) site.call with
      | none =>
        rw [bestFitProcToCall_eq_none.mp hbest] at hp
        cases hp
      | some q => rw [eq_of_mem_procsIn hd (bestFitProcToCall_mem hbest) hp]
  · next huser => simp [huser]

theorem mem_procsIn {index : Index} {path : Path} {name : Str} {p : Proc} :
    p ∈ index.procsIn path name ↔
      p ∈ index.procs.table ∧ p.name = name ∧ index.atPath path = some p.parentNamespace := by
  simp [Index.procsIn]

theorem usageOf_eq_some {index : Index} {site : Site Path} {r : Reference} :
    index.usageOf site = some r ↔ ∃ p, index.selected site = some p ∧
      (site.call.words[0]?).map Word.location = some r.location ∧ p.id = r.id ∧ r.type = .USAGE := by
  unfold Index.usageOf
  constructor
  · intro h
    obtain ⟨p, hp, h⟩ := Option.bind_eq_some_iff.mp h
    obtain ⟨word, hword, h⟩ := Option.bind_eq_some_iff.mp h
    cases h
    exact ⟨p, hp, by rw [hword]; rfl, rfl, rfl⟩
  · obtain ⟨location, id, type⟩ := r
    rintro ⟨p, hp, hloc, rfl, rfl⟩
    obtain ⟨word, hword, rfl⟩ := Option.map_eq_some_iff.mp hloc
    simp [hp, hword]

/-- The pairs of a usage and its definition, read off the calls that the passes reach. -/
theorem Built.mem_usagePairs (h : Built script result) (hd : result.index.DistinctProcs)
    {pair : SourceLocation × SourceLocation} :
    pair ∈ result.index.usagePairs ↔ ∃ c ∈ script.indexSites.map Site.content,
      ∃ d ∈ (procSites script.scanSites).map Site.content,
        RefersTo script.definitions c d pair := by
  obtain ⟨regs, hregs, ht, hrefs⟩ := h.procs
  have hwf := h.wf.namespaces
  constructor
  · rintro ⟨u, hu, d, hdef, hut, hdt, hid, rfl⟩
    rw [hrefs, List.mem_append] at hu hdef
    have hu' : u ∈ script.indexSites.filterMap result.index.usageOf := by
      refine hu.resolve_left fun hmem => ?_
      obtain ⟨reg, -, rfl⟩ := List.mem_map.mp hmem
      cases hut
    have hdef' : d ∈ regs.map definitionOf := by
      refine hdef.resolve_right fun hmem => ?_
      obtain ⟨site, -, hs⟩ := List.mem_filterMap.mp hmem
      rw [Index.usageOf_type hs] at hdt
      cases hdt
    obtain ⟨site, hsite, hus⟩ := List.mem_filterMap.mp hu'
    obtain ⟨reg, hreg, rfl⟩ := List.mem_map.mp hdef'
    obtain ⟨p, hsel, hloc, hpid, -⟩ := usageOf_eq_some.mp hus
    obtain rfl : p = reg.1 := h.wf.procs.eq_of_id_eq (selected_mem hsel)
      (ht ▸ List.mem_map_of_mem hreg) (hpid.trans hid)
    obtain ⟨dsite, hdsite, hr⟩ := mem_of_forall₂_left hregs hreg
    obtain ⟨huser, target, hhead, hmem⟩ := (h.selected_iff hd).mp hsel
    obtain ⟨-, hname, hpath⟩ := mem_procsIn.mp hmem
    obtain rfl := Index.atPath_injective hwf hpath hr.parent
    exact ⟨site.content, List.mem_map_of_mem hsite, dsite.content, List.mem_map_of_mem hdsite,
      huser, hhead, hr.name.symm.trans hname, hloc, hr.location⟩
  · rintro ⟨c, hc, d, hd', href⟩
    obtain ⟨site, hsite, rfl⟩ := List.mem_map.mp hc
    obtain ⟨dsite, hdsite, rfl⟩ := List.mem_map.mp hd'
    obtain ⟨reg, hreg, hr⟩ := mem_of_forall₂_right hregs hdsite
    have hmem : reg.1 ∈ result.index.procsIn (procPath dsite.scope dsite.call)
        (splitName (site.call.wordText 0)).name :=
      mem_procsIn.mpr ⟨ht ▸ List.mem_map_of_mem hreg, hr.name.trans href.name, hr.parent⟩
    have hsel := (h.selected_iff hd).mpr ⟨href.user, _, href.resolved, hmem⟩
    obtain ⟨u, d⟩ := pair
    have husage : result.index.usageOf site = some { location := u, id := reg.1.id, type := .USAGE } :=
      usageOf_eq_some.mpr ⟨reg.1, hsel, href.usage, rfl, rfl⟩
    have hloc : reg.2 = d := Option.some.inj (hr.location.symm.trans href.definition)
    refine ⟨{ location := u, id := reg.1.id, type := .USAGE }, ?_, definitionOf reg, ?_, rfl, rfl,
      rfl, by simp [definitionOf, hloc]⟩
    · rw [hrefs]
      exact List.mem_append_right _ (List.mem_filterMap.mpr ⟨site, hsite, husage⟩)
    · rw [hrefs]
      exact List.mem_append_left _ (List.mem_map_of_mem hreg)

/-! ## Building a permuted script -/

theorem nodup_map_iff_of_forall₂ {α β γ δ : Type} {R : α → β → Prop} {f : α → γ} {g : β → δ}
    {l : List α} {m : List β} (h : List.Forall₂ R l m)
    (hfg : ∀ a b a' b', R a b → R a' b' → (f a = f a' ↔ g b = g b')) :
    (l.map f).Nodup ↔ (m.map g).Nodup := by
  induction h with
  | nil => simp
  | @cons a b l m hab htail ih =>
    rw [List.map_cons, List.map_cons, List.nodup_cons, List.nodup_cons, ih]
    refine and_congr_left fun _ => not_congr ⟨fun hmem => ?_, fun hmem => ?_⟩
    · obtain ⟨a', ha', heq⟩ := List.mem_map.mp hmem
      obtain ⟨b', hb', hab'⟩ := mem_of_forall₂_left htail ha'
      exact List.mem_map.mpr ⟨b', hb', (hfg a' b' a b hab' hab).mp heq⟩
    · obtain ⟨b', hb', heq⟩ := List.mem_map.mp hmem
      obtain ⟨a', ha', hab'⟩ := mem_of_forall₂_right htail hb'
      exact List.mem_map.mpr ⟨a', ha', (hfg a' b' a b hab' hab).mpr heq⟩

/-- Procs are distinct exactly when the definitions of the script are. -/
theorem Built.distinctProcs_iff (h : Built script result) :
    result.index.DistinctProcs ↔ script.definitions.Nodup := by
  obtain ⟨regs, hregs, ht, -⟩ := h.procs
  have hnodup : result.index.procs.table.Nodup := h.wf.procs.nodup.of_map _
  have hkeys : result.index.DistinctProcs ↔
      (result.index.procs.table.map fun p => (p.name, p.parentNamespace)).Nodup := by
    rw [List.nodup_map_iff_inj_on hnodup]
    simp [Index.DistinctProcs]
  rw [hkeys, ht, List.map_map, Script.definitions]
  refine nodup_map_iff_of_forall₂ hregs fun reg site reg' site' hr hr' => ?_
  have hpath : reg.1.parentNamespace = reg'.1.parentNamespace ↔
      procPath site.scope site.call = procPath site'.scope site'.call := by
    refine ⟨fun heq => ?_, fun heq => ?_⟩
    · exact Index.atPath_injective h.wf.namespaces hr.parent (heq ▸ hr'.parent)
    · have hparent := hr.parent
      rw [heq, hr'.parent] at hparent
      exact (Option.some.inj hparent).symm
  simp [hr.name, hr'.name, hpath, and_comm]

section Perm

variable {location : SourceLocation} {commands commands' : List Call} {st st' : PassState}
  {context : ScanContext} {path : Path}

theorem fitsScript_perm (hperm : commands.Perm commands') {scope : σ}
    (h : fitsScript p scope ⟨location, commands⟩) : fitsScript p scope ⟨location, commands'⟩ := by
  rw [fitsScript, fitsCalls_iff] at h ⊢
  exact fun call hcall => h call (hperm.mem_iff.mpr hcall)

/-- The loop over the calls of a permuted script returns if it does so over those of the script. -/
theorem Turns.loop_perm {p : Pass Path} {turn : PassState → Site Path → Except Fault PassState}
    (h : Turns p turn) (hp : p.Steady) (hperm : commands.Perm commands')
    (hpasses : ∀ site ∈ sitesScript p path [] ⟨location, commands⟩, ∀ pos, Passes turn { site with pos })
    (hwf : st.index.WF) (hpath : st.index.HasPath path) :
    ∃ st', (sitesScript p path [] ⟨location, commands'⟩).foldlM turn st = .ok st' := by
  refine h.loop_exists hwf ?_ (sitesScript_rooted hp _ path []) fun site' hsite' => ?_
  · rintro _ rfl
    exact hpath
  · have hmem := List.mem_map_of_mem (f := Site.content) hsite'
    rw [← (sitesScript_content_perm path [] location hperm).mem_iff] at hmem
    obtain ⟨site, hsite, hcontent⟩ := List.mem_map.mp hmem
    obtain ⟨hcall, hscope⟩ := Prod.mk.inj hcontent
    have hpass := hpasses site hsite site'.pos
    rwa [hcall, hscope] at hpass

theorem scanScript_perm_completes (hperm : commands.Perm commands') (h : st.index.WF)
    (hc : context.At st.index path) (hs : scanScript st context [] ⟨location, commands⟩ = .ok st')
    {st2 : PassState} {context2 : ScanContext} (h2 : st2.index.WF) (hc2 : context2.At st2.index path) :
    ∃ st2', scanScript st2 context2 [] ⟨location, commands'⟩ = .ok st2' := by
  have hagrees : AgreesIf (fitsScript scanPass path ⟨location, commands⟩)
      (scanScript st context [] ⟨location, commands⟩) _ :=
    scanScript_agrees ⟨location, commands⟩ h hc
  have hfits := fitsScript_perm hperm (hagrees.holds _ hs)
  have hpasses := scanTurns.passes h scanVisit_completes (hagrees.ok hs)
  obtain ⟨st2', hloop⟩ := scanTurns.loop_perm scanPass_steady hperm hpasses h2 hc2.hasPath
  exact ⟨st2', ((scanScript_agrees _ h2 hc2).eq hfits).trans hloop⟩

theorem indexScript_perm_completes (hperm : commands.Perm commands') (h : st.index.WF)
    (hc : context.At st.index path) (hs : indexScript st context [] ⟨location, commands⟩ = .ok st')
    {st2 : PassState} {context2 : ScanContext} (h2 : st2.index.WF) (hc2 : context2.At st2.index path) :
    ∃ st2', indexScript st2 context2 [] ⟨location, commands'⟩ = .ok st2' := by
  have hagrees : AgreesIf (fitsScript indexPass path ⟨location, commands⟩)
      (indexScript st context [] ⟨location, commands⟩) _ :=
    indexScript_agrees ⟨location, commands⟩ h hc
  have hfits := fitsScript_perm hperm (hagrees.holds _ hs)
  have hpasses := indexTurns.passes h indexVisit_completes (hagrees.ok hs)
  obtain ⟨st2', hloop⟩ := indexTurns.loop_perm indexPass_steady hperm hpasses h2 hc2.hasPath
  exact ⟨st2', ((indexScript_agrees _ h2 hc2).eq hfits).trans hloop⟩

theorem buildNew_perm_completes (hperm : commands.Perm commands')
    (h : buildNew ⟨location, commands⟩ = .ok result) :
    ∃ result', buildNew ⟨location, commands'⟩ = .ok result' := by
  obtain ⟨scan, hscan, h⟩ := bind_eq_ok.mp h
  obtain ⟨indexed, hindex, -⟩ := bind_eq_ok.mp h
  have hs := scanScript_ok makeIndex_wf makeIndex_at hscan
  have hat := makeIndex_at.mono hs.extended makeIndex_wf.namespaces
  have hnew : ({ index := makeIndex, visits := [] } : PassState).index.WF := makeIndex_wf
  obtain ⟨scan', hscan'⟩ := scanScript_perm_completes hperm hnew makeIndex_at hscan hnew makeIndex_at
  have hs' := scanScript_ok makeIndex_wf makeIndex_at hscan'
  have hat' := makeIndex_at.mono hs'.extended makeIndex_wf.namespaces
  have hstart : ({ index := scan.index, visits := [] } : PassState).index.WF := hs.wf
  have hstart' : ({ index := scan'.index, visits := [] } : PassState).index.WF := hs'.wf
  obtain ⟨indexed', hindex'⟩ := indexScript_perm_completes hperm hstart hat hindex hstart' hat'
  exact ⟨_, bind_eq_ok.mpr ⟨scan', hscan', bind_eq_ok.mpr ⟨indexed', hindex', rfl⟩⟩⟩

end Perm

/-- Building a permuted script completes, and yields the same procs and the same pairs of a usage and
its definition, when no two procs share namespace and name. -/
theorem buildNew_perm {location : SourceLocation} {commands commands' : List Call}
    (hperm : commands.Perm commands') (h : buildNew ⟨location, commands⟩ = .ok result)
    (hd : result.index.DistinctProcs) :
    ∃ result', buildNew ⟨location, commands'⟩ = .ok result' ∧
      result'.index.procPaths = result.index.procPaths ∧
      result'.index.usagePairs = result.index.usagePairs := by
  obtain ⟨result', h'⟩ := buildNew_perm_completes hperm h
  have hb := buildNew_ok h
  have hb' := buildNew_ok h'
  have hscan : ((procSites (Script.scanSites ⟨location, commands⟩)).map Site.content).Perm
      ((procSites (Script.scanSites ⟨location, commands'⟩)).map Site.content) := by
    rw [procSites_content, procSites_content]
    exact (sitesScript_content_perm _ _ _ hperm).filter _
  have hindex : ((Script.indexSites ⟨location, commands⟩).map Site.content).Perm
      ((Script.indexSites ⟨location, commands'⟩).map Site.content) :=
    sitesScript_content_perm _ _ _ hperm
  have hdefs : (Script.definitions ⟨location, commands⟩).Perm
      (Script.definitions ⟨location, commands'⟩) := by
    rw [definitions_eq, definitions_eq]
    exact hscan.map _
  have hd' : result'.index.DistinctProcs :=
    hb'.distinctProcs_iff.mpr (hdefs.nodup_iff.mp (hb.distinctProcs_iff.mp hd))
  refine ⟨result', h', ?_, Set.ext fun pair => ?_⟩
  · rw [hb'.procPaths_eq, hb.procPaths_eq]
    exact Set.ext fun d => hdefs.mem_iff.symm
  · rw [hb'.mem_usagePairs hd', hb.mem_usagePairs hd]
    have hrefers : ∀ c d, RefersTo (Script.definitions ⟨location, commands'⟩) c d pair ↔
        RefersTo (Script.definitions ⟨location, commands⟩) c d pair := by
      intro c d
      have hres := resolvedIn_congr (fun d => hdefs.mem_iff) c.2 c.1
      exact ⟨fun ⟨h1, h2, h3, h4, h5⟩ => ⟨h1, hres ▸ h2, h3, h4, h5⟩,
        fun ⟨h1, h2, h3, h4, h5⟩ => ⟨h1, hres ▸ h2, h3, h4, h5⟩⟩
    simp only [hrefers, hindex.mem_iff, hscan.mem_iff]

/-- A use before the definition means the same as one after it. -/
theorem buildNew_use_before_definition : ∃ result result',
    buildNew ⟨lineLocation 0, [defineF, useF]⟩ = .ok result ∧
    buildNew ⟨lineLocation 0, [useF, defineF]⟩ = .ok result' ∧
    result'.index.procPaths = result.index.procPaths ∧
    result'.index.usagePairs = result.index.usagePairs := by
  obtain ⟨result, h, hd⟩ := exists_of_returns
    (show returns (buildNew ⟨lineLocation 0, [defineF, useF]⟩) (fun result =>
      result.index.DistinctProcs) = true by decide +kernel)
  obtain ⟨result', h', hprocs, husages⟩ :=
    buildNew_perm (List.Perm.swap useF defineF []) h (of_decide_eq_true hd)
  exact ⟨result, result', h, h', hprocs, husages⟩

end TclAnalyzer
