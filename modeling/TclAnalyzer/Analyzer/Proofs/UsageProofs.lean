import TclAnalyzer.Analyzer.Proofs.PassesProofs
import TclAnalyzer.Analyzer.Usages
import TclAnalyzer.Analyzer.Samples

/-!
# The usages recorded and the calls that use a proc

`IndexScript` records the calls it reaches. It leaves out the words of `proc` and `namespace eval`
other than the body, and the elements of lists.
-/

namespace TclAnalyzer

variable {script : Script} {result : BuildResult}

/-! ## Finding procs -/

theorem firstNonempty_map {α β : Type} (f : β → List α) (l : List β) :
    firstNonempty (l.map f) = (l.filter fun b => f b ≠ []).head?.elim [] f := by
  induction l with
  | nil => rfl
  | cons b l ih => by_cases h : f b = [] <;> simp_all [firstNonempty]

/-- In a namespace that exists, `FindProc` finds what the name means there. -/
theorem found_eq_nearest {index : Index} (h : index.WF) {path : Path} {ns : Nat}
    (hns : index.atPath path = some ns) {call : Call} (hwords : call.words ≠ []) :
    index.found path call = index.nearest path (call.wordText 0) := by
  obtain ⟨cmdWord, rest, hcons⟩ := List.exists_cons_of_ne_nil hwords
  have hword : call.words[0]? = some cmdWord := by simp [hcons]
  rw [wordText_eq hword, Index.found, hns, hword]
  rcases findProc_spec h hns cmdWord.text.bytes with
    ⟨-, index', -, hfind, -⟩ | ⟨fault, hparts, hfind⟩
  · simp only [hfind]
  · simp only [hfind, Index.nearest, hparts]

/-- What a name means, in terms of the definitions of the script. -/
theorem Built.nearest_eq (h : Built script result) (path : Path) (call : Call) :
    result.index.nearest path (call.wordText 0) =
      (resolvedIn script.definitions path call).head?.elim [] fun target =>
        result.index.procsIn target (splitName (call.wordText 0)).name := by
  unfold Index.nearest resolvedIn
  dsimp only
  cases (splitName (call.wordText 0)).namespaceParts with
  | error fault => rfl
  | ok parts =>
    dsimp only
    rw [firstNonempty_map]
    congr 2
    exact List.filter_congr fun target _ => decide_eq_decide.mpr h.procsIn_ne_nil

theorem Built.procsIn_resolved (h : Built script result) {path target : Path} {call : Call}
    (ht : target ∈ resolvedIn script.definitions path call) :
    result.index.procsIn target (splitName (call.wordText 0)).name ≠ [] := by
  unfold resolvedIn at ht
  dsimp only at ht
  split at ht
  · exact h.procsIn_ne_nil.mpr (by simpa using (List.mem_filter.mp ht).2)
  · cases ht

theorem Built.nearest_ne_nil (h : Built script result) {path : Path} {call : Call} :
    result.index.nearest path (call.wordText 0) ≠ [] ↔
      resolvedIn script.definitions path call ≠ [] := by
  rw [h.nearest_eq]
  cases hres : resolvedIn script.definitions path call with
  | nil => simp
  | cons target rest =>
    simpa using h.procsIn_resolved (hres ▸ List.mem_cons_self)

/-! ## The calls of the tree -/

theorem mem_allSites_reached {site : Site (Path × Bool)} (hsite : site ∈ script.allSites)
    (hreached : site.scope.2 = true) : ⟨site.pos, site.call, site.scope.1⟩ ∈ script.indexSites := by
  have h : script.indexSites = script.allSites.filterMap Site.reached :=
    (sitesScript_everywhere script ([], true) []).symm
  rw [h]
  exact List.mem_filterMap.mpr ⟨site, hsite, by simp [Site.reached, hreached]⟩

/-- The namespace that is on top for a call exists, also where the call is left out. -/
theorem Built.allSites_atPath (h : Built script result) {site : Site (Path × Bool)}
    (hsite : site ∈ script.allSites) : ∃ ns, result.index.atPath site.scope.1 = some ns := by
  refine Reaches.everywhere_scope (A := fun path => ∃ ns, result.index.atPath path = some ns)
    (fun s type s' hs hA => indexPass_steady s type s' hs ▸ hA) (mem_sitesScript.mp hsite)
    ⟨_, rfl⟩ fun outer k path ho hreached he => ?_
  obtain ⟨v, -, hv⟩ := mem_of_forall₂_right h.indexed
    (mem_allSites_reached (mem_sitesScript.mpr ho) hreached)
  exact hv.enters k path he

theorem Built.using_iff (h : Built script result) {site : Site (Path × Bool)}
    (hsite : site ∈ script.allSites) :
    site.call.type = .USER ∧ result.index.found site.scope.1 site.call ≠ [] ↔
      site.usesProc script := by
  obtain ⟨ns, hns⟩ := h.allSites_atPath hsite
  by_cases hwords : site.call.words = []
  · simp [Site.usesProc, Index.found, hwords]
  · rw [found_eq_nearest h.wf hns hwords, h.nearest_ne_nil]
    simp [Site.usesProc, hwords]

/-! ## The references -/

/-- The usage recorded for a call of the tree. -/
def Index.usageAt (index : Index) (site : Site (Path × Bool)) : Option Reference :=
  site.reached.bind index.usageOf

theorem Index.usageOf_type {index : Index} {site : Site Path} {r : Reference}
    (h : index.usageOf site = some r) : r.type = .USAGE := by
  unfold Index.usageOf at h
  obtain ⟨p, -, h⟩ := Option.bind_eq_some_iff.mp h
  obtain ⟨word, -, h⟩ := Option.bind_eq_some_iff.mp h
  cases h
  rfl

theorem Built.usages_eq (h : Built script result) :
    result.index.usages = script.allSites.filterMap result.index.usageAt := by
  obtain ⟨regs, -, -, hrefs⟩ := h.procs
  have hsites : script.indexSites = script.allSites.filterMap Site.reached :=
    (sitesScript_everywhere script ([], true) []).symm
  have hdefs : (regs.map definitionOf).filter (fun r => r.type = .USAGE) = [] := by
    rw [List.filter_eq_nil_iff]
    intro r hr
    obtain ⟨reg, -, rfl⟩ := List.mem_map.mp hr
    simp [definitionOf]
  have husages : (script.indexSites.filterMap result.index.usageOf).filter
      (fun r => r.type = .USAGE) = script.indexSites.filterMap result.index.usageOf := by
    refine List.filter_eq_self.mpr fun r hr => ?_
    obtain ⟨site, -, hs⟩ := List.mem_filterMap.mp hr
    simp [Index.usageOf_type hs]
  rw [Index.usages, hrefs, List.filter_append, hdefs, husages, List.nil_append, hsites,
    List.filterMap_filterMap]
  rfl

/-- A call that uses a proc is recorded when `IndexScript` reaches it. -/
theorem Built.recordedAs (h : Built script result) {site : Site (Path × Bool)}
    (hsite : site ∈ script.allSites) (huses : site.usesProc script)
    (hreached : site.scope.2 = true) :
    ∃ r, result.index.usageAt site = some r ∧ RecordedAs result.index site r := by
  obtain ⟨ns, hns⟩ := h.allSites_atPath hsite
  obtain ⟨huser, hwords, hres⟩ := huses
  have hfound := found_eq_nearest h.wf hns hwords
  obtain ⟨cmdWord, rest, hcons⟩ := List.exists_cons_of_ne_nil hwords
  cases hsel : result.index.selected ⟨site.pos, site.call, site.scope.1⟩ with
  | none =>
    rw [Index.selected, if_pos huser, bestFitProcToCall_eq_none] at hsel
    exact absurd hsel (h.nearest_ne_nil.mpr hres)
  | some p =>
    refine ⟨{ location := cmdWord.location, id := p.id, type := .USAGE }, ?_, ?_, p, ?_, rfl⟩
    · simp [Index.usageAt, Site.reached, hreached, Index.usageOf, hsel, hcons]
    · simp [hcons]
    · rw [Index.selected, if_pos huser] at hsel
      rw [hfound]
      exact bestFitProcToCall_mem hsel

/-- No other call is recorded. -/
theorem Built.usesProc_of_usageAt (h : Built script result) {site : Site (Path × Bool)}
    {r : Reference} (hr : result.index.usageAt site = some r) :
    site.usesProc script ∧ site.scope.2 = true := by
  obtain ⟨s, hs, hr⟩ := Option.bind_eq_some_iff.mp hr
  obtain ⟨p, hsel, hr⟩ := Option.bind_eq_some_iff.mp hr
  obtain ⟨word, hword, -⟩ := Option.bind_eq_some_iff.mp hr
  unfold Site.reached at hs
  split at hs
  · next hreached =>
    cases hs
    unfold Index.selected at hsel
    split at hsel
    · next huser =>
      have hne : result.index.nearest site.scope.1 (site.call.wordText 0) ≠ [] := by
        intro hnil
        rw [hnil] at hsel
        cases hsel
      exact ⟨⟨huser, fun hnil => by simp [hnil] at hword, h.nearest_ne_nil.mp hne⟩, hreached⟩
    · cases hsel
  · cases hs

/-! ## One-to-one -/

theorem forall₂_filter_filterMap {α β : Type} {P : α → Prop} [DecidablePred P] {f : α → Option β}
    {R : α → β → Prop} {l : List α} (hsome : ∀ a ∈ l, P a → ∃ b, f a = some b ∧ R a b)
    (hnone : ∀ a ∈ l, ¬ P a → f a = none) :
    List.Forall₂ R (l.filter fun a => P a) (l.filterMap f) := by
  induction l with
  | nil => exact .nil
  | cons a l ih =>
    have hl := ih (fun b hb => hsome b (List.mem_cons_of_mem a hb))
      fun b hb => hnone b (List.mem_cons_of_mem a hb)
    by_cases hP : P a
    · obtain ⟨b, hb, hR⟩ := hsome a List.mem_cons_self hP
      simpa [hP, hb] using List.Forall₂.cons hR hl
    · simpa [hP, hnone a List.mem_cons_self hP] using hl

/-- When as many elements are mapped as have a property, and only such, all of them are mapped. -/
theorem isSome_of_length_eq {α β : Type} {P : α → Prop} [DecidablePred P] {f : α → Option β}
    {l : List α} (hf : ∀ a ∈ l, (f a).isSome → P a)
    (hlen : (l.filter fun a => P a).length = (l.filterMap f).length) :
    ∀ a ∈ l, P a → (f a).isSome := by
  have hsub : (l.filter fun a => (f a).isSome).Sublist (l.filter fun a => P a) := by
    have hand : l.filter (fun a => (f a).isSome) =
        (l.filter fun a => P a).filter fun a => (f a).isSome := by
      rw [List.filter_filter]
      refine List.filter_congr fun a ha => ?_
      have := hf a ha
      grind
    rw [hand]
    exact List.filter_sublist
  have heq := hsub.eq_of_length (by
    rw [hlen, List.length_filterMap_eq_countP, List.countP_eq_length_filter])
  intro a ha hP
  have hmem : a ∈ l.filter fun a => (f a).isSome := by
    rw [heq]
    exact List.mem_filter.mpr ⟨ha, by simpa using hP⟩
  exact (List.mem_filter.mp hmem).2

/-- The usages recorded are in one-to-one correspondence with the calls that use a proc exactly when
none of these calls is left out by `IndexScript`. -/
theorem usages_match_calls_iff (h : buildNew script = .ok result) :
    UsagesMatchCalls script result.index ↔
      ∀ site ∈ script.allSites, site.usesProc script → site.scope.2 = true := by
  have hb := buildNew_ok h
  have husing : script.usingSites result.index =
      script.allSites.filter fun site => site.usesProc script :=
    List.filter_congr fun site hsite => decide_eq_decide.mpr (hb.using_iff hsite)
  rw [UsagesMatchCalls, husing, hb.usages_eq]
  constructor
  · rintro ⟨sites, hperm, hrec⟩ site hsite huses
    have hlen := hperm.length_eq.symm.trans hrec.length_eq
    have hsome := isSome_of_length_eq (fun s hs hr => ?_) hlen site hsite huses
    · obtain ⟨r, hr⟩ := Option.isSome_iff_exists.mp hsome
      exact (hb.usesProc_of_usageAt hr).2
    · obtain ⟨r, hr⟩ := Option.isSome_iff_exists.mp hr
      exact (hb.usesProc_of_usageAt hr).1
  · intro hall
    refine ⟨_, List.Perm.refl _, forall₂_filter_filterMap (fun site hsite huses =>
      hb.recordedAs hsite huses (hall site hsite huses)) fun site hsite hnot => ?_⟩
    cases hr : result.index.usageAt site with
    | none => rfl
    | some r => exact absurd (hb.usesProc_of_usageAt hr).1 hnot

/-- `proc ns {} {};proc [ns] {} {}`. -/
def computedName : Script :=
  { location := lineLocation 0
    commands := [
      ⟨.PROC, [textWord 0 "proc", textWord 5 "ns", listWord 9 "" [], scriptWord 12 "" []], []⟩,
      ⟨.PROC, [textWord 14 "proc", scriptWord 19 "[ns]" [⟨.USER, [textWord 20 "ns"], []⟩],
        listWord 25 "" [], scriptWord 28 "" []], []⟩] }

/-- The call in the name of the second proc uses the first one, and is not recorded. -/
theorem computedName_not_recorded : ∃ result, buildNew computedName = .ok result ∧
    ¬ UsagesMatchCalls computedName result.index := by
  obtain ⟨result, h, htest⟩ := exists_of_returns (show returns (buildNew computedName)
    (fun result => (computedName.usingSites result.index).length = 1 ∧
      result.index.usages.length = 0) = true by decide +kernel)
  obtain ⟨husing, husages⟩ := of_decide_eq_true htest
  refine ⟨result, h, ?_⟩
  rintro ⟨sites, hperm, hrec⟩
  have := hperm.length_eq
  have := hrec.length_eq
  omega

/-- In `proc f {} {};f` the usage of `f` is recorded. -/
theorem computedName_match_iff :
    (∃ result, buildNew computedName = .ok result ∧
      (UsagesMatchCalls computedName result.index ↔
        ∀ site ∈ computedName.allSites, site.usesProc computedName → site.scope.2 = true)) ∧
    ∃ result, buildNew ⟨lineLocation 0, [defineF, useF]⟩ = .ok result ∧
      UsagesMatchCalls ⟨lineLocation 0, [defineF, useF]⟩ result.index := by
  constructor
  · obtain ⟨result, h, -⟩ := exists_of_returns
      (show returns (buildNew computedName) (fun _ => true) = true by decide +kernel)
    exact ⟨result, h, usages_match_calls_iff h⟩
  · obtain ⟨result, h, -⟩ := exists_of_returns
      (show returns (buildNew ⟨lineLocation 0, [defineF, useF]⟩) (fun _ => true) = true by
        decide +kernel)
    exact ⟨result, h, (usages_match_calls_iff h).mpr (by decide +kernel)⟩

end TclAnalyzer
