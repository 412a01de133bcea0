import TclAnalyzer.Analyzer.Samples
import TclAnalyzer.Analyzer.Proofs.NamespacePathsProofs

/-!
# Commands behind a script

Commands that are added at the end of a script leave the procs of the script as they are, and a call in
it keeps the proc that it uses as long as no new proc of the name comes up where it looks.
-/

namespace TclAnalyzer

variable {index index' : Index} {script : Script} {more : List Call} {result result' : BuildResult}

/-! ## The calls of both -/

theorem sitesCalls_append {σ : Type} (p : Pass σ) (scope : σ) (pos : Pos) (commands more : List Call) :
    ∀ i, sitesCalls p scope pos i (commands ++ more) =
      sitesCalls p scope pos i commands ++ sitesCalls p scope pos (i + commands.length) more := by
  induction commands with
  | nil =>
    intro i
    rw [sitesCalls]
    rfl
  | cons call commands ih =>
    intro i
    rw [List.cons_append, sitesCalls, sitesCalls, ih, List.append_assoc, List.length_cons,
      Nat.add_assoc, Nat.add_comm 1]

theorem append_scanSites (script : Script) (more : List Call) :
    ∃ rest, (script.append more).scanSites = script.scanSites ++ rest := by
  obtain ⟨location, commands⟩ := script
  refine ⟨sitesCalls scanPass [] [] (0 + commands.length) more, ?_⟩
  rw [Script.scanSites, Script.scanSites, Script.append, sitesScript, sitesScript]
  exact sitesCalls_append ..

theorem append_indexSites (script : Script) (more : List Call) :
    ∃ rest, (script.append more).indexSites = script.indexSites ++ rest := by
  obtain ⟨location, commands⟩ := script
  refine ⟨sitesCalls indexPass [] [] (0 + commands.length) more, ?_⟩
  rw [Script.indexSites, Script.indexSites, Script.append, sitesScript, sitesScript]
  exact sitesCalls_append ..

/-! ## Procs behind the others -/

/-- The index has the procs of another one, in the same namespaces, and behind them new ones. -/
structure Index.Appends (index index' : Index) (new : List Proc) : Prop where
  table : index'.procs.table = index.procs.table ++ new
  paths : ∀ p ∈ index.procs.table, ∀ path,
    index'.atPath path = some p.parentNamespace ↔ index.atPath path = some p.parentNamespace

theorem Index.Appends.procsIn {new : List Proc} (h : index.Appends index' new) (path : Path) (name : Str) :
    index'.procsIn path name = index.procsIn path name ++
      new.filter fun q => q.name = name ∧ index'.atPath path = some q.parentNamespace := by
  unfold Index.procsIn
  rw [h.table, List.filter_append]
  congr 1
  refine List.filter_congr fun p hp => ?_
  rw [decide_eq_decide, h.paths p hp]

theorem Index.Appends.nearest {new : List Proc} (h : index.Appends index' new) {path : Path}
    {cmdName : Str} (hnew : ∀ q ∈ new, ∀ target ∈ index.lookedUp path cmdName,
      q.name = (splitName cmdName).name → index'.atPath target ≠ some q.parentNamespace) :
    index'.nearest path cmdName = index.nearest path cmdName := by
  unfold Index.nearest
  unfold Index.lookedUp at hnew
  cases hparts : (splitName cmdName).namespaceParts with
  | error fault => rfl
  | ok parts =>
    rw [hparts] at hnew
    dsimp only at hnew ⊢
    generalize candidates path (splitName cmdName) parts = targets at hnew ⊢
    induction targets with
    | nil => rfl
    | cons target targets ih =>
      rw [Index.searched] at hnew
      have hfirst : index'.procsIn target (splitName cmdName).name =
          index.procsIn target (splitName cmdName).name := by
        rw [h.procsIn]
        refine List.append_right_eq_self.mpr (List.filter_eq_nil_iff.mpr ?_)
        intro q hq hand
        obtain ⟨hname, hat⟩ := of_decide_eq_true hand
        exact hnew q hq target List.mem_cons_self hname hat
      rw [List.map_cons, List.map_cons, firstNonempty, firstNonempty, hfirst]
      by_cases hempty : index.procsIn target (splitName cmdName).name = []
      · rw [if_pos hempty] at hnew
        have hrest := ih fun q hq target htarget => hnew q hq target (List.mem_cons_of_mem _ htarget)
        rw [hrest]
      · have hfound : ¬(index.procsIn target (splitName cmdName).name).isEmpty = true :=
          fun h => hempty (List.isEmpty_iff.mp h)
        rw [if_neg hfound, if_neg hfound]

/-! ## `Build` -/

/-- The second loop does not move a proc. -/
theorem IndexAdds.paths {targets : List Path} (ht : IndexAdds index index' targets) (h : index.WF)
    {p : Proc} (hp : p ∈ index.procs.table) (path : Path) :
    index'.atPath path = some p.parentNamespace ↔ index.atPath path = some p.parentNamespace :=
  ht.extended.atPath_iff h.namespaces ht.wf.namespaces (h.parents p hp)

theorem buildNew_appends (h : buildNew script = .ok result)
    (h' : buildNew (script.append more) = .ok result') :
    ∃ new, result.index.Appends result'.index new ∧
      ∀ r ∈ result.index.procs.references, r.type = .DEFINITION →
        r ∈ result'.index.procs.references := by
  obtain ⟨scanned, hscan, hscans, hindexes⟩ := buildNew_loops h
  obtain ⟨scanned', hscan', hscans', hindexes'⟩ := buildNew_loops h'
  obtain ⟨rest, hsites⟩ := append_scanSites script more
  rw [hsites, List.foldlM_append] at hscan'
  obtain ⟨middle, hmiddle, hrest⟩ := bind_eq_ok.mp hscan'
  cases hscan.symm.trans hmiddle
  have hadded := scanLoop_adds rest hscans.wf hrest
  obtain ⟨new, hnew⟩ := hadded.table
  obtain ⟨usages, hreferences, husages⟩ := hindexes.references
  obtain ⟨usages', hreferences', -⟩ := hindexes'.references
  refine ⟨new, ⟨?_, fun p hp path => ?_⟩, fun r hr htype => ?_⟩
  · rw [hindexes'.table, hindexes.table, hnew]
  · rw [hindexes.table] at hp
    have hp' : p ∈ scanned'.procs.table := hadded.table.subset hp
    rw [hindexes'.paths hscans'.wf hp', hindexes.paths hscans.wf hp,
      hadded.extended.atPath_iff hscans.wf.namespaces hadded.wf.namespaces (hscans.wf.parents p hp)]
  · rw [hreferences] at hr
    rcases List.mem_append.mp hr with hr | hr
    · rw [hreferences']
      exact List.mem_append_left _ (hadded.references.subset hr)
    · rw [husages r hr] at htype
      cases htype

/-- Commands behind a script leave all of its procs in their rows, with their definitions and in the
same namespaces, whose ids stand for the same paths. A call in the script is visited in the same
namespace and uses the same proc as before, unless the new commands define a proc of the name in one of
the namespaces where the call looks. -/
theorem append_keeps (h : buildNew script = .ok result)
    (h' : buildNew (script.append more) = .ok result') :
    ∃ new, result'.index.procs.table = result.index.procs.table ++ new ∧
      (∀ p ∈ result.index.procs.table, ∀ path, result'.index.atPath path = some p.parentNamespace ↔
        result.index.atPath path = some p.parentNamespace) ∧
      (∀ r ∈ result.index.procs.references, r.type = .DEFINITION →
        r ∈ result'.index.procs.references) ∧
      ∀ v ∈ result.indexed, ∃ v' ∈ result'.indexed, v'.pos = v.pos ∧ v'.call = v.call ∧
        ∀ path, result.index.atPath path = some v.ns → result'.index.atPath path = some v'.ns ∧
          ((∀ q ∈ new, ∀ target ∈ result.index.lookedUp path (v.call.wordText 0),
            q.name = (splitName (v.call.wordText 0)).name →
              result'.index.atPath target ≠ some q.parentNamespace) → v'.fit = v.fit) := by
  obtain ⟨new, hnew, hdefinitions⟩ := buildNew_appends h h'
  refine ⟨new, hnew.table, fun p hp path => hnew.paths p hp path, hdefinitions, fun v hv => ?_⟩
  obtain ⟨site, hsite, hat⟩ := mem_of_forall₂_left (buildNew_ok h).indexed hv
  obtain ⟨rest, hsites⟩ := append_indexSites script more
  have hsite' : site ∈ (script.append more).indexSites := hsites ▸ List.mem_append_left rest hsite
  obtain ⟨v', hv', hat'⟩ := mem_of_forall₂_right (buildNew_ok h').indexed hsite'
  refine ⟨v', hv', hat'.pos.trans hat.pos.symm, hat'.call.trans hat.call.symm, fun path hpath => ?_⟩
  obtain rfl := Index.atPath_injective (buildNew_ok h).wf.namespaces hat.ns hpath
  refine ⟨hat'.ns, fun hother => ?_⟩
  rw [hat.call] at hother
  rw [hat.fit, hat'.fit, Index.selected, Index.selected, hnew.nearest hother]

/-- `proc f {} {};f`, and `proc g {} {}` behind it: the call of `f` uses the same proc as before. -/
theorem append_keeps_defineF : ∃ result result' : BuildResult, ∃ new,
    result'.index.procs.table = result.index.procs.table ++ new ∧ new.map Proc.name = [bytes "g"] ∧
    ∃ v ∈ result.indexed, ∃ v' ∈ result'.indexed, v'.pos = v.pos ∧
      v.call.wordText 0 = bytes "f" ∧ v.fit.isSome ∧ v'.fit = v.fit := by
  obtain ⟨result, h, hcall⟩ := exists_of_returns
    (show returns (buildNew ⟨lineLocation 0, [defineF, useF]⟩) (fun result =>
      result.index.procs.table.map Proc.name = [bytes "f"] ∧ ∃ v ∈ result.indexed,
        v.call.wordText 0 = bytes "f" ∧ v.fit.isSome ∧ result.index.atPath [] = some v.ns) = true by
      decide +kernel)
  obtain ⟨result', h', hprocs⟩ := exists_of_returns
    (show returns (buildNew (Script.append ⟨lineLocation 0, [defineF, useF]⟩ [defineG]))
      (fun result => result.index.procs.table.map Proc.name = [bytes "f", bytes "g"]) = true by
      decide +kernel)
  obtain ⟨hproc, v, hv, hname, hfit, hpath⟩ := of_decide_eq_true hcall
  obtain ⟨new, htable, -, -, hcalls⟩ := append_keeps h h'
  have hprocs := of_decide_eq_true hprocs
  rw [htable, List.map_append, hproc] at hprocs
  have hnew : new.map Proc.name = [bytes "g"] := List.append_cancel_left hprocs
  obtain ⟨v', hv', hpos, -, hsame⟩ := hcalls v hv
  refine ⟨result, result', new, htable, hnew, v, hv, v', hv', hpos, hname, hfit, ?_⟩
  refine (hsame [] hpath).2 fun q hq target _ hq' => ?_
  have hg : q.name = bytes "g" :=
    List.mem_singleton.mp (hnew ▸ List.mem_map_of_mem (f := Proc.name) hq)
  rw [hname, hg] at hq'
  exact absurd hq' (by decide)

end TclAnalyzer
