import TclAnalyzer.Analyzer.Lookup
import TclAnalyzer.Analyzer.Samples
import TclAnalyzer.Analyzer.Proofs.AbsPathProofs

/-!
# `FindProc` by the rows of the tables

Over the rows, `FindProc` returns the procs from the nearest start, and it leaves the index alone as
long as the name leads to namespaces that exist.
-/

namespace TclAnalyzer

variable {index index' : Index} {ns : Nat} {path parts : List Str} {starts : List Nat} {name cmdName : Str}

/-! ## Starts and paths -/

/-- A namespace and those around it are at the prefixes of its path. -/
theorem around_iff (h : index.NamespacesWF) (hns : index.atPath path = some ns) :
    index.Around ns starts ↔ (enclosing path).map index.atPath = starts.map some := by
  constructor
  · intro ha
    induction ha generalizing path with
    | global =>
      have hpath : path = [] := Index.atPath_injective h hns rfl
      subst hpath
      rfl
    | @inner ns parent row outer hget hpar _ ih =>
      obtain ⟨-, -, hrow, -⟩ := get_valid h hget
      rcases parent_atPath h hns with ⟨-, hnone⟩ | ⟨init, part, p, rfl, hinit, hsome, -⟩
      · rw [hpar, hnone] at hrow
        cases hrow
      · obtain rfl : parent = p := Option.some.inj (hpar.symm.trans (hrow.trans hsome))
        rw [enclosing_concat, List.map_cons, List.map_cons, hns, ih hinit]
  · intro hmap
    induction path using List.reverseRecOn generalizing ns starts with
    | nil =>
      obtain rfl : index.globalNamespaceId = ns := Option.some.inj hns
      obtain rfl : starts = [index.globalNamespaceId] :=
        (List.map_inj_right fun _ _ => Option.some.inj).mp hmap.symm
      exact .global
    | append_singleton init part ih =>
      rcases parent_atPath h hns with ⟨hnil, -⟩ | ⟨init', part', p, heq, hinit, hsome, -⟩
      · simp at hnil
      · obtain ⟨rfl, -⟩ := List.append_inj' heq rfl
        cases starts with
        | nil => simp at hmap
        | cons start outer =>
          rw [enclosing_concat, List.map_cons, List.map_cons] at hmap
          obtain ⟨hstart, houter⟩ := List.cons.inj hmap
          obtain rfl : ns = start := Option.some.inj (hns.symm.trans hstart)
          obtain ⟨row, hget, -, -, hrow, -⟩ := get_namespace h (Index.atPath_valid h hns)
          exact .inner hget (hrow.trans hsome) (ih hinit houter)

theorem exists_around (h : index.NamespacesWF) (hns : index.atPath path = some ns) :
    ∃ starts, index.Around ns starts := by
  have hall : ∀ outer ∈ enclosing path, ∃ start, index.atPath outer = some start := by
    intro outer houter
    have hprefix : outer <+: path := by simpa [enclosing] using houter
    obtain ⟨rest, rfl⟩ := hprefix
    rw [Index.atPath, NameTree.walk_append] at hns
    obtain ⟨start, hstart, -⟩ := Option.bind_eq_some_iff.mp hns
    exact ⟨start, hstart⟩
  refine ⟨(enclosing path).map fun outer => (index.atPath outer).getD 0,
    (around_iff h hns).mpr ?_⟩
  rw [List.map_map]
  refine List.map_congr_left fun outer houter => ?_
  obtain ⟨start, hstart⟩ := hall outer houter
  simp [hstart]

theorem atPath_append {start : Nat} (hstart : index.atPath path = some start) (parts : List Str) :
    index.atPath (path ++ parts) = index.tree.walk start parts := by
  rw [Index.atPath] at hstart ⊢
  rw [NameTree.walk_append, hstart, Option.bind_some]

theorem procsFrom_eq {start : Nat} (hstart : index.atPath path = some start) :
    index.procsIn (path ++ parts) name = index.procsFrom parts name start := by
  rw [Index.procsIn, Index.procsFrom, atPath_append hstart]

theorem map_procsIn {paths : List Path} (hmap : paths.map index.atPath = starts.map some) :
    paths.map (fun outer => index.procsIn (outer ++ parts) name) =
      starts.map (index.procsFrom parts name) := by
  induction paths generalizing starts with
  | nil =>
    obtain rfl : starts = [] := by simpa using hmap.symm
    rfl
  | cons outer paths ih =>
    cases starts with
    | nil => simp at hmap
    | cons start starts =>
      obtain ⟨hstart, hmap⟩ := List.cons.inj hmap
      rw [List.map_cons, List.map_cons, procsFrom_eq hstart, ih hmap]

/-- What a name means in a namespace are the procs from the nearest start. -/
theorem nearest_eq_firstNonempty (h : index.NamespacesWF) (hns : index.atPath path = some ns)
    (hparts : (splitName cmdName).namespaceParts = .ok parts)
    (hs : index.Starts ns (splitName cmdName).absolute starts) :
    index.nearest path cmdName =
      firstNonempty (starts.map (index.procsFrom parts (splitName cmdName).name)) := by
  rw [Index.nearest, hparts]
  generalize habs : (splitName cmdName).absolute = absolute at hs
  cases hs with
  | absolute =>
    have hroot : index.atPath [] = some index.globalNamespaceId := rfl
    simp only [candidates, habs, if_true, List.map_cons, List.map_nil]
    rw [← procsFrom_eq hroot, List.nil_append]
  | relative ha =>
    simp only [candidates, habs, Bool.false_eq_true, if_false, List.map_map]
    rw [← map_procsIn ((around_iff h hns).mp ha)]
    rfl

/-! ## The nearest start -/

theorem firstNonempty_split {α β : Type} (f : β → List α) {ls : List β} (hne : ls ≠ []) :
    ∃ before b after, ls = before ++ b :: after ∧ (∀ x ∈ before, f x = []) ∧
      firstNonempty (ls.map f) = f b ∧ (f b = [] → ∀ x ∈ ls, f x = []) := by
  induction ls with
  | nil => exact absurd rfl hne
  | cons a ls ih =>
    by_cases ha : f a = []
    · by_cases hls : ls = []
      · subst hls
        exact ⟨[], a, [], rfl, by simp, by simp [firstNonempty, ha], by simp⟩
      · obtain ⟨before, b, after, rfl, hbefore, hfirst, hall⟩ := ih hls
        refine ⟨a :: before, b, after, rfl, ?_, ?_, ?_⟩
        · exact List.forall_mem_cons.mpr ⟨ha, hbefore⟩
        · rw [List.map_cons, firstNonempty, ha, List.isEmpty_nil, if_pos rfl, hfirst]
        · exact fun hb => List.forall_mem_cons.mpr ⟨ha, hall hb⟩
    · exact ⟨[], a, ls, rfl, by simp, by simp [firstNonempty, ha], fun h => absurd h ha⟩

theorem Index.Starts.ne_nil {absolute : Bool} (hs : index.Starts ns absolute starts) : starts ≠ [] := by
  cases hs with
  | absolute => simp
  | relative ha => cases ha <;> simp

theorem exists_starts (h : index.NamespacesWF) (hns : index.atPath path = some ns) (absolute : Bool) :
    ∃ starts, index.Starts ns absolute starts := by
  cases absolute with
  | true => exact ⟨_, .absolute⟩
  | false =>
    obtain ⟨starts, ha⟩ := exists_around h hns
    exact ⟨starts, .relative ha⟩

/-! ## `FindProc` on a plain name -/

/-- The rows of a table stand in the order of their ids. -/
theorem RefRecord.WF.ordered {ρ : Type} [Row ρ] {r : RefRecord ρ} (h : r.WF) :
    (r.table.map Row.id).Pairwise (· < ·) := by
  rw [List.pairwise_map, List.pairwise_iff_getElem]
  intro i j hi hj hlt
  have hid : ∀ k (hk : k < r.table.length), Row.id r.table[k] = k + 1 := fun k hk =>
    h.ids (k + 1) _ (by simp [RefRecord.row, hk])
  rw [hid i hi, hid j hj]
  omega

theorem procsFrom_ordered (h : index.procs.WF) (parts : List Str) (name : Str) (start : Nat) :
    ((index.procsFrom parts name start).map Proc.id).Pairwise (· < ·) :=
  h.ordered.sublist (List.filter_sublist.map Proc.id)

/-- `FindProc` returns, in the order of their ids, the procs with the last component as their name in
the namespace that the other components lead to: from the global namespace when the name is absolute,
and otherwise from the nearest namespace around the use from which they lead to any such proc. -/
theorem findProc_nearest {operations : List Operation}
    (h : Run Operation.Step makeIndex operations index) (hns : index.HasNamespace ns) {init : List Str}
    {last : Str} (hplain : Plain (init ++ [last])) (absolute : Bool) : ∃ procs index' starts,
      findProc index ns (nameOf absolute (init ++ [last])) = .ok (procs, index') ∧
      index.Starts ns absolute starts ∧ index.FromNearest init last starts procs ∧
      (procs.map Proc.id).Pairwise (· < ·) := by
  have hwf := reachable_wf h
  obtain ⟨path, hpath⟩ := (hasNamespace_iff hwf.namespaces).mp hns
  obtain ⟨hparts, habs, hname⟩ := namespaceParts_nameOf hplain absolute
  obtain ⟨starts, hs⟩ := exists_starts hwf.namespaces hpath absolute
  rcases findProc_spec hwf hpath (nameOf absolute (init ++ [last])) with
    ⟨parts, index', hparts', hfind, -, -⟩ | ⟨fault, hfault, -⟩
  · have hnearest := nearest_eq_firstNonempty hwf.namespaces hpath hparts (habs.symm ▸ hs)
    rw [hname] at hnearest
    obtain ⟨before, nearest, after, hsplit, hbefore, hfirst, hall⟩ :=
      firstNonempty_split (index.procsFrom init last) hs.ne_nil
    rw [← hnearest] at hfirst
    refine ⟨_, index', starts, hfind, hs, ⟨before, nearest, after, hsplit, hbefore, hfirst, ?_⟩, ?_⟩
    · exact fun hnil => hall (hfirst.symm.trans hnil)
    · rw [hfirst]
      exact procsFrom_ordered hwf.procs init last nearest
  · rw [hparts] at hfault
    cases hfault

/-- `proc f {} {}` and `namespace eval A {namespace eval B {proc C::f {} {}}}`. -/
def nestedProcs : Script :=
  { location := lineLocation 0
    commands :=
      [⟨.PROC, [textWord 0 "proc", textWord 5 "f", listWord 7 "" [], scriptWord 10 "" []], []⟩,
        ⟨.NAMESPACE_EVAL, [textWord 14 "namespace", textWord 24 "eval", textWord 29 "A",
          scriptWord 31 "namespace eval B {proc C::f {} {}}" [⟨.NAMESPACE_EVAL, [textWord 32 "namespace",
            textWord 42 "eval", textWord 47 "B", scriptWord 49 "proc C::f {} {}"
              [⟨.PROC, [textWord 50 "proc", textWord 55 "C::f", listWord 60 "" [],
                scriptWord 63 "" []], bytes "::A::B"⟩]], bytes "::A"⟩]], []⟩] }

/-- From `B`, whose id is 3, the name `C::f` means the second proc. -/
theorem nestedProcs_nearest : ∃ index,
    Run Operation.Step makeIndex [.scanScript ⟨[1]⟩ nestedProcs] index ∧ ∃ procs index' starts,
      findProc index 3 (nameOf false ([bytes "C"] ++ [bytes "f"])) = .ok (procs, index') ∧
      index.Starts 3 false starts ∧ index.FromNearest [bytes "C"] (bytes "f") starts procs ∧
      (procs.map Proc.id).Pairwise (· < ·) := by
  obtain ⟨index, h, htest⟩ := exists_of_returns (show returns
    ((Operation.scanScript ⟨[1]⟩ nestedProcs).perform makeIndex)
      (fun index => returns (index.namespaces.get 3) fun n => n.name = bytes "B") = true by
    decide +kernel)
  have hrun : Run Operation.Step makeIndex [.scanScript ⟨[1]⟩ nestedProcs] index :=
    .single ⟨⟨List.cons_ne_nil _ _, List.forall_mem_singleton.mpr ⟨_, rfl⟩⟩, h⟩
  obtain ⟨n, hn, -⟩ := exists_of_returns htest
  exact ⟨index, hrun, findProc_nearest hrun ⟨n, hn⟩ (by decide +kernel) false⟩

end TclAnalyzer
