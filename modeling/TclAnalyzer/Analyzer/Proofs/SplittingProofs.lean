import TclAnalyzer.Analyzer.Splitting
import TclAnalyzer.Analyzer.Samples
import TclAnalyzer.Analyzer.Proofs.NameProofs
import TclAnalyzer.Analyzer.Proofs.OperationsProofs

/-!
# `SplitName` and `SplitPath` on runs of colons

`SplitPath` takes the separators of a run of colons from the left and leaves a single colon at the end
of an odd run; `SplitName` takes the last separator from the right. The two cut a name in the same
places when the run with the last separator is even.
-/

namespace TclAnalyzer

/-! ## The length of the last run of colons -/

/-- Whether the run of colons at the end so far is odd, after one more byte. -/
def runStep (odd : Bool) (c : UInt8) : Bool := decide (c = colon) && !odd

/-- The string ends with an odd run of colons. -/
def oddRun (s : Str) : Bool := s.foldl runStep false

theorem oddRun_concat (s : Str) (c : UInt8) : oddRun (s ++ [c]) = runStep (oddRun s) c := by
  rw [oddRun, List.foldl_append]
  rfl

theorem oddRun_of_getLast? {s : Str} (h : s.getLast? ≠ some colon) : oddRun s = false := by
  rcases List.eq_nil_or_concat s with rfl | ⟨init, c, rfl⟩
  · rfl
  · rw [List.concat_eq_append] at h ⊢
    have hc : ¬ c = colon := by simpa using h
    rw [oddRun_concat, runStep, decide_eq_false hc, Bool.false_and]

theorem oddRun_replicate {before : Str} (h : before.getLast? ≠ some colon) (n : Nat) :
    oddRun (before ++ List.replicate n colon) = decide (n % 2 = 1) := by
  induction n with
  | zero =>
    rw [List.replicate_zero, List.append_nil]
    exact oddRun_of_getLast? h
  | succ n ih =>
    rw [List.replicate_succ', ← List.append_assoc, oddRun_concat, ih, runStep, decide_eq_true rfl,
      Bool.true_and]
    rcases Nat.mod_two_eq_zero_or_one n with hn | hn
    · have hsucc : (n + 1) % 2 = 1 := by omega
      simp [hn, hsucc]
    · have hsucc : (n + 1) % 2 = 0 := by omega
      simp [hn, hsucc]

/-- Every string ends with a run of colons, which may be empty. -/
theorem exists_run (s : Str) :
    ∃ before n, s = before ++ List.replicate n colon ∧ before.getLast? ≠ some colon := by
  induction s using List.reverseRecOn with
  | nil => exact ⟨[], 0, rfl, by simp⟩
  | append_singleton s c ih =>
    by_cases hc : c = colon
    · obtain ⟨before, n, rfl, hbefore⟩ := ih
      refine ⟨before, n + 1, ?_, hbefore⟩
      rw [hc, List.replicate_succ', List.append_assoc]
    · exact ⟨s ++ [c], 0, by simp, by simpa using hc⟩

/-- Without a separator the run at the end is a colon or nothing. -/
theorem oddRun_of_free {s : Str} (h : SeparatorFree s) :
    oddRun s = true ↔ s.getLast? = some colon := by
  rcases List.eq_nil_or_concat s with rfl | ⟨init, c, rfl⟩
  · exact iff_of_false (by decide) (by simp)
  · rw [List.concat_eq_append] at h ⊢
    have hchain := List.isChain_append.mp h
    rw [oddRun_concat, List.getLast?_concat, Option.some.injEq, runStep]
    by_cases hc : c = colon
    · subst hc
      have hinit : oddRun init = false := by
        refine oddRun_of_getLast? fun hlast => ?_
        exact hchain.2.2 colon hlast colon rfl ⟨rfl, rfl⟩
      rw [hinit]
      simp
    · simp [hc]

/-- The last component of a path ends with a colon exactly when the path ends with an odd run. The
component read so far and the next byte have no separator in them. -/
theorem splitPathFrom_last (component s : Str) (h : SeparatorFree (component ++ s.take 1)) :
    ∃ last, (splitPathFrom component s).getLast? = some last ∧
      (last.getLast? = some colon ↔ oddRun (component ++ s) = true) := by
  fun_induction splitPathFrom component s with
  | case1 component =>
    rw [List.take_nil, List.append_nil] at h
    refine ⟨component, rfl, ?_⟩
    rw [List.append_nil]
    exact (oddRun_of_free h).symm
  | case2 component c => exact ⟨component ++ [c], rfl, (oddRun_of_free h).symm⟩
  | case3 component c d rest hsep ih =>
    obtain ⟨rfl, rfl⟩ := hsep
    have hchain := List.isChain_append.mp h
    have hcomponent : oddRun component = false := by
      refine oddRun_of_getLast? fun hlast => ?_
      exact hchain.2.2 colon hlast colon rfl ⟨rfl, rfl⟩
    have hrest : SeparatorFree ([] ++ rest.take 1) := by
      cases rest with
      | nil => exact .nil
      | cons e rest => exact .singleton e
    obtain ⟨last, hlast, hiff⟩ := ih hrest
    refine ⟨last, ?_, ?_⟩
    · rw [List.getLast?_cons_of_ne_nil (splitPathFrom_ne_nil _ _)]
      exact hlast
    · have hskip : oddRun (component ++ colon :: colon :: rest) = oddRun rest := by
        rw [oddRun, List.foldl_append, List.foldl_cons, List.foldl_cons]
        change rest.foldl runStep (runStep (runStep (oddRun component) colon) colon) = _
        rw [hcomponent]
        rfl
      rw [hskip]
      exact hiff
  | case4 component c d rest hsep ih =>
    obtain ⟨last, hlast, hiff⟩ := ih (separatorFree_concat h hsep)
    refine ⟨last, hlast, ?_⟩
    rw [hiff, List.append_assoc, List.singleton_append]

theorem splitPath_last (s : Str) : ∃ last, (splitPath s).getLast? = some last ∧
    (last.getLast? = some colon ↔ oddRun s = true) := by
  refine splitPathFrom_last [] s ?_
  cases s with
  | nil => exact .nil
  | cons c s => exact .singleton c

/-! ## The last separator of a path -/

/-- A path is cut at its last separator when it does not come after an odd run of colons. -/
theorem splitPath_append_iff {path name : Str} (hfree : SeparatorFree name) :
    splitPath (path ++ separator ++ name) = splitPath path ++ [name] ↔ oddRun path = false := by
  obtain ⟨last, hlast, hodd⟩ := splitPath_last path
  obtain ⟨init, hinit⟩ : ∃ init, splitPath path = init ++ [last] := by
    refine ⟨(splitPath path).dropLast, ?_⟩
    exact (List.dropLast_append_getLast? last hlast).symm
  obtain ⟨hparts, hcolons⟩ := splits_splitPath path
  rw [← Bool.not_eq_true, ← hodd]
  constructor
  · intro heq hcolon
    have hsplits := splits_splitPath (path ++ separator ++ name)
    rw [heq] at hsplits
    exact hsplits.2 last (by simp [hinit]) hcolon
  · intro hcolon
    have hsplits : Splits (splitPath path ++ [name]) := by
      constructor
      · intro component hmem
        rcases List.mem_append.mp hmem with hmem | hmem
        · exact hparts component hmem
        · rw [List.mem_singleton.mp hmem]
          exact hfree
      · rw [List.dropLast_concat, hinit]
        intro component hmem
        rcases List.mem_append.mp hmem with hmem | hmem
        · exact hcolons component (by simpa [hinit] using hmem)
        · rw [List.mem_singleton.mp hmem]
          exact hcolon
    have hstring : (pathString (splitPath path ++ [name])).drop 2 = path ++ separator ++ name := by
      rw [pathString_append, pathString_splitPath, pathString_cons, pathString_nil, List.append_nil]
      simp [separator]
    rw [← hstring]
    exact splitPath_pathString hsplits (by simp)

/-- A separator at the end leaves an empty component behind. -/
theorem dropEmptyLast_eq_iff {path : Str} :
    dropEmptyLast (splitPath (path ++ separator)) = splitPath path ↔ oddRun path = false := by
  have hempty : splitPath (path ++ separator ++ []) = splitPath path ++ [[]] ↔ oddRun path = false :=
    splitPath_append_iff .nil
  rw [List.append_nil] at hempty
  rw [← hempty, dropEmptyLast]
  constructor
  · intro heq
    by_cases hlast : (splitPath (path ++ separator)).getLast? = some []
    · rw [if_pos hlast] at heq
      rw [← heq, List.dropLast_append_getLast? [] hlast]
    · -- the two paths would be equal
      rw [if_neg hlast] at heq
      have hstring := congrArg (fun parts => (pathString parts).length) heq
      simp [pathString_splitPath] at hstring
  · intro heq
    rw [heq, List.getLast?_concat, if_pos rfl, List.dropLast_concat]

/-! ## A name with a separator -/

section Qualified

variable {ns name : Str} (hfree : SeparatorFree (colon :: name))

include hfree

/-- The run with the last separator goes on to the left of it. -/
theorem lastRunEven_append_iff : LastRunEven (ns ++ separator ++ name) ↔ oddRun ns = false := by
  obtain ⟨hhead, hname⟩ := separatorFree_colon.mp hfree
  constructor
  · intro heven
    obtain ⟨before, n, rfl, hbefore⟩ := exists_run ns
    have hrun : before ++ List.replicate n colon ++ separator ++ name =
        before ++ List.replicate (n + 2) colon ++ name := by
      rw [List.replicate_add, ← List.append_assoc before]
      rfl
    have hn := heven before (n + 2) name hrun hbefore hhead hname (by omega)
    rw [oddRun_replicate hbefore]
    simp
    omega
  · intro hodd before n after heq hbefore hafter hafterFree hn
    obtain ⟨m, rfl⟩ : ∃ m, n = m + 2 := ⟨n - 2, by omega⟩
    have hrun : before ++ List.replicate (m + 2) colon ++ after =
        before ++ List.replicate m colon ++ separator ++ after := by
      rw [List.replicate_add, ← List.append_assoc before]
      rfl
    rw [hrun] at heq
    -- both are cut at the last separator
    have hpos := rfindSeparator_append ns name hfree
    rw [heq, rfindSeparator_append _ _ (separatorFree_colon.mpr ⟨hafter, hafterFree⟩)] at hpos
    have hlength := Option.some.inj hpos
    rw [List.append_assoc, List.append_assoc _ separator] at heq
    obtain ⟨rfl, -⟩ := List.append_inj heq hlength.symm
    rw [oddRun_replicate hbefore] at hodd
    simp at hodd
    omega

theorem separator_suffix_iff : separator <:+ ns ++ separator ++ name ↔ name = [] := by
  constructor
  · rintro ⟨before, heq⟩
    by_contra hne
    have hpos := rfindSeparator_append ns name hfree
    have hend := rfindSeparator_append before [] (by simp [SeparatorFree])
    rw [List.append_nil] at hend
    rw [← heq, hend] at hpos
    have hlength := congrArg List.length heq
    have hname := List.length_pos_iff.mpr hne
    simp only [List.length_append, separator_length] at hlength
    have hbefore := Option.some.inj hpos
    omega
  · rintro rfl
    rw [List.append_nil]
    exact List.suffix_append _ _

/-- The components of the name after a prefix of the namespace part is cut off on both sides. -/
theorem trimmed_eq_iff (path : Str) :
    (if separator <:+ ns ++ separator ++ name then
        dropEmptyLast (splitPath (path ++ separator ++ name))
      else splitPath (path ++ separator ++ name)) =
      (if name = [] then splitPath path else splitPath path ++ [name]) ↔ oddRun path = false := by
  by_cases hname : name = []
  · rw [if_pos ((separator_suffix_iff hfree).mpr hname), if_pos hname, hname, List.append_nil]
    exact dropEmptyLast_eq_iff
  · rw [if_neg fun h => hname ((separator_suffix_iff hfree).mp h), if_neg hname]
    exact splitPath_append_iff (separatorFree_colon.mp hfree).2

theorem splitsAgree_iff {path : Str} (hns : (splitName (ns ++ separator ++ name)).name = name)
    (hparts : (splitName (ns ++ separator ++ name)).namespaceParts = .ok (splitPath path))
    (hpath : (if (splitName (ns ++ separator ++ name)).absolute then
        dropEmptyHead (splitPath (ns ++ separator ++ name))
      else splitPath (ns ++ separator ++ name)) = splitPath (path ++ separator ++ name)) :
    SplitsAgree (ns ++ separator ++ name) ↔ oddRun path = false := by
  have hall : (splitName (ns ++ separator ++ name)).parts =
      .ok (if name = [] then splitPath path else splitPath path ++ [name]) := by
    rw [QualifiedName.parts, hparts, hns]
    rfl
  rw [SplitsAgree, hparts, hall, trimmedPath, hpath, ← trimmed_eq_iff hfree path]
  constructor
  · rintro ⟨-, heq⟩
    exact (Except.ok.inj heq).symm
  · intro heq
    exact ⟨⟨_, rfl⟩, congrArg Except.ok heq.symm⟩

end Qualified

theorem splitPath_separator (s : Str) : splitPath (separator ++ s) = [] :: splitPath s := by
  have h := splitPathFrom_separator [] s (s := []) .nil (by simp)
  rwa [List.nil_append] at h

theorem splitsAgree_append_iff {ns name : Str} (hfree : SeparatorFree (colon :: name))
    (hne : ns ≠ [] ∨ name ≠ []) : SplitsAgree (ns ++ separator ++ name) ↔ oddRun ns = false := by
  have hsplit := splitName_append hfree hne
  have hname : (splitName (ns ++ separator ++ name)).name = name := by rw [hsplit]
  by_cases habs : (ns ++ separator).take 2 = separator
  · match ns with
    | [] =>
      have hname' : name ≠ [] := by simpa using hne
      have hpath : splitPath ([] ++ separator ++ name) = [[], name] := by
        rw [List.nil_append, splitPath_separator, splitPath,
          splitPathFrom_of_free [] (separatorFree_colon.mp hfree).2]
        rfl
      have hsuffix : ¬ separator <:+ [] ++ separator ++ name := fun h =>
        hname' ((separator_suffix_iff hfree).mp h)
      refine iff_of_true ⟨⟨[], ?_⟩, ?_⟩ rfl
      · rw [hsplit]
        rfl
      · rw [trimmedPath, hpath, if_neg hsuffix, hsplit]
        simp [QualifiedName.parts, QualifiedName.namespaceParts, hname', separator, dropEmptyHead,
          ok_bind, pure_eq_ok]
    | [c] =>
      have hc : c = colon := by
        simp [separator] at habs
        exact habs
      subst hc
      refine iff_of_false ?_ (by decide)
      rintro ⟨⟨nsParts, hparts⟩, -⟩
      rw [hsplit] at hparts
      cases hparts
    | c :: d :: path =>
      have hcd : c = colon ∧ d = colon := by
        simp [separator] at habs
        exact habs
      obtain ⟨rfl, rfl⟩ := hcd
      have hodd : oddRun (colon :: colon :: path) = oddRun path := rfl
      rw [hodd]
      refine splitsAgree_iff hfree hname ?_ ?_
      · rw [hsplit]
        rfl
      · have hpath : splitPath (colon :: colon :: path ++ separator ++ name) =
            [] :: splitPath (path ++ separator ++ name) :=
          splitPath_separator (path ++ separator ++ name)
        rw [hsplit, hpath]
        rfl
  · refine splitsAgree_iff hfree hname ?_ ?_
    · rw [hsplit]
      simp [QualifiedName.namespaceParts, habs]
    · rw [hsplit]
      simp [habs]

/-! ## Every name -/

theorem splitsAgree_iff_lastRunEven (s : Str) : SplitsAgree s ↔ LastRunEven s := by
  rcases splitName_cases s with ⟨rfl | rfl, -⟩ | ⟨hfree, hne, hsplit⟩ | ⟨ns, name, rfl, hfree, hne⟩
  · refine iff_of_true ⟨⟨[], rfl⟩, by decide +kernel⟩ ?_
    intro before n after heq _ _ _ hn
    have hlength := congrArg List.length heq
    simp at hlength
    omega
  · refine iff_of_true ⟨⟨[], rfl⟩, by decide +kernel⟩ ?_
    have h : LastRunEven ([] ++ separator ++ []) :=
      (lastRunEven_append_iff (by simp [SeparatorFree])).mpr rfl
    rwa [List.nil_append, List.append_nil] at h
  · have hpath : splitPath s = [s] := splitPathFrom_of_free [] hfree
    have hsuffix : ¬ separator <:+ s := by
      rintro ⟨before, rfl⟩
      exact (List.isChain_append.mp hfree).2.1.rel ⟨rfl, rfl⟩
    refine iff_of_true ⟨⟨[], ?_⟩, ?_⟩ ?_
    · rw [hsplit]
      rfl
    · rw [trimmedPath, hpath, if_neg hsuffix, hsplit]
      simp [QualifiedName.parts, QualifiedName.namespaceParts, hne]
    · intro before n after heq _ _ _ hn
      obtain ⟨m, rfl⟩ : ∃ m, n = m + 2 := ⟨n - 2, by omega⟩
      rw [heq, List.append_assoc] at hfree
      have hrun := (List.isChain_append.mp hfree).2.1
      rw [List.replicate_succ, List.replicate_succ, List.cons_append, List.cons_append] at hrun
      exact absurd ⟨rfl, rfl⟩ hrun.rel
  · rw [splitsAgree_append_iff hfree hne, lastRunEven_append_iff hfree]

/-- Every use of a name that has its components goes through. -/
theorem safeToIndex {s : Str} {nsParts : List Str} (h : (splitName s).namespaceParts = .ok nsParts) :
    SafeToIndex s := by
  intro operations index ns hrun hns
  have hwf := reachable_wf hrun
  obtain ⟨path, hpath⟩ := (hasNamespace_iff hwf.namespaces).mp hns
  constructor
  · rcases resolveNamespace_spec hwf.namespaces (splitName s) hpath with
      ⟨-, ns', index', -, hresolved, -⟩ | ⟨fault, hfault, -⟩
    · exact ⟨_, hresolved⟩
    · cases h.symm.trans hfault
  · rcases findProc_spec hwf hpath s with ⟨-, index', -, hfound, -⟩ | ⟨fault, hfault, -⟩
    · exact ⟨_, hfound⟩
    · cases h.symm.trans hfault

/-- The components of a name are defined, those of its path, and safe to index with exactly when the
run of colons with its last separator is even. -/
theorem splitName_parts_iff (s : Str) : SplitsAgree s ∧ SafeToIndex s ↔ LastRunEven s := by
  rw [← splitsAgree_iff_lastRunEven]
  refine ⟨And.left, fun h => ⟨h, ?_⟩⟩
  obtain ⟨⟨nsParts, hparts⟩, -⟩ := h
  exact safeToIndex hparts

/-- The script `:::b`. -/
def threeColons : Script :=
  { location := lineLocation 0, commands := [⟨.USER, [textWord 0 ":::b"], []⟩] }

/-- A run of three colons: between two components the splits differ, and before the first one the
namespace has no parts and `Build` fails. -/
theorem threeColons_fails :
    (splitName (bytes "a:::b")).parts = .ok [bytes "a:", bytes "b"] ∧
    trimmedPath (bytes "a:::b") = [bytes "a", bytes ":b"] ∧ ¬ SplitsAgree (bytes "a:::b") ∧
    (splitName (bytes ":::b")).namespaceParts = .error .outOfRange ∧
    faultOf (buildNew threeColons) = some .outOfRange := by
  have hparts : (splitName (bytes "a:::b")).parts = .ok [bytes "a:", bytes "b"] := rfl
  have hpath : trimmedPath (bytes "a:::b") = [bytes "a", bytes ":b"] := by decide +kernel
  refine ⟨hparts, hpath, ?_, rfl, by decide +kernel⟩
  rintro ⟨-, hagree⟩
  rw [hparts, hpath] at hagree
  exact absurd (Except.ok.inj hagree) (by decide +kernel)

end TclAnalyzer
