import TclAnalyzer.Analyzer.Lookup
import TclAnalyzer.Analyzer.Samples
import TclAnalyzer.Data.LastFit

/-!
# `BestFitProcToCall` selects by the number of arguments

The loop takes the first candidate as it is, goes on to each later one that accepts the call, and stops
at an exact one. So a candidate that accepts the call is selected whenever there is one, but an exact
one that is taken first can lose to a later one.
-/

namespace TclAnalyzer

variable {numArgs : Nat} {procs procs' rest : List Proc} {first proc : Proc} {call : Call}

theorem Proc.Exact.accepts (h : proc.Exact numArgs) : proc.Accepts numArgs := by
  unfold Proc.Exact at h
  refine .inl ⟨?_, ?_⟩
  · omega
  · omega

/-- One turn of the loop once a candidate is taken. -/
theorem bestFitFrom_cons : bestFitFrom numArgs (some first) (proc :: rest) =
    if proc.Exact numArgs then some proc
    else bestFitFrom numArgs (some (if proc.Accepts numArgs then proc else first)) rest := by
  have hsome : ¬ (some first).isNone = true := by simp
  rw [bestFitFrom, if_neg hsome]
  by_cases hexact : proc.Exact numArgs
  · have hlt : ¬ numArgs < proc.requiredArgs := by
      rw [hexact]
      exact Nat.lt_irrefl numArgs
    rw [if_neg hlt, if_pos hexact, if_pos hexact.symm]
  rw [if_neg hexact]
  have hne : ¬ numArgs = proc.requiredArgs := fun heq => hexact heq.symm
  by_cases hlt : numArgs < proc.requiredArgs
  · have hnot : ¬ proc.Accepts numArgs := by
      rintro (⟨hle, -⟩ | ⟨hle, -⟩)
      · omega
      · omega
    rw [if_pos hlt, if_neg hnot]
  rw [if_neg hlt, if_neg hne]
  by_cases hopt : numArgs ≤ proc.requiredArgs + proc.optionalArgs
  · have haccepts : proc.Accepts numArgs := .inl ⟨by omega, hopt⟩
    rw [if_pos hopt, if_pos haccepts]
  rw [if_neg hopt]
  by_cases hvariadic : proc.isVariadic = true
  · have haccepts : proc.Accepts numArgs := .inr ⟨by omega, hvariadic⟩
    rw [if_pos hvariadic, if_pos haccepts]
  · have hnot : ¬ proc.Accepts numArgs := by
      rintro (⟨-, hle⟩ | ⟨-, htrue⟩)
      · exact hopt hle
      · exact hvariadic htrue
    rw [if_neg hvariadic, if_neg hnot]

/-- The induction is on the candidates that are left; the one taken changes on the way. -/
theorem bestFitFrom_eq_lastFit (numArgs : Nat) (first : Proc) (rest : List Proc) :
    bestFitFrom numArgs (some first) rest =
      some (lastFit (Proc.Exact numArgs) (Proc.Accepts numArgs) first rest) := by
  induction rest generalizing first with
  | nil => rfl
  | cons proc rest ih =>
    rw [bestFitFrom_cons]
    by_cases hexact : proc.Exact numArgs
    · rw [if_pos hexact, lastFit_cons_exact hexact]
    · rw [if_neg hexact, lastFit_cons hexact]
      exact ih _

theorem bestFitProcToCall_cons (hn : call.words.length = numArgs + 1) :
    bestFitProcToCall (first :: rest) call =
      some (lastFit (Proc.Exact numArgs) (Proc.Accepts numArgs) first rest) := by
  have hcount : call.words.length - 1 = numArgs := by omega
  have hnone : (none : Option Proc).isNone = true := rfl
  rw [bestFitProcToCall, hcount, bestFitFrom, if_pos hnone]
  exact bestFitFrom_eq_lastFit numArgs first rest

/-- A candidate is selected exactly when there is one, and it accepts the call if any of them does. -/
theorem bestFitProcToCall_accepts (procs : List Proc) (hn : call.words.length = numArgs + 1) :
    ((bestFitProcToCall procs call).isSome ↔ procs ≠ []) ∧
    ((∃ p ∈ procs, p.Accepts numArgs) →
      ∃ q ∈ procs, bestFitProcToCall procs call = some q ∧ q.Accepts numArgs) := by
  cases procs with
  | nil =>
    refine ⟨by simp [bestFitProcToCall, bestFitFrom], ?_⟩
    rintro ⟨p, hp, -⟩
    cases hp
  | cons first rest =>
    rw [bestFitProcToCall_cons hn]
    refine ⟨by simp, fun h => ?_⟩
    exact ⟨_, lastFit_mem, rfl, lastFit_fits (fun _ => Proc.Exact.accepts) h⟩

/-- The proc of `proc p {a b} {}`. -/
def strictProc : Proc :=
  { id := 1, name := bytes "p", arguments := [1, 2], isVariadic := false, requiredArgs := 2
    optionalArgs := 0, parentNamespace := 1 }

/-- The proc of `proc p {a {b 1}} {}`. -/
def lenientProc : Proc :=
  { id := 2, name := bytes "p", arguments := [3, 4], isVariadic := false, requiredArgs := 1
    optionalArgs := 1, parentNamespace := 1 }

/-- The call `p 1 2`. -/
def twoArgsCall : Call :=
  ⟨.USER, [textWord 36 "p", textWord 38 "1", textWord 40 "2"], []⟩

theorem twoProcs_accepts :
    ((bestFitProcToCall [strictProc, lenientProc] twoArgsCall).isSome ↔
      [strictProc, lenientProc] ≠ []) ∧
    ((∃ p ∈ [strictProc, lenientProc], p.Accepts 2) →
      ∃ q ∈ [strictProc, lenientProc],
        bestFitProcToCall [strictProc, lenientProc] twoArgsCall = some q ∧ q.Accepts 2) :=
  bestFitProcToCall_accepts [strictProc, lenientProc] rfl

/-! ## Exact candidates -/

theorem exactWins_cons_iff (hn : call.words.length = numArgs + 1) :
    ExactWins (first :: rest) call numArgs ↔ ((∃ p ∈ first :: rest, p.Exact numArgs) →
      (lastFit (Proc.Exact numArgs) (Proc.Accepts numArgs) first rest).Exact numArgs) := by
  rw [ExactWins, bestFitProcToCall_cons hn]
  simp

theorem exactWins_iff (hn : call.words.length = numArgs + 1) :
    ExactWins procs call numArgs ↔ FirstSafe procs numArgs := by
  cases procs with
  | nil => exact iff_of_true (by simp [ExactWins]) fun first rest h => nomatch h
  | cons first rest =>
    have hsafe : FirstSafe (first :: rest) numArgs ↔ (first.Exact numArgs →
        (∃ p ∈ rest, p.Exact numArgs) ∨ ∀ p ∈ rest, ¬ p.Accepts numArgs) := by
      constructor
      · exact fun h => h first rest rfl
      · rintro h first' rest' heq
        cases heq
        exact h
    rw [exactWins_cons_iff hn, hsafe]
    by_cases hex : ∃ p ∈ first :: rest, p.Exact numArgs
    · rw [forall_prop_of_true hex]
      exact lastFit_exact_iff (fun _ => Proc.Exact.accepts) hex
    · refine iff_of_true (fun h => absurd h hex) fun hfirst => ?_
      exact absurd ⟨first, List.mem_cons_self, hfirst⟩ hex

/-- For a list of candidates and a permutation of it, and for all permutations of it: when an exact
candidate is selected if there is one. -/
theorem bestFitProcToCall_exact_iff (hn : call.words.length = numArgs + 1)
    (hperm : procs.Perm procs') :
    (ExactWins procs call numArgs ∧ ExactWins procs' call numArgs ↔
      FirstSafe procs numArgs ∧ FirstSafe procs' numArgs) ∧
    ((∀ order, procs'.Perm order → ExactWins order call numArgs) ↔
      (procs.countP (fun p => p.Exact numArgs) = 1 →
        procs.countP (fun p => p.Accepts numArgs) = 1)) := by
  rw [exactWins_iff hn, exactWins_iff hn, hperm.countP_eq, hperm.countP_eq]
  refine ⟨Iff.rfl, ?_⟩
  rw [← lastFit_exact_perm_iff (fun _ => Proc.Exact.accepts) procs']
  constructor
  · intro hall first rest horder
    exact (exactWins_cons_iff hn).mp (hall _ horder)
  · intro hall order horder
    cases order with
    | nil => simp [ExactWins]
    | cons first rest => exact (exactWins_cons_iff hn).mpr (hall first rest horder)

/-- `proc p {a b} {};proc p {a {b 1}} {};p 1 2`. -/
def twoProcs : Script :=
  { location := lineLocation 0
    commands :=
      [⟨.PROC, [textWord 0 "proc", textWord 5 "p", listWord 8 "a b" [textWord 8 "a", textWord 10 "b"],
          scriptWord 14 "" []], []⟩,
        ⟨.PROC, [textWord 16 "proc", textWord 21 "p", listWord 24 "a {b 1}" [textWord 24 "a",
          listWord 27 "b 1" [textWord 27 "b", textWord 29 "1"]], scriptWord 34 "" []], []⟩,
        twoArgsCall] }

/-- The call selects the second proc, which is not exact, and the first one when the two stand the
other way round. -/
theorem twoProcs_not_exactWins :
    (∃ result, buildNew twoProcs = .ok result ∧
      result.index.procs.table = [strictProc, lenientProc] ∧
      result.indexed.map Visit.fit = [none, none, some 2]) ∧
    [strictProc, lenientProc].Perm [lenientProc, strictProc] ∧ strictProc.Exact 2 ∧
    bestFitProcToCall [lenientProc, strictProc] twoArgsCall = some strictProc ∧
    bestFitProcToCall [strictProc, lenientProc] twoArgsCall = some lenientProc ∧
    ¬ ExactWins [strictProc, lenientProc] twoArgsCall 2 := by
  have hselected : bestFitProcToCall [strictProc, lenientProc] twoArgsCall = some lenientProc := rfl
  refine ⟨?_, List.Perm.swap _ _ _, rfl, rfl, rfl, ?_⟩
  · obtain ⟨result, h, htest⟩ := exists_of_returns (show returns (buildNew twoProcs) (fun result =>
      decide (result.index.procs.table = [strictProc, lenientProc] ∧
        result.indexed.map Visit.fit = [none, none, some 2])) = true by decide +kernel)
    obtain ⟨htable, hfits⟩ := of_decide_eq_true htest
    exact ⟨result, h, htable, hfits⟩
  · intro hwins
    obtain ⟨q, hq, hexact⟩ := hwins ⟨strictProc, List.mem_cons_self, rfl⟩
    cases hselected.symm.trans hq
    exact absurd hexact (by decide)

/-- Of two procs with two arguments each, one is selected in either order. -/
theorem twoProcs_exact_iff :
    ((ExactWins [strictProc, lenientProc] twoArgsCall 2 ∧
        ExactWins [lenientProc, strictProc] twoArgsCall 2 ↔
      FirstSafe [strictProc, lenientProc] 2 ∧ FirstSafe [lenientProc, strictProc] 2) ∧
    ((∀ order, [lenientProc, strictProc].Perm order → ExactWins order twoArgsCall 2) ↔
      ([strictProc, lenientProc].countP (fun p => p.Exact 2) = 1 →
        [strictProc, lenientProc].countP (fun p => p.Accepts 2) = 1))) ∧
    ∀ order, [strictProc, strictProc].Perm order → ExactWins order twoArgsCall 2 := by
  constructor
  · exact bestFitProcToCall_exact_iff rfl (List.Perm.swap _ _ _)
  · exact (bestFitProcToCall_exact_iff rfl (List.Perm.refl _)).2.mpr (by decide)

end TclAnalyzer
