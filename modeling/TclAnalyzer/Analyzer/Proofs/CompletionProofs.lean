import TclAnalyzer.Analyzer.Proofs.BuildProofs

/-!
# Whether a pass completes depends on the script alone

A turn that completes on one sound index completes on any other with the namespace it is in.
-/

namespace TclAnalyzer

variable {index index' : Index}

/-! ## Steps of a turn -/

theorem resolveNamespace_completes (h : index.NamespacesWF) {qn : QualifiedName} {parts : List Str}
    (hparts : qn.namespaceParts = .ok parts) {path : Path} {ns : Nat}
    (hns : index.atPath path = some ns) : ∃ res, resolveNamespace index qn ns = .ok res := by
  rcases resolveNamespace_spec h qn hns with ⟨-, ns', index', -, hres, -⟩ | ⟨fault, hf, -⟩
  · exact ⟨(ns', index'), hres⟩
  · cases hparts.symm.trans hf

theorem namespaceParts_of_resolveNamespace (h : index.NamespacesWF) {qn : QualifiedName}
    {path : Path} {ns : Nat} (hns : index.atPath path = some ns) {res : Nat × Index}
    (hres : resolveNamespace index qn ns = .ok res) : ∃ parts, qn.namespaceParts = .ok parts := by
  rcases resolveNamespace_spec h qn hns with ⟨parts, -, -, hparts, -⟩ | ⟨fault, -, hf⟩
  · exact ⟨parts, hparts⟩
  · cases hres.symm.trans hf

theorem addArgument_completes {proc : Proc} {arg : Word} {isLast : Bool} {res : Proc × Str}
    (h : addArgument proc arg isLast = .ok res) (proc' : Proc) :
    ∃ res', addArgument proc' arg isLast = .ok res' := by
  unfold addArgument at h ⊢
  dsimp only at h ⊢
  by_cases htype : arg.type = .TEXT
  · simp only [htype, if_true]
    split <;> exact ⟨_, rfl⟩
  · simp only [htype, if_false] at h ⊢
    cases hdata : arg.data with
    | words vec =>
      simp only [hdata] at h ⊢
      obtain ⟨first, hfirst, -⟩ := bind_eq_ok.mp h
      exact ⟨_, bind_eq_ok.mpr ⟨first, hfirst, rfl⟩⟩
    | nothing | arrayAccess | script =>
      rw [hdata] at h
      cases h

theorem addArguments_completes {proc : Proc} {args : List Word} {res : Proc × Index}
    (h : addArguments index proc args = .ok res) (proc' : Proc) (index' : Index) :
    ∃ res', addArguments index' proc' args = .ok res' := by
  induction args generalizing index proc index' proc' with
  | nil => exact ⟨_, rfl⟩
  | cons arg args ih =>
    obtain ⟨r, ha, h⟩ := bind_eq_ok.mp h
    obtain ⟨r', ha'⟩ := addArgument_completes ha proc'
    obtain ⟨res', hres'⟩ := ih h _ _
    exact ⟨res', bind_eq_ok.mpr ⟨r', ha', hres'⟩⟩

theorem addArgumentWord_completes {proc : Proc} {args : Word} {res : Proc × Index}
    (h : addArgumentWord index proc args = .ok res) (index' : Index) :
    ∃ res', addArgumentWord index' proc args = .ok res' := by
  unfold addArgumentWord at h ⊢
  by_cases htype : args.type = .LIST
  · simp only [htype, if_true] at h ⊢
    cases hdata : args.data with
    | words vec =>
      simp only [hdata] at h ⊢
      exact addArguments_completes h _ _
    | nothing | arrayAccess | script =>
      rw [hdata] at h
      cases h
  · exact ⟨(proc, index'), by simp [htype]⟩

/-- `AddProcToIndex` fails because of the words of the command only. -/
theorem addProcToIndex_completes (h : index.WF) (h' : index'.WF) {path path' : Path} {ns ns' : Nat}
    (hns : index.atPath path = some ns) (hns' : index'.atPath path' = some ns') {words : List Word}
    {res : Index} (hadd : addProcToIndex index ns words = .ok res) :
    ∃ res', addProcToIndex index' ns' words = .ok res' := by
  obtain ⟨nameWord, hname, hadd⟩ := bind_eq_ok.mp hadd
  obtain ⟨argsWord, hargs, hadd⟩ := bind_eq_ok.mp hadd
  obtain ⟨⟨proc, index1⟩, hword, hadd⟩ := bind_eq_ok.mp hadd
  obtain ⟨-, -, vars, rfl⟩ := addArgumentWord_ok hword
  obtain ⟨⟨target, index2⟩, hq, -⟩ := bind_eq_ok.mp hadd
  obtain ⟨⟨proc', index1'⟩, hword'⟩ := addArgumentWord_completes hword index'
  obtain ⟨-, -, vars', rfl⟩ := addArgumentWord_ok hword'
  have h1 : { index with vars }.WF := withVars_wf h
  have h1' : { index' with vars := vars' }.WF := withVars_wf h'
  have hns1 : { index with vars }.atPath path = some ns := hns
  have hns1' : { index' with vars := vars' }.atPath path' = some ns' := hns'
  rcases resolveQualified_spec h1.namespaces (splitName nameWord.text.bytes) hns1 with
    ⟨parts, -, -, hparts, -⟩ | ⟨fault, -, hf⟩
  · rcases resolveQualified_spec h1'.namespaces (splitName nameWord.text.bytes) hns1' with
      ⟨-, target', index2', -, hq', -⟩ | ⟨fault, hf, -⟩
    · exact ⟨_, bind_eq_ok.mpr ⟨nameWord, hname, bind_eq_ok.mpr ⟨argsWord, hargs,
        bind_eq_ok.mpr ⟨_, hword', bind_eq_ok.mpr ⟨_, hq', rfl⟩⟩⟩⟩⟩
    · cases hparts.symm.trans hf
  · cases hq.symm.trans hf

/-- The `USER` case fails because of the command word only. -/
theorem indexUsage_completes (h : index.WF) (h' : index'.WF) {path path' : Path} {ns ns' : Nat}
    (hns : index.atPath path = some ns) (hns' : index'.atPath path' = some ns') {call : Call}
    {res : Option Nat × Index} (hu : indexUsage index ns call = .ok res) :
    ∃ res', indexUsage index' ns' call = .ok res' := by
  obtain ⟨cmdWord, hword, hu⟩ := bind_eq_ok.mp hu
  obtain ⟨⟨procs, index1⟩, hfind, -⟩ := bind_eq_ok.mp hu
  rcases findProc_spec h hns cmdWord.text.bytes with ⟨parts, -, hparts, -⟩ | ⟨fault, -, hf⟩
  · rcases findProc_spec h' hns' cmdWord.text.bytes with ⟨-, index1', -, hfind', -⟩ | ⟨fault, hf, -⟩
    · rw [indexUsage, hword]
      cases hbest : bestFitProcToCall (index'.nearest path' cmdWord.text.bytes) call with
      | none =>
        exact ⟨(none, index1'), by simp [hfind', hbest]⟩
      | some p =>
        exact ⟨(some p.id, addCommandReference index1' cmdWord.location p .USAGE),
          by simp [hfind', hbest]⟩
    · cases hparts.symm.trans hf
  · cases hfind.symm.trans hf

/-! ## Turns -/

/-- A turn that returns once returns wherever its scope exists. -/
theorem scanVisit_completes {st st' : PassState} {site : Site Path} (h : st.index.WF)
    (hs : scanVisit st site = .ok st') (pos : Pos) : Passes scanVisit { site with pos } := by
  obtain ⟨here, ⟨type, words, callNs⟩, path⟩ := site
  rintro st2 h2 ⟨ns2, hns2⟩
  cases hns : st.index.atPath path with
  | none =>
    unfold scanVisit at hs
    rw [hns] at hs
    cases hs
  | some ns =>
    cases type with
    | NAMESPACE_EVAL =>
      rw [scanVisit_eval hns] at hs
      obtain ⟨word, hword, -⟩ := bind_eq_ok.mp hs
      have hname : (namespaceEvalName word).namespaceParts = .ok (splitPath word.text.bytes) := rfl
      obtain ⟨result, hres⟩ := resolveNamespace_completes h2.namespaces hname hns2
      rw [scanVisit_eval hns2]
      exact ⟨_, bind_eq_ok.mpr ⟨word, hword, bind_eq_ok.mpr ⟨result, hres, rfl⟩⟩⟩
    | PROC =>
      rw [scanVisit_proc hns] at hs
      obtain ⟨index', hadd, -⟩ := bind_eq_ok.mp hs
      obtain ⟨index2, hadd2⟩ := addProcToIndex_completes h h2 hns hns2 hadd
      rw [scanVisit_proc hns2]
      exact ⟨_, bind_eq_ok.mpr ⟨index2, hadd2, rfl⟩⟩
    | WHILE | FOR | FOREACH | IF | USER => exact ⟨_, scanVisit_other hns2 (by simp) (by simp)⟩

theorem indexVisit_completes {st st' : PassState} {site : Site Path} (h : st.index.WF)
    (hs : indexVisit st site = .ok st') (pos : Pos) : Passes indexVisit { site with pos } := by
  obtain ⟨here, ⟨type, words, callNs⟩, path⟩ := site
  rintro st2 h2 ⟨ns2, hns2⟩
  cases hns : st.index.atPath path with
  | none =>
    unfold indexVisit at hs
    rw [hns] at hs
    cases hs
  | some ns =>
    cases type with
    | NAMESPACE_EVAL =>
      rw [indexVisit_eval hns] at hs
      obtain ⟨word, hword, -⟩ := bind_eq_ok.mp hs
      have hname : (namespaceEvalName word).namespaceParts = .ok (splitPath word.text.bytes) := rfl
      obtain ⟨result, hres⟩ := resolveNamespace_completes h2.namespaces hname hns2
      rw [indexVisit_eval hns2]
      exact ⟨_, bind_eq_ok.mpr ⟨word, hword, bind_eq_ok.mpr ⟨result, hres, rfl⟩⟩⟩
    | PROC =>
      rw [indexVisit_proc hns] at hs
      obtain ⟨word, hword, hs⟩ := bind_eq_ok.mp hs
      obtain ⟨resolved, hres, -⟩ := bind_eq_ok.mp hs
      obtain ⟨parts, hname⟩ := namespaceParts_of_resolveNamespace h.namespaces hns hres
      obtain ⟨result, hres⟩ := resolveNamespace_completes h2.namespaces hname hns2
      rw [indexVisit_proc hns2]
      exact ⟨_, bind_eq_ok.mpr ⟨word, hword, bind_eq_ok.mpr ⟨result, hres, rfl⟩⟩⟩
    | USER =>
      rw [indexVisit_user hns] at hs
      obtain ⟨⟨fit, index'⟩, hu, -⟩ := bind_eq_ok.mp hs
      obtain ⟨result, hu2⟩ := indexUsage_completes h h2 hns hns2 hu
      rw [indexVisit_user hns2]
      exact ⟨_, bind_eq_ok.mpr ⟨result, hu2, rfl⟩⟩
    | WHILE | FOR | FOREACH | IF =>
      exact ⟨_, indexVisit_other hns2 (by simp) (by simp) (by simp)⟩

/-! ## Loops -/

/-- The calls of a loop that returns pass, wherever in a script they stand. -/
theorem Turns.passes {p : Pass Path} {turn : PassState → Site Path → Except Fault PassState}
    {st st' : PassState} {sites : List (Site Path)} (h : Turns p turn) (hwf : st.index.WF)
    (hturn : ∀ {st st' site}, st.index.WF → turn st site = .ok st' → ∀ pos, Passes turn { site with pos })
    (hloop : sites.foldlM turn st = .ok st') : ∀ site ∈ sites, ∀ pos, Passes turn { site with pos } := by
  intro site hsite
  obtain ⟨before, after, rfl⟩ := List.append_of_mem hsite
  obtain ⟨t, u, hbefore, hthis, -⟩ := foldlM_turn hloop
  exact hturn (h.loop hwf hbefore).1 hthis

end TclAnalyzer
