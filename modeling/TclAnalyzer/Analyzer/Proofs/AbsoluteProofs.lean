import TclAnalyzer.Analyzer.Samples
import TclAnalyzer.Analyzer.Proofs.AbsPathProofs

/-!
# Absolute names of `namespace eval`

Both passes build the name of a `namespace eval` by hand, as a relative one whose first component is the
empty text before the leading separator. So the namespace they push for an absolute name is below the
current namespace and never the one that the name means elsewhere.
-/

namespace TclAnalyzer

variable {index index' : Index} {components path : Path} {ns : Nat} {word : Word}

theorem splitPath_nameOf (components : Path) : splitPath (nameOf true components) =
    [] :: splitPath (separator.intercalate components) :=
  splitPath_separator _

/-- The passes push a namespace below a child with an empty name. -/
theorem resolveNamespace_absolute (h : index.NamespacesWF) (hns : index.atPath path = some ns)
    (hword : word.text.bytes = nameOf true components) :
    ∃ pushed index', resolveNamespace index (namespaceEvalName word) ns = .ok (pushed, index') ∧
      index'.atPath (path ++ [] :: splitPath (separator.intercalate components)) = some pushed ∧
      index'.NamespacesWF ∧ index.Grows index' := by
  have hparts : (namespaceEvalName word).namespaceParts =
      .ok ([] :: splitPath (separator.intercalate components)) := by
    rw [← splitPath_nameOf, ← hword]
    rfl
  rcases resolveNamespace_spec h (namespaceEvalName word) hns with
    ⟨parts, pushed, index', hok, hresolved, hpath, hwf, hg⟩ | ⟨fault, hfault, -⟩
  · cases hparts.symm.trans hok
    exact ⟨pushed, index', hresolved, hpath, hwf, hg⟩
  · cases hparts.symm.trans hfault

/-- A path with an empty component is not that of a plain name. -/
theorem Plain.ne_path (h : Plain components) (around rest : Path) : components ≠ around ++ [] :: rest := by
  rintro rfl
  exact (h [] (List.mem_append_right around List.mem_cons_self)).1 rfl

/-- A proc with a plain absolute name is registered in the namespace at the path of the name. -/
theorem addProcToIndex_absolute (h : index.WF) (hns : index.HasNamespace ns) {words : List Word}
    {nameWord : Word} {p : Str} (hwords : words[1]? = some nameWord)
    (hname : nameWord.text.bytes = nameOf true (components ++ [p])) (hplain : Plain (components ++ [p]))
    (hadd : addProcToIndex index ns words = .ok index') {proc : Proc}
    (hproc : proc ∈ index'.procs.table) (hnew : proc ∉ index.procs.table) :
    index'.WF ∧ index.Extends index' ∧ index'.atPath components = some proc.parentNamespace := by
  obtain ⟨path, hpath⟩ := (hasNamespace_iff h.namespaces).mp hns
  set site : Site Path := { pos := [], call := ⟨.PROC, words, []⟩, scope := path } with hsite
  obtain ⟨hwf, hx, reg, hreg, -, htable, -⟩ := addProcToIndex_ok h site hpath hadd
  rw [htable] at hproc
  have heq : proc = reg.1 := by
    rcases List.mem_append.mp hproc with hold | hproc
    · exact absurd hold hnew
    · exact List.mem_singleton.mp hproc
  obtain ⟨hparts, habs, -⟩ := namespaceParts_nameOf hplain true
  have htarget : procPath path site.call = components := by
    rw [procPath, wordText_eq hwords, hname, resolveFrom_eq hparts, QualifiedName.targetPath, habs,
      if_pos rfl]
  refine ⟨hwf, hx, ?_⟩
  rw [heq, ← htarget]
  exact hreg.parent

/-- The namespace that both passes push for an absolute name is never the one that `FindNamespace` finds
for the name later, never the one that a proc of that absolute namespace is registered in, and another
one for every namespace around the command. -/
theorem absoluteEval_elsewhere {operations : List Operation}
    (h : Run Operation.Step makeIndex operations index) (hns : index.HasNamespace ns)
    (hplain : Plain components) (hword : word.text.bytes = nameOf true components) :
    ∃ pushed index', resolveNamespace index (namespaceEvalName word) ns = .ok (pushed, index') ∧
      (∀ more later, Run Operation.Step index' more later →
        findNamespace later word.text.bytes ≠ .ok (some pushed)) ∧
      (∀ more later around words nameWord p registered proc, Run Operation.Step index' more later →
        later.HasNamespace around → words[1]? = some nameWord →
        nameWord.text.bytes = nameOf true (components ++ [p]) → Plain [p] →
        addProcToIndex later around words = .ok registered → proc ∈ registered.procs.table →
        proc ∉ later.procs.table → proc.parentNamespace ≠ pushed) ∧
      (∀ more later around pushed' index'', Run Operation.Step index' more later →
        later.HasNamespace around → around ≠ ns →
        resolveNamespace later (namespaceEvalName word) around = .ok (pushed', index'') →
        pushed' ≠ pushed) := by
  have hwf := reachable_wf h
  obtain ⟨path, hpath⟩ := (hasNamespace_iff hwf.namespaces).mp hns
  obtain ⟨pushed, index', hresolved, hat, hns', hg⟩ :=
    resolveNamespace_absolute hwf.namespaces hpath hword
  have hwf' := hg.wf hwf hns'
  refine ⟨pushed, index', hresolved, ?_, ?_, ?_⟩
  · intro more later hrun hfound
    obtain ⟨hlater, hx⟩ := run_keeps hrun hwf'
    obtain ⟨parts, hparts, hfound⟩ := findNamespace_atPath hlater.namespaces hfound
    rw [hword] at hparts
    cases (nameOf_parts hplain).2.symm.trans hparts
    exact hplain.ne_path _ _
      (Index.atPath_injective hlater.namespaces hfound (hx.atPath hns' hat))
  · intro more later around words nameWord p registered proc hrun haround hwords hname hp hadd hproc
      hnew heq
    obtain ⟨hlater, hx⟩ := run_keeps hrun hwf'
    obtain ⟨hregistered, hx', hparent⟩ := addProcToIndex_absolute hlater haround hwords hname
      (hplain.append hp) hadd hproc hnew
    rw [heq] at hparent
    exact hplain.ne_path _ _ (Index.atPath_injective hregistered.namespaces hparent
      ((hx.trans hx').atPath hns' hat))
  · rintro more later around pushed' index'' hrun haround hne hother rfl
    obtain ⟨hlater, hx⟩ := run_keeps hrun hwf'
    obtain ⟨path', hpath'⟩ := (hasNamespace_iff hlater.namespaces).mp haround
    obtain ⟨pushed'', index3, hother', hat', hns3, hg'⟩ :=
      resolveNamespace_absolute hlater.namespaces hpath' hword
    cases hother.symm.trans hother'
    have hx' := (hx.trans hg'.toExtends).atPath hns' hat
    have hpaths := Index.atPath_injective hns3 hat' hx'
    rw [List.append_cancel_right hpaths] at hpath'
    have hsame := (hg.toExtends.trans hx).atPath hwf.namespaces hpath
    exact hne (Option.some.inj (hpath'.symm.trans hsame))

/-- `namespace eval ::A {f}`, `proc ::A::g {} {}` and `namespace eval B {namespace eval ::A {f}}`. -/
def absoluteEvals : Script :=
  let evalA (offset : Nat) : Call :=
    ⟨.NAMESPACE_EVAL, [textWord offset "namespace", textWord (offset + 10) "eval",
      textWord (offset + 15) "::A", scriptWord (offset + 20) "f" [⟨.USER,
        [textWord (offset + 20) "f"], bytes "::A"⟩]], []⟩
  { location := lineLocation 0
    commands :=
      [evalA 0,
        ⟨.PROC, [textWord 23 "proc", textWord 28 "::A::g", listWord 36 "" [], scriptWord 39 "" []], []⟩,
        ⟨.NAMESPACE_EVAL, [textWord 41 "namespace", textWord 51 "eval", textWord 56 "B",
          scriptWord 59 "namespace eval ::A {f}" [evalA 59]], []⟩] }

/-- The two calls of `f` are visited in different namespaces, and neither of them is the one that
`FindNamespace` finds for `::A`, in which `g` is registered. -/
theorem absoluteEvals_differ : ∃ result, buildNew absoluteEvals = .ok result ∧
    (result.indexed.filter fun v => v.call.type = .USER).map Visit.ns = [3, 7] ∧
    result.index.procs.table.map Proc.parentNamespace = [4] ∧
    returns (findNamespace result.index (bytes "::A")) (fun ns => ns = some 4) = true := by
  obtain ⟨result, h, htest⟩ := exists_of_returns (show returns (buildNew absoluteEvals) (fun result =>
      decide ((result.indexed.filter fun v => v.call.type = .USER).map Visit.ns = [3, 7] ∧
        result.index.procs.table.map Proc.parentNamespace = [4] ∧
        returns (findNamespace result.index (bytes "::A")) (fun ns => ns = some 4) = true)) = true by
    decide +kernel)
  exact ⟨result, h, of_decide_eq_true htest⟩

theorem absoluteEval_elsewhere_new : ∃ pushed index',
    resolveNamespace makeIndex (namespaceEvalName (textWord 15 "::A")) 1 = .ok (pushed, index') ∧
      (∀ more later, Run Operation.Step index' more later →
        findNamespace later (bytes "::A") ≠ .ok (some pushed)) ∧
      (∀ more later around words nameWord p registered proc, Run Operation.Step index' more later →
        later.HasNamespace around → words[1]? = some nameWord →
        nameWord.text.bytes = nameOf true ([bytes "A"] ++ [p]) → Plain [p] →
        addProcToIndex later around words = .ok registered → proc ∈ registered.procs.table →
        proc ∉ later.procs.table → proc.parentNamespace ≠ pushed) ∧
      (∀ more later around pushed' index'', Run Operation.Step index' more later →
        later.HasNamespace around → around ≠ 1 →
        resolveNamespace later (namespaceEvalName (textWord 15 "::A")) around = .ok (pushed', index'') →
        pushed' ≠ pushed) :=
  absoluteEval_elsewhere .nil ⟨_, rfl⟩ (by decide +kernel) (by decide +kernel)

end TclAnalyzer
