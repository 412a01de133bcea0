import TclAnalyzer.Analyzer.Proofs.LookupProofs
import TclAnalyzer.Analyzer.Sites

/-!
# Registering a proc

`AddProcToIndex` adds one proc, in the namespace its name resolves to, with one reference to its
definition, and keeps the invariant of the index.
-/

namespace TclAnalyzer

variable {index index' : Index}

/-- A proc with the location of its name is the one that a `proc` command reached at a site
registers. -/
structure Registers (index : Index) (reg : Proc × SourceLocation) (site : Site Path) : Prop where
  name : reg.1.name = (splitName (site.call.wordText 1)).name
  parent : index.atPath (procPath site.scope site.call) = some reg.1.parentNamespace
  location : (site.call.words[1]?).map Word.location = some reg.2
  parts : ∃ parts, (splitName (site.call.wordText 1)).namespaceParts = .ok parts

/-- The reference to the definition of a proc. -/
def definitionOf (reg : Proc × SourceLocation) : Reference :=
  { location := reg.2, id := reg.1.id, type := .DEFINITION }

theorem Registers.mono (hx : index.Extends index') (h : index.NamespacesWF)
    {reg : Proc × SourceLocation} {site : Site Path} (hr : Registers index reg site) :
    Registers index' reg site :=
  ⟨hr.name, hx.atPath h hr.parent, hr.location, hr.parts⟩

theorem resolveFrom_eq {qn : QualifiedName} {parts : List Str} (hparts : qn.namespaceParts = .ok parts)
    (path : Path) : qn.resolveFrom path = qn.targetPath path parts := by
  simp [QualifiedName.resolveFrom, QualifiedName.targetPath, hparts]

theorem wordText_eq {call : Call} {k : Nat} {word : Word} (h : call.words[k]? = some word) :
    call.wordText k = word.text.bytes := by
  simp [Call.wordText, h]

/-! ## The arguments -/

theorem addArgument_ok {proc proc' : Proc} {arg : Word} {isLast : Bool} {argName : Str}
    (h : addArgument proc arg isLast = .ok (proc', argName)) :
    proc'.name = proc.name ∧ proc'.id = proc.id := by
  unfold addArgument at h
  dsimp only at h
  split at h
  · split at h <;> cases h <;> exact ⟨rfl, rfl⟩
  · split at h
    · obtain ⟨first, -, h⟩ := bind_eq_ok.mp h
      cases h
      exact ⟨rfl, rfl⟩
    · cases h

theorem addArguments_ok {proc proc' : Proc} {args : List Word}
    (h : addArguments index proc args = .ok (proc', index')) :
    proc'.name = proc.name ∧ proc'.id = proc.id ∧ ∃ vars, index' = { index with vars } := by
  induction args generalizing index proc with
  | nil =>
    cases h
    exact ⟨rfl, rfl, _, rfl⟩
  | cons arg args ih =>
    obtain ⟨res, ha, h⟩ := bind_eq_ok.mp h
    obtain ⟨h1, h2, vars, h3⟩ := ih h
    obtain ⟨g1, g2⟩ := addArgument_ok ha
    exact ⟨h1.trans g1, h2.trans g2, vars, h3⟩

theorem addArgumentWord_ok {proc proc' : Proc} {args : Word}
    (h : addArgumentWord index proc args = .ok (proc', index')) :
    proc'.name = proc.name ∧ proc'.id = proc.id ∧ ∃ vars, index' = { index with vars } := by
  unfold addArgumentWord at h
  split at h
  · split at h
    · exact addArguments_ok h
    · cases h
  · cases h
    exact ⟨rfl, rfl, _, rfl⟩

/-! ## Writes that do not touch the tree -/

theorem withVars_wf {vars : RefRecord Variable} (h : index.WF) : { index with vars }.WF where
  namespaces := ⟨h.namespaces.table, h.namespaces.tree⟩
  procs := h.procs
  parents := h.parents
  referenced := h.referenced
  definitions := h.definitions

/-- The index with a change to the scope of a namespace. -/
def Index.withScope (index : Index) (id : Nat) (f : Scope → Scope) : Index :=
  { index with namespaces := index.namespaces.modify id fun n => { n with scope := f n.scope } }

theorem tree_withScope (index : Index) {id : Nat} (hid : 1 ≤ id) (f : Scope → Scope) :
    (index.withScope id f).tree = index.tree := by
  have hrow : ∀ j, (index.withScope id f).namespaces.row j = if j = id then
      (index.namespaces.row j).map (fun n => { n with scope := f n.scope })
      else index.namespaces.row j := fun j => RefRecord.row_modify _ _ _ hid j
  have hsize : (index.withScope id f).namespaces.table.length =
      index.namespaces.table.length := by
    simp [Index.withScope, RefRecord.modify]
  rw [Index.tree, Index.tree, hsize]
  congr 1 <;> funext j <;> rw [hrow j] <;> by_cases hj : j = id <;>
    cases index.namespaces.row j <;> simp [hj]

theorem withScope_wf (h : index.WF) {id : Nat} (hid : 1 ≤ id) (f : Scope → Scope) :
    (index.withScope id f).WF where
  namespaces := ⟨h.namespaces.table.modify hid (fun _ => rfl) fun _ => rfl, by
    rw [tree_withScope index hid]
    exact h.namespaces.tree⟩
  procs := h.procs
  parents p hp := by
    rw [tree_withScope index hid]
    exact h.parents p hp
  referenced := h.referenced
  definitions := h.definitions

/-! ## The new row and its definition -/

/-- The index with a new proc and the reference to its definition. -/
def Index.withProc (index : Index) (proc : Proc) (location : SourceLocation) : Index :=
  let (p, procs) := index.procs.insert proc
  addCommandReference { index with procs } location p .DEFINITION

theorem withProc_table (proc : Proc) (location : SourceLocation) :
    (index.withProc proc location).procs.table =
      index.procs.table ++ [{ proc with id := index.procs.table.length + 1 }] := rfl

theorem withProc_references (proc : Proc) (location : SourceLocation) :
    (index.withProc proc location).procs.references = index.procs.references ++
      [definitionOf ({ proc with id := index.procs.table.length + 1 }, location)] := rfl

theorem withProc_tree (proc : Proc) (location : SourceLocation) :
    (index.withProc proc location).tree = index.tree := rfl

theorem withProc_wf (h : index.WF) {proc : Proc} {location : SourceLocation}
    (hp : index.tree.Valid proc.parentNamespace) : (index.withProc proc location).WF := by
  have hprocs : (index.withProc proc location).procs.WF :=
    (h.procs.insert proc).addReference _
  refine
    { namespaces := ⟨h.namespaces.table, h.namespaces.tree⟩
      procs := hprocs
      parents := ?_
      referenced := ?_
      definitions := ?_ }
  · intro q hq
    rw [withProc_tree]
    rw [withProc_table] at hq
    rcases List.mem_append.mp hq with hq | hq
    · exact h.parents q hq
    · rw [List.mem_singleton.mp hq]
      exact hp
  · intro r hr
    rw [withProc_references] at hr
    rw [withProc_table, List.length_append]
    rcases List.mem_append.mp hr with hr | hr
    · obtain ⟨h1, h2⟩ := h.referenced r hr
      exact ⟨h1, by omega⟩
    · rw [List.mem_singleton.mp hr]
      simp [definitionOf]
  · intro q hq
    rw [hprocs.refsOf_eq, withProc_references, List.filter_append]
    rw [withProc_table] at hq
    rcases List.mem_append.mp hq with hq | hq
    · obtain ⟨loc, usages, hrefs, husages⟩ := h.definitions q hq
      have hlt := (h.procs.id_valid hq).2
      have hne : ¬ index.procs.table.length + 1 = q.id := by
        have : Row.id q = q.id := rfl
        omega
      rw [h.procs.refsOf_eq] at hrefs
      exact ⟨loc, usages, by simp [hrefs, definitionOf, hne], husages⟩
    · rw [List.mem_singleton.mp hq]
      have hnone : index.procs.references.filter
          (fun x => decide (x.id = index.procs.table.length + 1)) = [] := by
        rw [List.filter_eq_nil_iff]
        intro r hr
        have := (h.referenced r hr).2
        simp only [decide_eq_true_eq]
        omega
      exact ⟨location, [], by simp [hnone, definitionOf], by simp⟩

/-! ## `AddProcToIndex` -/

/-- `AddProcToIndex` that completes adds one proc and the reference to its definition. -/
theorem addProcToIndex_ok (h : index.WF) (site : Site Path) {ns : Nat}
    (hns : index.atPath site.scope = some ns)
    (hadd : addProcToIndex index ns site.call.words = .ok index') :
    index'.WF ∧ index.Extends index' ∧ ∃ reg : Proc × SourceLocation,
      Registers index' reg site ∧ reg.1.id = index.procs.table.length + 1 ∧
      index'.procs.table = index.procs.table ++ [reg.1] ∧
      index'.procs.references = index.procs.references ++ [definitionOf reg] := by
  obtain ⟨nameWord, hname, hadd⟩ := bind_eq_ok.mp hadd
  obtain ⟨argsWord, hargs, hadd⟩ := bind_eq_ok.mp hadd
  obtain ⟨⟨proc, index1⟩, hres, hadd⟩ := bind_eq_ok.mp hadd
  obtain ⟨⟨target, index2⟩, hq, hfin⟩ := bind_eq_ok.mp hadd
  obtain ⟨hpname, hpid, vars, rfl⟩ := addArgumentWord_ok hres
  have h1 : { index with vars }.WF := withVars_wf h
  have hword : site.call.words[1]? = some nameWord := nth_eq_ok.mp hname
  have hns1 : { index with vars }.atPath site.scope = some ns := hns
  rcases resolveQualified_spec h1.namespaces (splitName nameWord.text.bytes) hns1 with
    ⟨parts, target', index2', hparts, hq', hpath, hwf2, hg2⟩ | ⟨fault, -, hq'⟩
  · cases hq.symm.trans hq'
    have h2 := hg2.wf h1 hwf2
    have hvalid := Index.atPath_valid hwf2 hpath
    set f : Scope → Scope := fun s => { s with procs := s.procs ++ [proc.id] } with hf
    have htree := tree_withScope index2 hvalid.1 f
    have hprocs : (index2.withScope target f).procs = index.procs := hg2.procs
    obtain rfl : (index2.withScope target f).withProc
        { proc with parentNamespace := target } nameWord.location = index' := Except.ok.inj hfin
    refine ⟨withProc_wf (withScope_wf h2 hvalid.1 f) (by rw [htree]; exact hvalid), ⟨?_, hg2.global⟩,
      ({ proc with parentNamespace := target, id := index.procs.table.length + 1 },
        nameWord.location), ⟨?_, ?_, by simp [hword],
        parts, by rwa [wordText_eq hword]⟩, rfl, ?_, ?_⟩
    · rw [withProc_tree, htree]
      exact hg2.tree
    · rw [wordText_eq hword]
      exact hpname
    · rw [procPath, wordText_eq hword, resolveFrom_eq hparts, Index.atPath, withProc_tree, htree]
      exact hpath
    · rw [withProc_table, hprocs]
    · rw [withProc_references, hprocs]
  · cases hq.symm.trans hq'

end TclAnalyzer
