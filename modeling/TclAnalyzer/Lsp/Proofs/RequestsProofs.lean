import TclAnalyzer.Analyzer.Samples
import TclAnalyzer.Analyzer.Proofs.OrderProofs
import TclAnalyzer.Lsp.Requests

/-!
# Requests agree with the index

A request looks a call up in the finished index and finds the proc that was selected for the call
while the index was being made.
-/

namespace TclAnalyzer

variable {index : Index} {script : Script} {result : BuildResult}

/-! ## The references of a proc -/

theorem referencesAt_ok {references : List Reference} {range : List Nat}
    (h : ∀ pos ∈ range, pos < references.length) :
    referencesAt references range = .ok (range.filterMap fun pos => references[pos]?) := by
  induction range with
  | nil => rfl
  | cons pos range ih =>
    have hpos := List.getElem?_eq_getElem (h pos List.mem_cons_self)
    rw [referencesAt, ih fun q hq => h q (List.mem_cons_of_mem pos hq)]
    simp [nth, hpos]

/-- The references of a row are those in the range for its id. -/
theorem referencesAt_refsOf (h : index.procs.WF) (id : Nat) :
    referencesAt index.procs.references (index.procs.refsByID.equalRange id) =
      .ok (index.procs.references.filter fun r => r.id = id) := by
  have hrange : ∀ pos ∈ index.procs.refsByID.equalRange id, pos < index.procs.references.length := by
    intro pos hpos
    rw [Multimap.mem_equalRange, h.refsByID] at hpos
    obtain ⟨⟨r, pos'⟩, hmem, heq⟩ := List.mem_map.mp hpos
    cases heq
    simpa using (List.mem_zipIdx hmem).2.1
  rw [referencesAt_ok hrange, ← h.refsOf_eq]
  rfl

/-! ## The lookup -/

/-- The lookup finds the proc that is selected in the namespace that the call names. -/
theorem procAtCursor_ok (h : index.WF) {site : Site Path} {ns : Nat}
    (hns : index.atPath site.scope = some ns) (huser : site.call.type = .USER) {word : Word}
    (hword : site.call.words[0]? = some word)
    (hfind : findNamespace index site.call.ns = .ok (some ns))
    (hparts : ∃ parts, (splitName word.text.bytes).namespaceParts = .ok parts) :
    ∃ index', procAtCursor index site.call word = .ok (index.selected site, index') ∧
      index'.NamespacesWF ∧ index.Grows index' := by
  obtain ⟨parts, hparts⟩ := hparts
  rcases findProc_spec h hns word.text.bytes with ⟨-, index', -, hproc, hwf, hg⟩ | ⟨fault, hf, -⟩
  · refine ⟨index', ?_, hwf, hg⟩
    rw [procAtCursor, hfind, Index.selected, if_pos huser, wordText_eq hword]
    simp [hproc]
  · cases hparts.symm.trans hf

/-- What a request on the command word of a call is answered with. -/
theorem answer_ok (h : index.WF) (keep : Reference → Bool) {call : Call} {word : Word}
    {fit : Option Proc} {index' : Index} (htext : word.type = .TEXT)
    (hproc : procAtCursor index call word = .ok (fit, index')) (hwf : index'.NamespacesWF)
    (hg : index.Grows index') :
    answer keep index { call := some call, argument := 0, word := some word } =
      .ok (.reply (fit.elim [] fun p => ((index.procs.references.filter fun r => r.id = p.id).filter
        keep).map Reference.toLocation), index') := by
  have hrefs := fun id => referencesAt_refsOf (hg.wf h hwf).procs id
  rw [hg.procs] at hrefs
  simp only [answer, htext, true_and, if_true, hproc, ok_bind]
  cases fit with
  | none => rfl
  | some p => simp [hg.procs, hrefs]

/-- A request on the command word of a call that was indexed, in the namespace in which it was
indexed, finds the proc that was selected for it, and is answered with each reference of that proc
once, that of the call among them. -/
theorem answerReferences_of_indexed (h : buildNew script = .ok result) {v : Visit}
    (hv : v ∈ result.indexed) (huser : v.call.type = .USER) {word : Word}
    (hword : v.call.words[0]? = some word) (htext : word.type = .TEXT)
    (hfind : findNamespace result.index v.call.ns = .ok (some v.ns)) :
    ∃ fit index',
      procAtCursor result.index v.call word = .ok (fit, index') ∧ fit.map Proc.id = v.fit ∧
      answerReferences result.index { call := some v.call, argument := 0, word := some word } =
        .ok (.reply (fit.elim [] fun p =>
          (result.index.procs.references.filter fun r => r.id = p.id).map Reference.toLocation),
          index') ∧
      ∀ p, fit = some p →
        { location := word.location, id := p.id, type := .USAGE } ∈ result.index.procs.references ∧
        ∃ definition usages,
          result.index.procs.references.filter (fun r => r.id = p.id) = definition :: usages ∧
          definition.type = .DEFINITION ∧ ∀ r ∈ usages, r.type = .USAGE := by
  have hb := buildNew_ok h
  obtain ⟨site, hsite, hvat⟩ := mem_of_forall₂_left hb.indexed hv
  rw [hvat.call] at huser hword hfind
  obtain ⟨index', hproc, hwf, hg⟩ := procAtCursor_ok hb.wf hvat.ns huser hword hfind
    (wordText_eq hword ▸ hvat.parts huser)
  rw [hvat.call]
  refine ⟨_, index', hproc, hvat.fit.symm, ?_, fun p hp => ⟨?_, ?_⟩⟩
  · rw [answerReferences]
    simpa using answer_ok hb.wf (fun _ => true) htext hproc hwf hg
  · obtain ⟨regs, -, -, hrefs⟩ := hb.procs
    have husage : result.index.usageOf site =
        some { location := word.location, id := p.id, type := .USAGE } :=
      usageOf_eq_some.mpr ⟨p, hp, by simp [hword], rfl, rfl⟩
    rw [hrefs]
    exact List.mem_append_right _ (List.mem_filterMap.mpr ⟨site, hsite, husage⟩)
  · obtain ⟨location, usages, hrefs, hall⟩ := hb.wf.definitions p (selected_mem hp)
    rw [hb.wf.procs.refsOf_eq] at hrefs
    exact ⟨_, usages, hrefs, rfl, hall⟩

/-- A request on the second command of `proc f {} {};f`. -/
theorem answerReferences_useF : ∃ result, buildNew ⟨lineLocation 0, [defineF, useF]⟩ = .ok result ∧
    ∃ v ∈ result.indexed, v.call = useF ∧ ∃ fit index',
      procAtCursor result.index v.call (textWord 13 "f") = .ok (fit, index') ∧
      fit.map Proc.id = v.fit := by
  obtain ⟨result, h, htest⟩ := exists_of_returns
    (show returns (buildNew ⟨lineLocation 0, [defineF, useF]⟩) (fun result =>
      result.indexed.map Visit.ns = [1, 1] ∧
        returns (findNamespace result.index []) fun ns => ns = some 1) = true by decide +kernel)
  obtain ⟨hns, hfind⟩ := of_decide_eq_true htest
  obtain ⟨ns, hfind, hone⟩ := exists_of_returns hfind
  obtain rfl := of_decide_eq_true hone
  have hsite : ⟨[1], useF, []⟩ ∈ Script.indexSites ⟨lineLocation 0, [defineF, useF]⟩ :=
    List.mem_of_getElem? (i := 1) rfl
  obtain ⟨v, hv, hvat⟩ := mem_of_forall₂_right (buildNew_ok h).indexed hsite
  have hcall : v.call = useF := hvat.call
  have hone : v.ns = 1 := by
    have hmem := List.mem_map_of_mem (f := Visit.ns) hv
    rw [hns] at hmem
    simpa using hmem
  have hword : v.call.words[0]? = some (textWord 13 "f") := by
    rw [hcall]
    rfl
  obtain ⟨fit, index', hproc, hfit, -⟩ := answerReferences_of_indexed h hv (hcall ▸ rfl) hword rfl
    (by rw [hcall, hone]; exact hfind)
  exact ⟨result, h, v, hv, hcall, fit, index', hproc, hfit⟩

end TclAnalyzer
