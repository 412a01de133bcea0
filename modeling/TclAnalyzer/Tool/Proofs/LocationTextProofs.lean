import TclAnalyzer.Analyzer.Proofs.FaultFreeProofs
import TclAnalyzer.Analyzer.Proofs.ReferenceProofs
import TclAnalyzer.Lsp.Proofs.CommsProofs
import TclAnalyzer.Tool.Report

/-!
# Locations as they are printed

A printed location can be read back: it names its file, and in the file one byte. At the byte of a
reference stands the word that refers to the proc.
-/

namespace TclAnalyzer

variable {file : SourceFile} {location location' : SourceLocation}

/-! ## Reading back -/

theorem decimal_injective {n m : Nat} (h : decimal n = decimal m) : n = m := by
  rw [← digitsValue_decimal n, h, digitsValue_decimal]

theorem colon_notMem_decimal (n : Nat) : colon ∉ decimal n := by
  intro h
  have hdigit := isdigit_decimal n colon h
  revert hdigit
  decide

/-- The last separator splits a list in one way. -/
theorem split_last_unique {α : Type*} {c : α} {front front' back back' : List α} (hback : c ∉ back)
    (hback' : c ∉ back') (h : front ++ [c] ++ back = front' ++ [c] ++ back') :
    front = front' ∧ back = back' := by
  rw [List.append_assoc, List.append_assoc] at h
  rcases List.append_eq_append_iff.mp h with ⟨mid, rfl, hmid⟩ | ⟨mid, rfl, hmid⟩
  · cases mid with
    | nil => simpa using hmid
    | cons a mid => exact absurd (by simp_all) hback
  · cases mid with
    | nil => simpa [eq_comm] using hmid
    | cons a mid => exact absurd (by simp_all) hback'

theorem print_injective (h : location.print = location'.print) :
    location.fileName = location'.fileName ∧ location.line = location'.line ∧
      location.column = location'.column := by
  obtain ⟨hfront, hcolumn⟩ := split_last_unique (colon_notMem_decimal _) (colon_notMem_decimal _) h
  obtain ⟨hname, hline⟩ :=
    split_last_unique (colon_notMem_decimal _) (colon_notMem_decimal _) hfront
  exact ⟨hname, Nat.succ_injective (decimal_injective hline),
    Nat.succ_injective (decimal_injective hcolumn)⟩

/-- Two offsets in a file do not print the same. -/
theorem offset_eq_of_print_eq {a b : Nat} (ha : makeSourceLocation file a = .ok location)
    (hb : makeSourceLocation file b = .ok location') (h : location.print = location'.print) :
    a = b := by
  obtain ⟨-, hline, hcolumn⟩ := print_injective h
  have hposA := location_of_makeSourceLocation ha
  have hposB := location_of_makeSourceLocation hb
  rcases Nat.lt_trichotomy a b with hlt | heq | hgt
  · have := offsetToLineByteFrom_lt hlt hposA hposB
    dsimp only at this
    omega
  · exact heq
  · have := offsetToLineByteFrom_lt hgt hposB hposA
    dsimp only at this
    omega

/-! ## What stands there -/

theorem parseScript_exact {interp : TclInterp} (hcontract : interp.Contract)
    (hinterp : interp.TokensNested) {context : ParseContext} {fileName contents : Str}
    (hfile : context.file = makeSourceFile fileName contents) {data size : Nat} {script : Script}
    (hdata : data ≤ contents.length)
    (h : parseScript interp context (context.file.view data size) = .ok script) :
    ∀ word ∈ script.allWords, word.Exact context.file := by
  have hwords := parseScriptAt_keepsSpans hcontract hinterp fileName contents _ context _ script hfile
    ⟨size, rfl⟩ hdata (Nat.lt_succ_self _) h
  intro word hword
  exact ((script_listing script).forall_mem (fun word hword => hword.inside.spans) hwords.spans
    word hword).exact

/-- What is printed of a reference leads back to one byte of the file, where a word of the script
starts that ends in the name of the proc. -/
structure Reference.Pinpoints (r : Reference) (file : SourceFile) (script : Script) (index : Index)
    (p : Proc) (word : Word) : Prop extends r.StandsAt script index p word where
  located : makeSourceLocation file r.location.offset = .ok r.location
  text : word.text.bytes =
    (file.contents.drop r.location.offset).take word.text.bytes.length
  unique : ∀ offset location, makeSourceLocation file offset = .ok location →
    location.print = r.location.print → offset = r.location.offset

theorem reference_pinpoints {interp : TclInterp} (hcontract : interp.Contract)
    (hinterp : interp.TokensNested) {fileName contents : Str} {script : Script} {result : BuildResult}
    (hparse : parseScript interp { file := makeSourceFile fileName contents, curNs := [] }
      { data := 0, bytes := contents } = .ok script)
    (hbuild : buildNew script = .ok result) {r : Reference}
    (hr : r ∈ result.index.procs.references) :
    ∃ p word, r.Pinpoints (makeSourceFile fileName contents) script result.index p word := by
  obtain ⟨p, word, hstands⟩ := (buildNew_ok hbuild).standsAt hr
  have hview : ({ data := 0, bytes := contents } : StringView) =
      (makeSourceFile fileName contents).view 0 contents.length := by
    simp [SourceFile.view, makeSourceFile]
  rw [hview] at hparse
  have hfile : makeSourceFile fileName contents = makeSourceFile fileName contents := rfl
  have hexact := parseScript_exact hcontract hinterp hfile (Nat.zero_le _) hparse word
    hstands.inScript
  have hlocated : makeSourceLocation (makeSourceFile fileName contents) r.location.offset =
      .ok r.location := hstands.location ▸ hexact.location
  refine ⟨p, word, hstands, hlocated, ?_, fun offset location h hprint =>
    offset_eq_of_print_eq h hlocated hprint⟩
  have htext := congrArg StringView.bytes hexact.text
  rw [hstands.location] at htext
  exact htext

/-- The definition of `f` in `proc f {a args} {}`. -/
theorem lastArgs_pinpoints : ∃ result r p word, buildNew lastArgsTree = .ok result ∧
    r ∈ result.index.procs.references ∧ r.Pinpoints lastArgs lastArgsTree result.index p word := by
  obtain ⟨result, hbuild, hreferences⟩ := exists_of_returns (show returns (buildNew lastArgsTree)
    (fun result => result.index.procs.references ≠ []) = true by decide +kernel)
  obtain ⟨r, hr⟩ := List.exists_mem_of_ne_nil _ (of_decide_eq_true hreferences)
  obtain ⟨p, word, h⟩ := reference_pinpoints lastArgs_contract lastArgs_tokensNested lastArgs_parsed
    hbuild hr
  exact ⟨result, r, p, word, hbuild, hr, h⟩

end TclAnalyzer
