import TclAnalyzer.Analyzer.Proofs.ExactProofs
import TclAnalyzer.Analyzer.Proofs.OrderProofs

/-!
# The words behind the references

Every reference in the index stands where a word of the script stands, and that word ends in the name
of the proc it refers to.
-/

namespace TclAnalyzer

/-! ## Words of a site -/

theorem mem_allWords {words : List Word} {x : Word} :
    x ∈ allWords words ↔ ∃ word ∈ words, x = word ∨ x ∈ allWordsOfData word.data := by
  induction words with
  | nil => simp [allWords]
  | cons word words ih =>
    obtain ⟨type, location, text, data⟩ := word
    rw [allWords, List.mem_cons, List.mem_append, ih]
    simp [or_assoc]

theorem mem_allWordsOfCalls {calls : List Call} {x : Word} :
    x ∈ allWordsOfCalls calls ↔ ∃ call ∈ calls, x ∈ allWords call.words := by
  induction calls with
  | nil => simp [allWordsOfCalls]
  | cons call calls ih =>
    obtain ⟨type, words, ns⟩ := call
    rw [allWordsOfCalls, List.mem_append, ih]
    simp

/-- The words of a part of a script, of a word those inside it. -/
def Node.allWords : Node → List Word
  | .script s => s.allWords
  | .call c => TclAnalyzer.allWords c.words
  | .word w => allWordsOfData w.data

theorem mem_component {data : WordData} {k : Nat} {inner x : Word}
    (h : data.components[k]? = some inner) (hx : x ∈ allWordsOfData inner.data) :
    x ∈ allWordsOfData data := by
  have hmem : inner ∈ data.components := List.mem_of_getElem? h
  cases data with
  | nothing => cases hmem
  | script script => cases hmem
  | arrayAccess name index =>
    rw [allWordsOfData]
    exact mem_allWords.mpr ⟨inner, hmem, .inr hx⟩
  | words words =>
    rw [allWordsOfData]
    exact mem_allWords.mpr ⟨inner, hmem, .inr hx⟩

/-- The words of the calls that a pass reaches are words of the script. -/
theorem Reaches.words {σ : Type} {p : Pass σ} {scope : σ} {pos : Pos} {node : Node} {site : Site σ}
    (h : Reaches p scope pos node site) {x : Word} (hx : x ∈ site.call.words) : x ∈ node.allWords := by
  induction h with
  | here => exact mem_allWords.mpr ⟨x, hx, .inl rfl⟩
  | @command _ _ script _ call _ hcall _ ih =>
    obtain ⟨location, commands⟩ := script
    rw [Node.allWords, Script.allWords]
    exact mem_allWordsOfCalls.mpr ⟨call, List.mem_of_getElem? hcall, ih hx⟩
  | word hword _ _ ih => exact mem_allWords.mpr ⟨_, List.mem_of_getElem? hword, .inr (ih hx)⟩
  | nested hdata _ _ ih =>
    rw [Node.allWords, hdata, allWordsOfData]
    exact ih hx
  | component hinner _ _ ih => exact mem_component hinner (ih hx)

theorem mem_allWords_of_site {σ : Type} {p : Pass σ} {scope : σ} {pos : Pos} {script : Script}
    {site : Site σ} (h : site ∈ sitesScript p scope pos script) {k : Nat} {word : Word}
    (hword : site.call.words[k]? = some word) : word ∈ script.allWords :=
  (sitesScript_reaches script h).words (List.mem_of_getElem? hword)

/-! ## References -/

/-- A reference to this proc at a word of the script: for the definition the second word of a `proc`
command in the namespace of the proc, for a usage the command word of another call. Either word ends
in the name of the proc. -/
structure Reference.StandsAt (r : Reference) (script : Script) (index : Index) (p : Proc)
    (word : Word) : Prop where
  proc : index.procs.get r.id = .ok p
  inScript : word ∈ script.allWords
  location : word.location = r.location
  name : (splitName word.text.bytes).name = p.name
  site : r.type = .DEFINITION ∧ (∃ site ∈ procSites script.scanSites, site.call.words[1]? = some word ∧
      index.atPath (procPath site.scope site.call) = some p.parentNamespace) ∨
    r.type = .USAGE ∧ ∃ site ∈ script.indexSites, site.call.type = .USER ∧
      site.call.words[0]? = some word

/-- What a lookup finds has the name that was looked up. -/
theorem nearest_name {index : Index} {path : Path} {cmdName : Str} {p : Proc}
    (h : p ∈ index.nearest path cmdName) : p.name = (splitName cmdName).name := by
  unfold Index.nearest at h
  split at h
  · obtain ⟨procs, hprocs, hp⟩ := firstNonempty_mem h
    obtain ⟨target, -, rfl⟩ := List.mem_map.mp hprocs
    exact (mem_procsIn.mp hp).2.1
  · cases h

variable {script : Script} {result : BuildResult}

theorem Built.definition_standsAt (h : Built script result) {reg : Proc × SourceLocation}
    {site : Site Path} (hsite : site ∈ procSites script.scanSites)
    (hreg : Registers result.index reg site) (hproc : reg.1 ∈ result.index.procs.table) :
    ∃ p word, (definitionOf reg).StandsAt script result.index p word := by
  obtain ⟨word, hword, hlocation⟩ : ∃ word, site.call.words[1]? = some word ∧ word.location = reg.2 := by
    simpa using hreg.location
  refine ⟨reg.1, word, ?_⟩
  exact {
    proc := RefRecord.get_eq_ok.mpr (h.wf.procs.row_id hproc)
    inScript := mem_allWords_of_site (List.mem_filter.mp hsite).1 hword
    location := hlocation
    name := by rw [hreg.name, wordText_eq hword]
    site := .inl ⟨rfl, site, hsite, hword, hreg.parent⟩ }

theorem Built.usage_standsAt (h : Built script result) {site : Site Path}
    (hsite : site ∈ script.indexSites) {r : Reference} (hr : result.index.usageOf site = some r) :
    ∃ p word, r.StandsAt script result.index p word := by
  obtain ⟨p, hp, hr⟩ := Option.bind_eq_some_iff.mp hr
  obtain ⟨word, hword, hr⟩ := Option.bind_eq_some_iff.mp hr
  cases hr
  have huser : site.call.type = .USER := by
    by_contra hother
    simp [Index.selected, hother] at hp
  have hname : p.name = (splitName (site.call.wordText 0)).name := by
    rw [Index.selected, if_pos huser] at hp
    exact nearest_name (bestFitProcToCall_mem hp)
  refine ⟨p, word, ?_⟩
  exact {
    proc := RefRecord.get_eq_ok.mpr (h.wf.procs.row_id (selected_mem hp))
    inScript := mem_allWords_of_site hsite hword
    location := rfl
    name := by rw [hname, wordText_eq hword]
    site := .inr ⟨rfl, site, hsite, huser, hword⟩ }

/-- Every reference that `Build` records stands at a word that ends in the name of its proc. -/
theorem Built.standsAt (h : Built script result) {r : Reference}
    (hr : r ∈ result.index.procs.references) :
    ∃ p word, r.StandsAt script result.index p word := by
  obtain ⟨regs, hregs, htable, hreferences⟩ := h.procs
  rw [hreferences] at hr
  rcases List.mem_append.mp hr with hdefinition | husage
  · obtain ⟨reg, hreg, rfl⟩ := List.mem_map.mp hdefinition
    obtain ⟨site, hsite, hregisters⟩ := mem_of_forall₂_left hregs hreg
    exact h.definition_standsAt hsite hregisters (htable ▸ List.mem_map_of_mem hreg)
  · obtain ⟨site, hsite, husage⟩ := List.mem_filterMap.mp husage
    exact h.usage_standsAt hsite husage

end TclAnalyzer
