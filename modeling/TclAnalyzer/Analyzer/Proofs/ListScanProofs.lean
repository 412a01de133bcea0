import TclAnalyzer.Analyzer.ListScan
import TclAnalyzer.Analyzer.Samples
import TclAnalyzer.Analyzer.Proofs.ExactProofs

/-!
# The scan of a list

At the start of every turn the pointer and the remaining length span what is left of the text. So the
call of `TclFindElement` is one on the rest of the text, and the turns go through its elements.
-/

namespace TclAnalyzer

variable {interp : TclInterp} {context : ParseContext} {fileName contents : Str} {file : SourceFile}
  {text : StringView} {word : Word} {found : ListElement} {elements : List ListElement}
  {scan scan' : ListScan} {last list length : Nat}

/-! ## Views -/

theorem StringView.last_rest {next : Nat} (hfirst : text.data ≤ next) (hlast : next ≤ text.last) :
    (text.rest next).last = text.last := by
  unfold last at hlast ⊢
  simp only [rest, List.length_drop]
  omega

theorem StringView.rest_rest {next : Nat} (hfirst : text.data ≤ list) (hnext : list ≤ next) :
    (text.rest list).rest next = text.rest next := by
  have hskip : list - text.data + (next - list) = next - text.data := by omega
  simp only [rest, List.drop_drop, hskip]

/-- What is left of a view is what the file has there. -/
theorem StringView.PointsInto.rest_eq (h : text.PointsInto file) (hfirst : text.data ≤ list)
    (hlast : list + length = text.last) : text.rest list = file.view list length := by
  unfold last at hlast
  have hskip : text.data + (list - text.data) = list := by omega
  have hlength : text.bytes.length - (list - text.data) = length := by omega
  have hbytes : text.bytes = (file.contents.drop text.data).take text.bytes.length :=
    congrArg StringView.bytes h
  rw [rest, SourceFile.view, hbytes, List.drop_take, List.drop_drop, hskip, hlength]

theorem StringView.PointsInto.slice_eq (h : text.PointsInto file) {data size : Nat}
    (hfirst : text.data ≤ data) (hlast : data + size ≤ text.last) :
    text.slice data size = file.view data size := by
  have hdata : data + (text.last - data) = text.last := by omega
  have hrest := congrArg StringView.bytes (h.rest_eq hfirst hdata)
  have hbytes : text.bytes.drop (data - text.data) =
      (file.contents.drop data).take (text.last - data) := hrest
  have hsize : min size (text.last - data) = size := by omega
  rw [slice, SourceFile.view, hbytes, List.take_take, hsize]

/-! ## The turns of the loop -/

/-- The pointer is in the text, and the length is what is left of it. -/
structure ListScan.At (scan : ListScan) (text : StringView) : Prop where
  first : text.data ≤ scan.list
  distance : scan.list + scan.length = text.last

theorem ListScan.At.view (h : scan.At text) (htext : text.PointsInto file) :
    file.view scan.list scan.length = text.rest scan.list :=
  (htext.rest_eq h.first h.distance).symm

theorem ListScan.At.last_rest (h : scan.At text) : (text.rest scan.list).last = text.last := by
  have hdistance := h.distance
  exact StringView.last_rest h.first (by omega)

/-- What is found at the start of a turn is found in what is left of the text. -/
theorem ListScan.At.reported (h : scan.At text) (hfind : interp.ReportsElements)
    (htext : text.PointsInto file)
    (hfound : interp.findElement (file.view scan.list scan.length) = some found) :
    ReportedElement (text.rest scan.list) found := by
  rw [h.view htext] at hfound
  exact hfind _ found hfound

theorem ListScan.At.next (h : scan.At text) (hfind : interp.ReportsElements)
    (htext : text.PointsInto file)
    (hfound : interp.findElement (file.view scan.list scan.length) = some found) :
    scan.list ≤ found.next ∧ found.next ≤ text.last := by
  have hnext := (h.reported hfind htext hfound).next
  rw [h.last_rest] at hnext
  exact hnext

/-- A turn moves the pointer on and keeps the length at the distance to the end. -/
theorem ListTurn.at (h : ListTurn interp file text.last scan found scan')
    (hfind : interp.ReportsElements) (htext : text.PointsInto file) (hat : scan.At text) :
    scan'.At text ∧ scan.list < scan'.list := by
  cases h with
  | @found list length found hfound hmore =>
    obtain ⟨hge, hle⟩ := hat.next hfind htext hfound
    have hreported := hat.reported hfind htext hfound
    have hbehind := hreported.behind
    rw [hat.last_rest] at hbehind
    obtain ⟨hprogress, -⟩ := hbehind hmore
    have hfirst : list ≤ found.element := hreported.first
    have hdistance := hat.distance
    have hstart := hat.first
    dsimp only at hge hdistance hstart
    refine ⟨⟨?_, ?_⟩, ?_⟩
    · exact hstart.trans hge
    · dsimp only
      omega
    · exact lt_of_le_of_lt hfirst hprogress

/-- The invariant of the loop. -/
theorem ScansTo.at (h : ScansTo interp file text elements scan) (hfind : interp.ReportsElements)
    (htext : text.PointsInto file) :
    scan.At text ∧ text.data + elements.length ≤ scan.list := by
  refine Run.history (J := fun elements scan =>
    scan.At text ∧ text.data + elements.length ≤ scan.list) h ⟨⟨Nat.le_refl _, rfl⟩, Nat.le_refl _⟩ ?_
  intro elements scan found scan' _ hinv hturn
  obtain ⟨hat, hcount⟩ := hinv
  obtain ⟨hat', hlt⟩ := hturn.at hfind htext hat
  refine ⟨hat', ?_⟩
  rw [List.length_append, List.length_singleton]
  omega

/-- The recursion of `wordToListFrom` is a run of turns and the end of the loop. -/
theorem wordToListFrom_turns {fuel : Nat} {result : Option (List Word)}
    (h : wordToListFrom interp context last fuel list length = .ok result) :
    ∃ elements scan, Run (ListTurn interp context.file last) ⟨list, length⟩ elements scan ∧
      ScanEnds interp context.file last elements scan result := by
  induction fuel generalizing list length result with
  | zero => cases h
  | succ fuel ih =>
    rcases wordToListFrom_cases h with ⟨hnone, rfl⟩ |
      ⟨found, hfound, ⟨hend, rfl⟩ | ⟨hmore, word, rest, hmakes, hrest, rfl⟩⟩
    · exact ⟨[], ⟨list, length⟩, .nil, .error hnone⟩
    · exact ⟨[], ⟨list, length⟩, .nil, .finish hfound hend .nil⟩
    · obtain ⟨elements, scan, hrun, hends⟩ := ih hrest
      refine ⟨found :: elements, scan, .cons (.found hfound hmore) hrun, ?_⟩
      cases hends with
      | error hnone => exact .error hnone
      | finish hlast hend hvec => exact .finish hlast hend (.cons hmakes hvec)

/-! ## Lists -/

/-- The loop splits what is left of a text into the elements that it has as a list. -/
theorem SplitsFrom.isList (h : SplitsFrom interp file last list length elements)
    (hfind : interp.ReportsElements) (htext : text.PointsInto file) (hlast : last = text.last)
    (hat : ListScan.At ⟨list, length⟩ text) : IsList interp (text.rest list) elements := by
  subst hlast
  induction h with
  | @finish list length found hfound hend =>
    have hreported := hat.reported hfind htext hfound
    rw [hat.view htext] at hfound
    refine .nil hfound (le_antisymm hreported.last ?_)
    rw [hat.last_rest]
    exact hend
  | @element list length found rest hfound hmore _ ih =>
    have hturn : ListTurn interp file text.last ⟨list, length⟩ found _ := .found hfound hmore
    obtain ⟨hat', hlt⟩ := hturn.at hfind htext hat
    have hrest := ih hat'
    rw [hat.view htext] at hfound
    rw [← hat.last_rest] at hmore
    rw [← StringView.rest_rest hat.first (Nat.le_of_lt hlt)] at hrest
    exact .cons hfound hmore hrest

theorem IsList.splitsFrom (h : IsList interp (text.rest list) elements)
    (hfind : interp.ReportsElements) (htext : text.PointsInto file)
    (hat : ListScan.At ⟨list, length⟩ text) :
    SplitsFrom interp file text.last list length elements := by
  generalize hleft : text.rest list = left at h
  induction h generalizing list length with
  | @nil left found hfound hend =>
    subst hleft
    rw [← hat.view htext] at hfound
    rw [hat.last_rest] at hend
    exact .finish hfound (Nat.le_of_eq hend.symm)
  | @cons left found elements hfound hmore _ ih =>
    subst hleft
    rw [← hat.view htext] at hfound
    rw [hat.last_rest] at hmore
    have hturn : ListTurn interp file text.last ⟨list, length⟩ found _ := .found hfound hmore
    obtain ⟨hat', hlt⟩ := hturn.at hfind htext hat
    exact .element hfound hmore (ih hat' (StringView.rest_rest hat.first (Nat.le_of_lt hlt)).symm)

/-- The loop on the whole text. -/
theorem splitsInto_iff (hfind : interp.ReportsElements) (htext : text.PointsInto file) :
    SplitsInto interp file text elements ↔ IsList interp text elements := by
  have hat : ListScan.At ⟨text.data, text.bytes.length⟩ text := ⟨Nat.le_refl _, rfl⟩
  have hrest : text.rest text.data = text := by
    rw [StringView.rest, Nat.sub_self, List.drop_zero]
  constructor
  · intro h
    have hlist := SplitsFrom.isList h hfind htext rfl hat
    rwa [hrest] at hlist
  · intro h
    rw [← hrest] at h
    exact h.splitsFrom hfind htext hat

theorem IsList.lt_last (h : IsList interp text elements) (hfind : interp.ReportsElements) :
    ∀ found ∈ elements, found.element < text.last := by
  induction h with
  | nil => simp
  | cons hfound hmore _ ih =>
    obtain ⟨hge, hle⟩ := (hfind _ _ hfound).next
    rw [StringView.last_rest hge hle] at ih
    exact List.forall_mem_cons.mpr ⟨hmore, ih⟩

/-- The elements of a list stand in its text one after the other. -/
theorem IsList.between (h : IsList interp text elements) (hfind : interp.ReportsElements) :
    Between ListElement.element (fun found => found.element + found.size) text.last text.data
      elements := by
  induction h with
  | @nil text found hfound _ =>
    have hreported := hfind _ _ hfound
    exact .nil (hreported.first.trans hreported.last)
  | @cons text found elements hfound hmore _ ih =>
    have hreported := hfind _ _ hfound
    obtain ⟨hge, hle⟩ := hreported.next
    obtain ⟨-, hsize⟩ := hreported.behind hmore
    rw [StringView.last_rest hge hle] at ih
    exact .cons hreported.first (Nat.le_add_right _ _) (ih.mono hsize (le_refl _))

/-! ## Words of elements -/

/-- The word of an element that is in the text is a part of the text, at its place in the file. -/
theorem ListElement.Makes.isWord (h : found.Makes file word)
    (hfile : file = makeSourceFile fileName contents) (htext : text.PointsInto file)
    (hfirst : text.data ≤ found.element) (hmore : found.element < text.last)
    (hlast : found.element + found.size ≤ text.last) : found.IsWord file text word := by
  have hpos : 0 < text.bytes.length := by
    unfold StringView.last at hmore
    omega
  have hfits := htext.fits hpos
  have hcontents : file.contents = contents := by rw [hfile]; rfl
  rw [hcontents] at hfits
  have hview : word.text = file.view found.element found.size := h.text
  have hlocation := location_of_makeSourceLocation h.location
  rw [hfile] at hlocation
  obtain ⟨pos, hpos, hline, -, -, hcolumn, -⟩ :=
    offsetToLineByte_iso fileName (hmore.le.trans hfits)
  cases hpos.symm.trans hlocation
  constructor
  · exact h.type
  · exact h.data
  · rw [hview, htext.slice_eq hfirst hlast]
  · rw [hview, view_length_eq]
    rw [hcontents]
    exact hlast.trans hfits
  · obtain ⟨pos, -, hmade⟩ := bind_eq_ok.mp h.location
    rw [← Except.ok.inj hmade]
  · exact makeSourceLocation_offset h.location
  · rw [hcontents]
    exact hline
  · rw [hcontents]
    exact hcolumn

/-- The words that the loop makes of the elements of a list. -/
theorem IsList.collects (h : IsList interp word.text elements) (hfind : interp.ReportsElements)
    (hfile : file = makeSourceFile fileName contents) (htext : word.text.PointsInto file)
    {vec : List Word} (hvec : List.Forall₂ (fun found inner => found.Makes file inner) elements vec) :
    CollectsElements file word elements vec := by
  have hbetween := h.between hfind
  have hwithin : ∀ found ∈ elements, word.text.data ≤ found.element ∧
      found.element < word.text.last ∧ found.element + found.size ≤ word.text.last := by
    intro found hfound
    obtain ⟨hfirst, -, hlast⟩ := hbetween.mem found hfound
    exact ⟨hfirst, h.lt_last hfind found hfound, hlast⟩
  have hwords : List.Forall₂ (fun found inner => found.IsWord file word.text inner) elements vec := by
    refine ((List.forall₂_and_left _ _).mpr ⟨hwithin, hvec⟩).imp ?_
    rintro found inner ⟨⟨hfirst, hmore, hlast⟩, hmakes⟩
    exact hmakes.isWord hfile htext hfirst hmore hlast
  have hspans : List.Forall₂ (fun found inner => inner.text.data = found.element ∧
      inner.text.last = found.element + found.size) elements vec := by
    refine hwords.imp fun found inner hinner => ?_
    have hdata : inner.text.data = found.element := by
      rw [hinner.text]
      rfl
    exact ⟨hdata, by rw [StringView.last, hdata, hinner.size]⟩
  have hplaces : Between (fun inner : Word => inner.text.data) (fun inner => inner.text.last)
      word.text.last word.text.data vec := hbetween.congr hspans
  refine ⟨hwords, fun inner hinner => ?_, hplaces.pairwise⟩
  obtain ⟨hfirst, -, hlast⟩ := hplaces.mem inner hinner
  exact ⟨hfirst, hlast⟩

/-! ## The scan of a word -/

theorem ReportedElement.foundElement {list : StringView} (h : ReportedElement list found) :
    FoundElement list found where
  element := h.first
  next := h.next.1
  finish := h.next.2
  progress hmore := lt_of_le_of_lt h.first (h.behind hmore).1

theorem collectElements_ok (hfind : interp.ReportsElements)
    (hfile : context.file = makeSourceFile fileName contents)
    (hword : word.text.PointsInto context.file) :
    ∃ result, collectElements interp context word = .ok result := by
  have hfits : 0 < word.text.bytes.length → word.text.last ≤ contents.length := by
    intro hpos
    have hlast := hword.fits hpos
    rwa [hfile] at hlast
  exact wordToListFrom_ok (fun list found h => (hfind list found h).foundElement) hfile
    (word.text.bytes.length + 1) rfl hfits (Nat.lt_succ_self _)

theorem wordToList_of_collect {result : Option (List Word)}
    (h : collectElements interp context word = .ok result) : wordToList interp context word =
      .ok (match result with
        | none => word
        | some vec =>
          if vec.length = 1 then word else { word with type := .LIST, data := .words vec }) := by
  refine bind_eq_ok.mpr ⟨result, h, ?_⟩
  cases result with
  | none => rfl
  | some vec => rfl

/-- The words that `parseArgs` passes to `WordToList` point into the file: the word that is parsed, and
the elements of its list. -/
theorem parseArgs_pointsInto {nested : ScriptParser} {parse : TclParse} {i j : Nat} {arg : Word}
    (hi : i < parse.tokens.length)
    (h : ParseCommand.parseArgs interp nested context parse i = .ok (arg, j)) :
    ∃ plain, TclAnalyzer.parseWord nested context parse.tokens (ParseCommand.fuel parse) i =
        .ok (plain, j) ∧ plain.text.PointsInto context.file ∧
      ∀ vec, wordToList interp context plain = .ok { plain with type := .LIST, data := .words vec } →
        ∀ inner ∈ vec, inner.text.PointsInto context.file := by
  have hmore : ¬ parse.tokens.length ≤ i := Nat.not_le_of_lt hi
  rw [ParseCommand.parseArgs, if_neg hmore] at h
  obtain ⟨⟨plain, next⟩, hplain, h⟩ := bind_eq_ok.mp h
  obtain ⟨list, hlist, h⟩ := bind_eq_ok.mp h
  have hnolist := parseWord_type_ne_list hplain
  have hnext : next = j := by
    split at h
    · obtain ⟨_, -, h⟩ := bind_eq_ok.mp h
      cases h
      rfl
    · cases h
    · cases h
      rfl
  refine ⟨plain, hnext ▸ hplain, parseWord_pointsInto _ hplain, fun vec hvec inner hinner => ?_⟩
  rcases wordToList_cases hvec with ⟨hsame, -⟩ | ⟨elements, texts, hmade, -, -, htexts⟩
  · exact absurd (congrArg Word.type hsame).symm hnolist
  · cases congrArg Word.data hmade
    obtain ⟨found, -, hmakes⟩ := mem_of_forall₂_right htexts hinner
    exact .of_view hmakes.text

/-- The scan of any word that points into the file is sound. -/
theorem wordToList_sound (hfind : interp.ReportsElements)
    (hfile : context.file = makeSourceFile fileName contents)
    (hword : word.text.PointsInto context.file) : ScanSound interp context word := by
  obtain ⟨result, hresult⟩ := collectElements_ok hfind hfile hword
  obtain ⟨hsome, hvec⟩ := wordToListFrom_splits hresult
  constructor
  · intro elements scan hscan
    exact (hscan.at hfind hword).1.distance
  · intro elements scan found hscan hfound
    have hat := (hscan.at hfind hword).1
    obtain ⟨hge, hle⟩ := hat.next hfind hword hfound
    have hdistance := hat.distance
    exact ⟨hge, by omega⟩
  · intro elements scan hscan
    obtain ⟨hat, hcount⟩ := hscan.at hfind hword
    have hdistance := hat.distance
    unfold StringView.last at hdistance
    omega
  · obtain ⟨elements, scan, hscan, hends⟩ := wordToListFrom_turns hresult
    exact ⟨elements, scan, result, hscan, hends, hresult⟩
  · intro elements hlist
    have hsplits := (splitsInto_iff hfind hword).mpr hlist
    obtain ⟨vec, rfl⟩ := Option.isSome_iff_exists.mp (hsome elements hsplits)
    obtain ⟨others, hothers, hmakes⟩ := hvec vec rfl
    cases hothers.unique hsplits
    refine ⟨vec, hresult, hlist.collects hfind hfile hword hmakes, ?_⟩
    rw [wordToList_of_collect hresult, hmakes.length_eq]
  · intro hnone
    cases result with
    | none => exact ⟨hresult, wordToList_of_collect hresult⟩
    | some vec =>
      obtain ⟨elements, hsplits, -⟩ := hvec vec rfl
      exact absurd ((splitsInto_iff hfind hword).mp hsplits) (hnone elements)

/-! ## A list that ends in an empty element and a space -/

/-- A file that is such a list. -/
def paddedList : SourceFile := makeSourceFile [] (bytes "a {b c} {} ")

/-- What `TclFindElement` finds in the list and in each rest of it. -/
def paddedListCalls : List (StringView × ListElement) :=
  [(paddedList.view 0 11, { element := 0, next := 2, size := 1 }),
    (paddedList.view 2 9, { element := 3, next := 8, size := 3 }),
    (paddedList.view 8 3, { element := 9, next := 11, size := 0 }),
    (paddedList.view 11 0, { element := 11, next := 11, size := 0 })]

def paddedListInterp : TclInterp where
  parseCommand _ := none
  findElement list := (paddedListCalls.find? fun call => call.1 = list).map Prod.snd

theorem paddedList_reports : paddedListInterp.ReportsElements := by
  have hcalls : ∀ call ∈ paddedListCalls, ReportedElement call.1 call.2 := by
    simp only [paddedListCalls, List.forall_mem_cons]
    refine ⟨?_, ?_, ?_, ?_, by simp⟩ <;>
      exact ⟨by decide +kernel, by decide +kernel, by decide +kernel, by decide +kernel⟩
  intro list found hfound
  obtain ⟨call, hcall, rfl⟩ := Option.map_eq_some_iff.mp hfound
  have hview := List.find?_some hcall
  rw [← of_decide_eq_true hview]
  exact hcalls call (List.mem_of_find?_eq_some hcall)

theorem paddedList_sound :
    ScanSound paddedListInterp { file := paddedList, curNs := [] } (textWord 0 "a {b c} {} ") :=
  wordToList_sound paddedList_reports rfl rfl

example : wordToList paddedListInterp { file := paddedList, curNs := [] } (textWord 0 "a {b c} {} ") =
    .ok (listWord 0 "a {b c} {} " [textWord 0 "a", textWord 3 "b c", textWord 9 ""]) := by
  rfl

end TclAnalyzer
