import TclAnalyzer.Analyzer.Samples
import TclAnalyzer.Analyzer.Proofs.LocatedProofs
import TclAnalyzer.Analyzer.Proofs.LocationProofs
import TclAnalyzer.Lsp.Client

/-!
# Positions agree on ASCII lines

The column that the server sends and looks up is a number of bytes. It is the number of UTF-16 code
units as long as all characters before it on its line are ASCII, and the line is the client's as long
as no `\r` stands alone before it.
-/

namespace TclAnalyzer

open TextPosition

variable {before after text : List Char}

/-! ## Texts in UTF-8 -/

theorem utf8_append (text' : List Char) : utf8 (text ++ text') = utf8 text ++ utf8 text' :=
  List.flatMap_append

theorem length_utf8 (text : List Char) : (utf8 text).length = utf8Length text := by
  induction text with
  | nil => rfl
  | cons c text ih =>
    rw [utf8, List.flatMap_cons, List.length_append, String.length_utf8EncodeChar, utf8Length_cons,
      ← ih, utf8]

/-- The byte `'\n'` is in the encoding of no other character. -/
theorem newline_not_mem {c : Char} (hc : c ≠ '\n') : newline ∉ String.utf8EncodeChar c := by
  have hval : c.val.toNat ≠ 10 := fun h => hc (Char.toNat_inj.mp h)
  have hlt : c.val.toNat < 0x110000 := by
    have hvalid := c.valid
    unfold UInt32.isValidChar Nat.isValidChar at hvalid
    omega
  have hten : newline.toNat = 10 := rfl
  unfold String.utf8EncodeChar
  generalize c.val.toNat = v at hval hlt
  dsimp only
  split_ifs <;> simp only [List.mem_cons, List.not_mem_nil, or_false, ← UInt8.toNat_inj,
    UInt8.toNat_ofNat', hten] <;> omega

theorem count_utf8 : (utf8 text).count newline = text.count '\n' := by
  induction text with
  | nil => rfl
  | cons c text ih =>
    rw [utf8] at ih
    rw [utf8, List.flatMap_cons, List.count_append, List.count_cons, ih]
    by_cases hc : c = '\n'
    · subst hc
      rw [Nat.add_comm]
      rfl
    · rw [List.count_eq_zero.mpr (newline_not_mem hc)]
      simp [hc]

/-- The bytes of the last line are the encoding of the last line. -/
theorem rtakeWhile_utf8 : ((utf8 text).rtakeWhile fun c => c ≠ newline) =
    utf8 (text.rtakeWhile fun c => c ≠ '\n') := by
  induction text using List.reverseRecOn with
  | nil => rfl
  | append_singleton text c ih =>
    have hchar : utf8 [c] = String.utf8EncodeChar c := List.flatMap_singleton _ _
    rw [utf8_append, hchar]
    by_cases hc : c = '\n'
    · subst hc
      have hbyte : String.utf8EncodeChar '\n' = [newline] := rfl
      rw [hbyte, List.rtakeWhile_concat_neg _ _ _ (by simp),
        List.rtakeWhile_concat_neg _ _ _ (by simp)]
      rfl
    · have hbytes : ∀ b ∈ String.utf8EncodeChar c, decide (b ≠ newline) = true := by
        intro b hb
        refine decide_eq_true fun hnewline => newline_not_mem hc ?_
        rwa [← hnewline]
      rw [rtakeWhile_append hbytes, ih, List.rtakeWhile_concat_pos _ _ _ (by simpa using hc),
        utf8_append, hchar]

/-- The place between the two parts of a text as the server has it. -/
theorem offsetToLineByte_utf8 (fileName : Str) (before after : List Char) :
    offsetToLineByte (makeSourceFile fileName (utf8 (before ++ after))) (utf8 before).length =
      .ok { line := before.count '\n',
            column := utf8Length (before.rtakeWhile fun c => c ≠ '\n') } := by
  have hlength : (utf8 before).length ≤ (utf8 (before ++ after)).length := by
    rw [utf8_append, List.length_append]
    exact Nat.le_add_right _ _
  have hline : Lines.lineOf newline (utf8 (before ++ after)) (utf8 before).length =
      before.count '\n' := by
    rw [Lines.lineOf, utf8_append, List.take_left, count_utf8]
  have hcolumn := Lines.lineStart_add_column newline (utf8 before) (utf8 after)
  rw [count_utf8, rtakeWhile_utf8, length_utf8 (before.rtakeWhile _)] at hcolumn
  rw [offsetToLineByte_eq fileName hlength, hline, utf8_append]
  congr 2
  omega

/-! ## Lookups -/

/-- A word at this position. -/
def wordAt (pos : LinePos) : Word :=
  { type := .TEXT
    location := { fileName := [], offset := 0, line := pos.line, column := pos.column }
    text := { data := 0, bytes := [] }
    data := .nothing }

/-- A script with that word only. -/
def scriptAt (pos : LinePos) : Script :=
  { location := (wordAt pos).location, commands := [⟨.USER, [wordAt pos], []⟩] }

theorem findPositionInScript_scriptAt (pos pos' : LinePos) :
    findPositionInScript pos (scriptAt pos') =
      .ok (if startsAfter (wordAt pos').location pos then .empty
        else { call := some ⟨.USER, [wordAt pos'], []⟩, argument := 0,
               word := some (wordAt pos') }) := by
  cases hafter : startsAfter (wordAt pos').location pos <;> rw [wordAt] at hafter <;>
    simp [scriptAt, wordAt, findPositionInScript, findPositionInCalls, findPositionInCall,
      findPositionInArguments, findPositionInWord, findPositionInData, hafter, ok_bind,
      pure_eq_ok]

/-- Positions at which the same is found in all scripts are the same. -/
theorem eq_of_findPositionInScript {p q : LinePos}
    (h : ∀ script, findPositionInScript p script = findPositionInScript q script) : p = q := by
  have hbefore : ∀ {p q : LinePos},
      findPositionInScript p (scriptAt q) = findPositionInScript q (scriptAt q) →
      startsAfter (wordAt q).location p = false := by
    intro p q heq
    rw [findPositionInScript_scriptAt, findPositionInScript_scriptAt] at heq
    have hself : startsAfter (wordAt q).location q = false := by
      simp [startsAfter, wordAt]
    cases hafter : startsAfter (wordAt q).location p with
    | false => rfl
    | true =>
      rw [hafter, hself] at heq
      cases heq
  have hq := decide_eq_false_iff_not.mp (hbefore (h (scriptAt q)))
  have hp := decide_eq_false_iff_not.mp (hbefore (h (scriptAt p)).symm)
  obtain ⟨pline, pcolumn⟩ := p
  obtain ⟨qline, qcolumn⟩ := q
  rw [LinePos.mk.injEq]
  dsimp only [wordAt] at hp hq
  omega

/-- `GetCursor` on a document with this script. -/
theorem getCursor_script (position : Position) (script : Script) : ∃ server uri document,
    server.documents uri = some document ∧ document.script = script ∧
    getCursor server uri position =
      findPositionInScript { line := position.line, column := position.character } script := by
  let document : Document := { newDocument ⟨[], [], 0, []⟩ with script }
  exact ⟨{ Server.initial with documents := fun _ => some document }, [], document, rfl, rfl, rfl⟩

/-- The lookup of a position is that of a byte exactly when the server has the byte there. -/
theorem lookup_iff {file : SourceFile} {offset : Nat} {pos : LinePos}
    (hpos : offsetToLineByte file offset = .ok pos) (position : Position) :
    (∀ (server : Server) uri document, server.documents uri = some document →
      getCursor server uri position = do
        let pos ← offsetToLineByte file offset
        findPositionInScript pos document.script) ↔
    pos = { line := position.line, column := position.character } := by
  rw [hpos]
  constructor
  · intro hall
    refine eq_of_findPositionInScript fun script => ?_
    obtain ⟨server, uri, document, hdocument, rfl, hcursor⟩ := getCursor_script position script
    exact (hcursor.symm.trans (hall server uri document hdocument)).symm
  · rintro rfl server uri document hdocument
    simp [getCursor, hdocument]

/-! ## Agreement -/

/-- The server has a place where the client has it exactly when no `\r` stands alone before it and the
characters before it on its line are ASCII. -/
theorem place_iff : (before.count '\n' = lineEnds before ∧
      utf8Length (before.rtakeWhile fun c => c ≠ '\n') = utf16Length (lastLine before)) ↔
    loneReturns before = 0 ∧ ∀ c ∈ lastLine before, c.toNat < 128 := by
  have hline : before.count '\n' = lineEnds before ↔ loneReturns before = 0 := by
    rw [lineEnds]
    omega
  rw [hline]
  refine and_congr_right fun hreturns => ?_
  rw [← lastLine_eq hreturns, utf8Length_eq_iff]

/-- Client and server mean the same place by the position of a word exactly when the place is one to
the client, no `\r` stands alone before it, and the characters before it on its line are ASCII. -/
theorem positionsAgree_iff {interp : TclInterp} {context : ParseContext} {view : StringView}
    {script : Script} {fileName : Str} {word : Word}
    (hfile : context.file = makeSourceFile fileName (utf8 (before ++ after)))
    (hparse : parseScript interp context view = .ok script) (hword : word ∈ script.allWords)
    (hstart : word.location.offset = (utf8 before).length) :
    word.PositionsAgree context.file before after ↔
      ¬InsideLineEnd before after ∧ loneReturns before = 0 ∧
        ∀ c ∈ lastLine before, c.toNat < 128 := by
  have hlocation := parseScript_located hparse word hword
  have hpos : offsetToLineByte context.file word.location.offset =
      .ok { line := word.location.line, column := word.location.column } :=
    location_of_makeSourceLocation hlocation
  have hbyte := offsetToLineByte_utf8 fileName before after
  rw [← hfile, ← hstart] at hbyte
  obtain ⟨hline, hcolumn⟩ := LinePos.mk.inj (Except.ok.inj (hpos.symm.trans hbyte))
  have hsends : ∀ r : Reference, r.location = word.location → r.toLocation.range.start =
      { line := word.location.line, character := word.location.column } := by
    intro r hr
    rw [Reference.toLocation, hr]
  rw [← place_iff]
  constructor
  · rintro ⟨hsent, hrequest⟩
    obtain ⟨hplace, -⟩ := (hsent ⟨word.location, 0, .USAGE⟩ rfl before after rfl).mpr rfl
    have hlookup := (lookup_iff hpos ⟨lineEnds before, utf16Length (lastLine before)⟩).mp
      (hrequest _ ⟨hplace, rfl, rfl⟩)
    obtain ⟨hline', hcolumn'⟩ := LinePos.mk.inj hlookup
    exact ⟨hplace, hline.symm.trans hline', hcolumn.symm.trans hcolumn'⟩
  · rintro ⟨hplace, hline', hcolumn'⟩
    have hat : IsAt word.location.line word.location.column before after :=
      ⟨hplace, hline.trans hline', hcolumn.trans hcolumn'⟩
    constructor
    · intro r hr before' after' htext
      rw [hsends r hr]
      constructor
      · exact fun hdenotes => Denotes.unique htext (.of_isAt hat) hdenotes
      · rintro rfl
        obtain rfl := List.append_cancel_left htext
        exact .of_isAt hat
    · rintro ⟨line, character⟩ ⟨-, hpline, hpcolumn⟩
      refine (lookup_iff hpos _).mpr ?_
      rw [hpline, hpcolumn, hat.2.1, hat.2.2]

/-! ## A usage behind an accent -/

/-- What is before and after the last word of a document with `proc f {} {}` in one line and `é; f` in
the next. -/
def accentBefore : List Char := "proc f {} {}\né; ".toList

def accentAfter : List Char := "f".toList

def accent : SourceFile := makeSourceFile [] (utf8 (accentBefore ++ accentAfter))

/-- The Tcl library on the commands of that document. -/
def accentInterp : TclInterp where
  parseCommand view :=
    if view = accent.view 0 18 then
      some { commandStart := 0, commandSize := 13, commentSize := 0, numWords := 4, tokens :=
        [⟨.SIMPLE_WORD, 0, 4, 1⟩, ⟨.TEXT, 0, 4, 0⟩, ⟨.SIMPLE_WORD, 5, 1, 1⟩, ⟨.TEXT, 5, 1, 0⟩,
          ⟨.SIMPLE_WORD, 7, 2, 1⟩, ⟨.TEXT, 8, 0, 0⟩, ⟨.SIMPLE_WORD, 10, 2, 1⟩, ⟨.TEXT, 11, 0, 0⟩] }
    else if view = accent.view 13 5 then
      some { commandStart := 13, commandSize := 3, commentSize := 0, numWords := 1, tokens :=
        [⟨.SIMPLE_WORD, 13, 2, 1⟩, ⟨.TEXT, 13, 2, 0⟩] }
    else if view = accent.view 16 2 then
      some { commandStart := 17, commandSize := 1, commentSize := 0, numWords := 1, tokens :=
        [⟨.SIMPLE_WORD, 17, 1, 1⟩, ⟨.TEXT, 17, 1, 0⟩] }
    else none
  findElement view :=
    if view = accent.view 8 0 then some { element := 8, next := 8, size := 0 } else none

/-- The run of the parser and of `Build` on that document: the usage of `f` is in the index. -/
theorem accent_run : ∃ script result word,
    parseScript accentInterp { file := accent, curNs := [] } (accent.view 0 18) = .ok script ∧
    buildNew script = .ok result ∧ word ∈ script.allWords ∧
    word.location.offset = (utf8 accentBefore).length ∧ word.location.line = 1 ∧
    word.location.column = 4 ∧ ∃ r ∈ result.index.procs.references, r.location = word.location := by
  obtain ⟨script, result, hparse, hbuild, htest⟩ := exists_built (fun r =>
    r.1.allWords.any fun word => word.location.offset = (utf8 accentBefore).length ∧
      word.location.line = 1 ∧ word.location.column = 4 ∧
      r.2.index.procs.references.any fun r => r.location = word.location)
    (show returns (parseAndBuild accentInterp { file := accent, curNs := [] } (accent.view 0 18)) _ =
      true by decide +kernel)
  obtain ⟨word, hword, htest⟩ := List.any_eq_true.mp htest
  obtain ⟨hoffset, hline, hcolumn, hreference⟩ := of_decide_eq_true htest
  obtain ⟨r, hr, hlocation⟩ := List.any_eq_true.mp hreference
  exact ⟨script, result, word, hparse, hbuild, hword, hoffset, hline, hcolumn, r, hr,
    of_decide_eq_true hlocation⟩

/-- The position sent for the usage is column `4` of its line, the end of it, and `f` is in column `3`. -/
theorem accent_positions_differ : ∃ script result word,
    parseScript accentInterp { file := accent, curNs := [] } (accent.view 0 18) = .ok script ∧
    buildNew script = .ok result ∧ word ∈ script.allWords ∧
    word.location.offset = (utf8 accentBefore).length ∧
    (∃ r ∈ result.index.procs.references, r.location = word.location) ∧
    ¬word.PositionsAgree accent accentBefore accentAfter := by
  obtain ⟨script, result, word, hparse, hbuild, hword, hoffset, hline, hcolumn, hreference⟩ :=
    accent_run
  refine ⟨script, result, word, hparse, hbuild, hword, hoffset, hreference, fun hagree => ?_⟩
  have hdenotes := (hagree.sent ⟨word.location, 0, .USAGE⟩ rfl accentBefore accentAfter rfl).mpr rfl
  have hwidth : utf16Length (lastLine accentBefore) = 3 := by decide +kernel
  have hend : accentAfter.head?.all endsLine = false := by decide +kernel
  obtain ⟨-, -, hdenotes⟩ := hdenotes
  simp [Reference.toLocation, hcolumn, hwidth, hend] at hdenotes

/-- They agree on the name of the proc, in the first line. -/
theorem accent_positions_iff : ∃ script word name,
    parseScript accentInterp { file := accent, curNs := [] } (accent.view 0 18) = .ok script ∧
    word ∈ script.allWords ∧ (word.PositionsAgree accent accentBefore accentAfter ↔
      ¬InsideLineEnd accentBefore accentAfter ∧ loneReturns accentBefore = 0 ∧
        ∀ c ∈ lastLine accentBefore, c.toNat < 128) ∧
    name ∈ script.allWords ∧
      name.PositionsAgree accent "proc ".toList ("f {} {}\né; ".toList ++ accentAfter) := by
  obtain ⟨script, result, word, hparse, -, hword, hoffset, -⟩ := accent_run
  have hname : (script.allWords.any fun name => name.location.offset = 5) = true := by
    obtain ⟨script', result', hparse', -, htest⟩ := exists_built (fun r =>
      r.1.allWords.any fun name => name.location.offset = 5)
      (show returns (parseAndBuild accentInterp { file := accent, curNs := [] } (accent.view 0 18)) _ =
        true by decide +kernel)
    cases hparse.symm.trans hparse'
    exact htest
  obtain ⟨name, hname, hfive⟩ := List.any_eq_true.mp hname
  have hfile : accent = makeSourceFile []
      (utf8 ("proc ".toList ++ ("f {} {}\né; ".toList ++ accentAfter))) := by decide +kernel
  have hfive : name.location.offset = (utf8 "proc ".toList).length := of_decide_eq_true hfive
  refine ⟨script, word, name, hparse, hword, positionsAgree_iff rfl hparse hword hoffset, hname, ?_⟩
  have hline : lastLine "proc ".toList = "proc ".toList := by decide
  have hplain : ∀ c ∈ lastLine "proc ".toList, c.toNat < 128 := by
    rw [hline]
    simp
  refine (positionsAgree_iff hfile hparse hname hfive).mpr ⟨?_, by decide, hplain⟩
  rintro ⟨-, hafter⟩
  exact absurd hafter (by decide)

end TclAnalyzer
