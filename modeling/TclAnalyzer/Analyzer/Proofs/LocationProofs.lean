import TclAnalyzer.Analyzer.Cursor
import TclAnalyzer.Data.Lines

/-!
# Locations

Every offset up to the end of the file has a location, and greater offsets have later ones. A view that
is not empty ends in the file.
-/

namespace TclAnalyzer

open Lines

variable {file : SourceFile} {pos : LinePos} {offset : Nat}

/-! ## Views -/

theorem view_length_le (file : SourceFile) (data size : Nat) :
    (file.view data size).bytes.length ≤ size := List.length_take_le _ _

theorem view_length_eq {file : SourceFile} {data size : Nat} (h : data + size ≤ file.contents.length) :
    (file.view data size).bytes.length = size := by
  simp only [SourceFile.view, List.length_take, List.length_drop]
  omega

theorem view_finish_le (file : SourceFile) (data size : Nat) (h : data ≤ file.contents.length) :
    data + (file.view data size).bytes.length ≤ file.contents.length := by
  simp only [SourceFile.view, List.length_take, List.length_drop]
  omega

theorem view_fits {file : SourceFile} {data size : Nat}
    (h : 0 < (file.view data size).bytes.length) :
    data + (file.view data size).bytes.length ≤ file.contents.length := by
  simp only [SourceFile.view, List.length_take, List.length_drop] at h ⊢
  omega

theorem view_view (file : SourceFile) (data size : Nat) :
    file.view data (file.view data size).bytes.length = file.view data size := by
  simp only [SourceFile.view, List.length_take]
  rw [← List.take_eq_take_min]

/-! ## Offsets of a file -/

/-- The search of `OffsetToLineByte` from a line that starts at or before the offset: the table that
is left is that of the contents from offset `k` on. -/
theorem offsetToLineByteFrom_eq {i startOfLine k : Nat} {contents : Str}
    (hstart : startOfLine ≤ offset) (hend : offset ≤ k + contents.length) :
    offsetToLineByteFrom offset i startOfLine (newlinesFrom k contents ++ [k + contents.length]) =
      .ok { line := i + lineOf newline contents (offset - k),
            column := offset - if lineOf newline contents (offset - k) = 0 then startOfLine
              else k + lineStart newline contents (lineOf newline contents (offset - k)) } := by
  induction contents generalizing i startOfLine k with
  | nil =>
    have hnot : ¬ offset < startOfLine := by omega
    rw [List.length_nil, Nat.add_zero] at hend
    rw [newlinesFrom, List.nil_append, List.length_nil, Nat.add_zero, offsetToLineByteFrom,
      if_pos hend, if_neg hnot]
    simp [lineOf]
  | cons c contents ih =>
    rw [List.length_cons] at hend
    have hlength : k + (c :: contents).length = k + 1 + contents.length := by
      rw [List.length_cons]
      omega
    rw [newlinesFrom, hlength]
    by_cases hle : offset ≤ k
    · -- the offset is in the line that the search is at
      have hzero : offset - k = 0 := by omega
      rw [hzero, lineOf_zero]
      by_cases hnewline : c = newline
      · have hnot : ¬ offset < startOfLine := by omega
        rw [if_pos hnewline, List.cons_append, offsetToLineByteFrom, if_pos hle, if_neg hnot]
        simp
      · have hzero' : offset - (k + 1) = 0 := by omega
        have := ih (i := i) (k := k + 1) hstart (by omega)
        rw [hzero', lineOf_zero] at this
        rw [if_neg hnewline]
        exact this
    · have hsucc : offset - k = offset - (k + 1) + 1 := by omega
      rw [hsucc]
      by_cases hnewline : c = newline
      · subst hnewline
        rw [if_pos rfl, List.cons_append, offsetToLineByteFrom, if_neg hle,
          ih (i := i + 1) (k := k + 1) (by omega) (by omega), lineOf_succ_of_eq,
          lineStart_succ_of_eq, if_neg (Nat.succ_ne_zero _)]
        congr 2
        · omega
        · congr 1
          split
          · next hline =>
            rw [hline, lineStart_zero]
          · omega
      · rw [if_neg hnewline, ih (i := i) (k := k + 1) hstart (by omega), lineOf_succ_of_ne hnewline]
        congr 3
        split
        · rfl
        · next hline =>
          rw [lineStart_of_ne hnewline hline]
          omega

/-- The position of an offset of the file: the newlines before it, and its distance from the start of
its line. -/
theorem offsetToLineByte_eq (fileName : Str) {contents : Str} (h : offset ≤ contents.length) :
    offsetToLineByte (makeSourceFile fileName contents) offset =
      .ok { line := lineOf newline contents offset,
            column := offset - lineStart newline contents (lineOf newline contents offset) } := by
  have hend : offset ≤ 0 + contents.length := by omega
  have heq := offsetToLineByteFrom_eq (i := 0) (Nat.zero_le offset) hend
  simp only [Nat.zero_add, Nat.sub_zero] at heq
  refine heq.trans ?_
  split
  · next hline => rw [hline, lineStart_zero]
  · rfl

/-- Offsets and positions correspond: no assertion fails and nothing underflows, the line is the
number of newlines before the offset, the start of the line and the column give the offset back, and
positions are in the order of their offsets. -/
theorem offsetToLineByte_iso (fileName : Str) {contents : Str} (h : offset ≤ contents.length) :
    ∃ pos, offsetToLineByte (makeSourceFile fileName contents) offset = .ok pos ∧
      pos.line = (contents.take offset).count newline ∧
      lineStart newline contents pos.line ≤ offset ∧
      pos.column = offset - lineStart newline contents pos.line ∧
      lineStart newline contents pos.line + pos.column = offset ∧
      ∀ later ≤ contents.length, ∀ laterPos,
        offsetToLineByte (makeSourceFile fileName contents) later = .ok laterPos →
        (offset < later ↔ pos < laterPos) := by
  have hle := lineStart_lineOf_le newline contents offset
  refine ⟨_, offsetToLineByte_eq fileName h, rfl, hle, rfl, by dsimp only; omega, ?_⟩
  intro later hlater laterPos hpos
  cases (offsetToLineByte_eq fileName hlater).symm.trans hpos
  exact Lines.lt_iff newline contents offset later

/-- In a file with an empty line that ends with a newline, the end of the file is a line of its own. -/
theorem emptyLines_iso : ∃ pos, offsetToLineByte (makeSourceFile [] (bytes "a\n\nb\n")) 5 = .ok pos ∧
    pos.line = ((bytes "a\n\nb\n").take 5).count newline ∧
    lineStart newline (bytes "a\n\nb\n") pos.line ≤ 5 ∧
    pos.column = 5 - lineStart newline (bytes "a\n\nb\n") pos.line ∧
    lineStart newline (bytes "a\n\nb\n") pos.line + pos.column = 5 ∧
    ∀ later ≤ (bytes "a\n\nb\n").length, ∀ laterPos,
      offsetToLineByte (makeSourceFile [] (bytes "a\n\nb\n")) later = .ok laterPos →
      (5 < later ↔ pos < laterPos) :=
  offsetToLineByte_iso [] (by decide)

theorem makeSourceLocation_ok (fileName : Str) {contents : Str} (h : offset ≤ contents.length) :
    ∃ location, makeSourceLocation (makeSourceFile fileName contents) offset = .ok location :=
  ⟨_, bind_eq_ok.mpr ⟨_, offsetToLineByte_eq fileName h, rfl⟩⟩

/-! ## Order -/

theorem le_line_of_offsetToLineByteFrom {a i startOfLine : Nat} {newlines : List Nat} {p : LinePos}
    (h : offsetToLineByteFrom a i startOfLine newlines = .ok p) : i ≤ p.line := by
  induction newlines generalizing i startOfLine with
  | nil => cases h
  | cons n newlines ih =>
    rw [offsetToLineByteFrom] at h
    split at h
    · split at h
      · cases h
      · cases h
        exact Nat.le_refl i
    · have := ih h
      omega

/-- Greater offsets have greater positions. -/
theorem offsetToLineByteFrom_lt {a b i startOfLine : Nat} {newlines : List Nat} {p q : LinePos}
    (hab : a < b) (hp : offsetToLineByteFrom a i startOfLine newlines = .ok p)
    (hq : offsetToLineByteFrom b i startOfLine newlines = .ok q) :
    p.line < q.line ∨ p.line = q.line ∧ p.column < q.column := by
  induction newlines generalizing i startOfLine with
  | nil => cases hp
  | cons n newlines ih =>
    rw [offsetToLineByteFrom] at hp hq
    by_cases hb : b ≤ n
    · have ha : a ≤ n := by omega
      rw [if_pos ha] at hp
      rw [if_pos hb] at hq
      split at hp
      · cases hp
      split at hq
      · cases hq
      cases hp
      cases hq
      exact Or.inr ⟨rfl, by dsimp only; omega⟩
    · rw [if_neg hb] at hq
      by_cases ha : a ≤ n
      · rw [if_pos ha] at hp
        split at hp
        · cases hp
        cases hp
        exact Or.inl (le_line_of_offsetToLineByteFrom hq)
      · rw [if_neg ha] at hp
        exact ih hp hq

theorem location_of_makeSourceLocation {a : Nat} {location : SourceLocation}
    (h : makeSourceLocation file a = .ok location) :
    offsetToLineByte file a = .ok { line := location.line, column := location.column } := by
  obtain ⟨p, hp, h⟩ := bind_eq_ok.mp h
  cases h
  exact hp

theorem startsAfter_eq_true_iff (location : SourceLocation) (pos : LinePos) :
    startsAfter location pos = true ↔
      location.line > pos.line ∨ location.line = pos.line ∧ location.column > pos.column :=
  decide_eq_true_iff

/-- A location is after a position when its offset is after the offset of the position. -/
theorem startsAfter_iff {a : Nat} {location : SourceLocation}
    (hlocation : makeSourceLocation file a = .ok location)
    (hpos : offsetToLineByte file offset = .ok pos) :
    startsAfter location pos = true ↔ offset < a := by
  have hlocation := location_of_makeSourceLocation hlocation
  rw [startsAfter_eq_true_iff]
  rcases Nat.lt_trichotomy a offset with hlt | heq | hgt
  · have horder := offsetToLineByteFrom_lt hlt hlocation hpos
    dsimp only at horder
    constructor
    · intro h
      omega
    · intro h
      omega
  · subst heq
    cases hlocation.symm.trans hpos
    simp
  · have horder := offsetToLineByteFrom_lt hgt hpos hlocation
    dsimp only at horder
    constructor
    · exact fun _ => hgt
    · intro _
      omega

end TclAnalyzer
