import Mathlib.Algebra.GroupWithZero.Nat
import Mathlib.Data.List.Count
import Mathlib.Data.List.DropRight

/-!
# Positions in a text

A line ends with `\n`, with `\r` or with the two together. A place is what stands before and after it,
and its position is the number of line ends before it and the number of UTF-16 code units since the
last one. There is no place inside a line end.
-/

namespace TextPosition

/-- The number of UTF-16 code units of a character: a surrogate pair outside of the basic plane. -/
def utf16Size (c : Char) : Nat := if c.toNat ≤ 0xFFFF then 1 else 2

def utf16Length (text : List Char) : Nat := (text.map utf16Size).sum

def utf8Length (text : List Char) : Nat := (text.map Char.utf8Size).sum

def endsLine (c : Char) : Bool := c = '\n' ∨ c = '\r'

/-- The number of `\r` that no `\n` follows. -/
def loneReturns : List Char → Nat
  | [] => 0
  | c :: text => (if c = '\r' ∧ text.head? ≠ some '\n' then 1 else 0) + loneReturns text

def lineEnds (text : List Char) : Nat := text.count '\n' + loneReturns text

/-- What stands behind the last line end. -/
def lastLine (text : List Char) : List Char := text.rtakeWhile fun c => ¬endsLine c

def InsideLineEnd (before after : List Char) : Prop :=
  before.getLast? = some '\r' ∧ after.head? = some '\n'

/-- The position of a place. -/
def IsAt (line column : Nat) (before after : List Char) : Prop :=
  ¬InsideLineEnd before after ∧ line = lineEnds before ∧ column = utf16Length (lastLine before)

/-- A position denotes the place it belongs to. A column past the end of its line stands for that end. -/
def Denotes (line column : Nat) (before after : List Char) : Prop :=
  ¬InsideLineEnd before after ∧ line = lineEnds before ∧
    (column = utf16Length (lastLine before) ∨
      utf16Length (lastLine before) < column ∧ after.head?.all endsLine)

variable {before after text : List Char}

/-! ## Sizes -/

theorem utf16Size_pos (c : Char) : 1 ≤ utf16Size c := by
  unfold utf16Size
  split <;> decide

/-- UTF-8 takes as many bytes for a character as UTF-16 takes code units only in ASCII. -/
theorem utf16Size_le (c : Char) :
    utf16Size c ≤ c.utf8Size ∧ (c.utf8Size = utf16Size c ↔ c.toNat < 128) := by
  unfold utf16Size Char.utf8Size Char.toNat
  simp only [UInt32.le_iff_toNat_le]
  split <;> split <;> try split
  all_goals (try split) <;> simp_all <;> omega

@[simp] theorem utf16Length_cons (c : Char) :
    utf16Length (c :: text) = utf16Size c + utf16Length text := by
  simp [utf16Length]

@[simp] theorem utf8Length_cons (c : Char) :
    utf8Length (c :: text) = c.utf8Size + utf8Length text := by
  simp [utf8Length]

theorem utf16Length_append (text' : List Char) :
    utf16Length (text ++ text') = utf16Length text + utf16Length text' := by
  simp [utf16Length]

theorem utf16Length_le : utf16Length text ≤ utf8Length text := by
  induction text with
  | nil => exact Nat.le_refl 0
  | cons c text ih =>
    rw [utf16Length_cons, utf8Length_cons]
    exact Nat.add_le_add (utf16Size_le c).1 ih

theorem utf8Length_eq_iff : utf8Length text = utf16Length text ↔ ∀ c ∈ text, c.toNat < 128 := by
  induction text with
  | nil => simp [utf8Length, utf16Length]
  | cons c text ih =>
    obtain ⟨hc, hiff⟩ := utf16Size_le c
    have hle : utf16Length text ≤ utf8Length text := utf16Length_le
    rw [List.forall_mem_cons, ← ih, ← hiff, utf16Length_cons, utf8Length_cons]
    omega

/-! ## Line ends -/

theorem loneReturns_append (h : ¬InsideLineEnd before after) :
    loneReturns (before ++ after) = loneReturns before + loneReturns after := by
  induction before with
  | nil => simp [loneReturns]
  | cons c before ih =>
    cases before with
    | nil =>
      have hc : c = '\r' → after.head? ≠ some '\n' := fun hc hafter => h ⟨by rw [hc]; rfl, hafter⟩
      by_cases hreturn : c = '\r'
      · simp [loneReturns, hreturn, hc hreturn]
      · simp [loneReturns, hreturn]
    | cons d before =>
      have hrest := ih fun hinside => h ⟨by rw [List.getLast?_cons_cons, hinside.1], hinside.2⟩
      rw [List.cons_append, loneReturns, hrest, ← Nat.add_assoc]
      rfl

theorem lineEnds_append (h : ¬InsideLineEnd before after) :
    lineEnds (before ++ after) = lineEnds before + lineEnds after := by
  rw [lineEnds, lineEnds, lineEnds, List.count_append, loneReturns_append h]
  omega

theorem loneReturns_le_append : loneReturns after ≤ loneReturns (before ++ after) := by
  induction before with
  | nil => exact Nat.le_refl _
  | cons c before ih => exact Nat.le_trans ih (Nat.le_add_left _ _)

/-- A text without line ends has none of the characters that make them. -/
theorem not_endsLine_of_lineEnds (h : lineEnds text = 0) : ∀ c ∈ text, endsLine c = false := by
  induction text with
  | nil => simp
  | cons c text ih =>
    rw [lineEnds, loneReturns, List.count_cons] at h
    have htext : lineEnds text = 0 := by
      rw [lineEnds]
      omega
    refine List.forall_mem_cons.mpr ⟨?_, ih htext⟩
    have hnewline : c ≠ '\n' := by
      rintro rfl
      simp at h
    have hreturn : c ≠ '\r' := by
      rintro rfl
      -- a `\n` after it would be a line end of the rest
      have hnext : text.head? = some '\n' := by
        by_contra hnext
        simp [hnext] at h
      have hmem : '\n' ∈ text := List.mem_of_mem_head? hnext
      exact absurd (ih htext _ hmem) (by decide)
    simp [endsLine, hnewline, hreturn]

theorem rtakeWhile_append {α : Type*} {p : α → Bool} {l l' : List α} (h : ∀ a ∈ l', p a = true) :
    (l ++ l').rtakeWhile p = l.rtakeWhile p ++ l' := by
  rw [List.rtakeWhile, List.rtakeWhile, List.reverse_append,
    List.takeWhile_append_of_pos fun a ha => h a (List.mem_reverse.mp ha), List.reverse_append,
    List.reverse_reverse]

theorem lastLine_append (h : lineEnds after = 0) :
    lastLine (before ++ after) = lastLine before ++ after := by
  refine rtakeWhile_append fun c hc => ?_
  simp [not_endsLine_of_lineEnds h c hc]

/-- Where no `\r` stands alone, the last line starts behind the last `\n`. -/
theorem lastLine_eq (h : loneReturns text = 0) :
    lastLine text = text.rtakeWhile fun c => c ≠ '\n' := by
  obtain ⟨before, htext⟩ := List.rtakeWhile_suffix (fun c => decide (c ≠ '\n')) text
  set line := text.rtakeWhile fun c => c ≠ '\n' with hline
  have hnewline : line.count '\n' = 0 := by
    rw [List.count_eq_zero]
    intro hmem
    simpa using List.mem_rtakeWhile_imp hmem
  have hreturns : loneReturns line ≤ loneReturns (before ++ line) := loneReturns_le_append
  have hnone : lineEnds line = 0 := by
    rw [htext, h] at hreturns
    rw [lineEnds]
    omega
  have hself : lastLine line = line :=
    List.rtakeWhile_eq_self_iff.mpr fun c hc => by simp [not_endsLine_of_lineEnds hnone c hc]
  rw [← hself, hline, lastLine, lastLine, List.rtakeWhile, List.rtakeWhile, List.rtakeWhile,
    List.reverse_reverse, List.takeWhile_takeWhile]
  congr 2
  funext c
  by_cases hc : c = '\n' <;> simp [endsLine, hc]

/-! ## Positions -/

theorem Denotes.of_isAt {line column : Nat} (h : IsAt line column before after) :
    Denotes line column before after :=
  ⟨h.1, h.2.1, .inl h.2.2⟩

/-- A position does not denote two places of which one is further on. -/
theorem Denotes.eq_nil {line column : Nat} {between : List Char}
    (h : Denotes line column before (between ++ after))
    (h' : Denotes line column (before ++ between) after) : between = [] := by
  obtain ⟨hplace, hline, hcolumn⟩ := h
  obtain ⟨-, hline', hcolumn'⟩ := h'
  cases between with
  | nil => rfl
  | cons c between =>
    exfalso
    have hinside : ¬InsideLineEnd before (c :: between) := hplace
    rw [hline, lineEnds_append hinside] at hline'
    have hnone : lineEnds (c :: between) = 0 := by omega
    have hc := not_endsLine_of_lineEnds hnone c List.mem_cons_self
    rw [lastLine_append hnone, utf16Length_append, utf16Length_cons] at hcolumn'
    have hpos := utf16Size_pos c
    rcases hcolumn with hcolumn | ⟨-, hend⟩
    · omega
    · simp [hc] at hend

/-- A position denotes at most one place of a text. -/
theorem Denotes.unique {line column : Nat} {before' after' : List Char}
    (htext : before' ++ after' = before ++ after) (h : Denotes line column before after)
    (h' : Denotes line column before' after') : before' = before := by
  rcases List.append_eq_append_iff.mp htext with ⟨between, rfl, rfl⟩ | ⟨between, rfl, rfl⟩
  · rw [h'.eq_nil h, List.append_nil]
  · rw [h.eq_nil h', List.append_nil]

end TextPosition
