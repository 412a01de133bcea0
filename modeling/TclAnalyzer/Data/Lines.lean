import Mathlib.Data.List.Basic
import Mathlib.Data.List.Count
import Mathlib.Data.List.DropRight

/-!
# Lines

A sequence is cut into lines by a symbol that ends them. The position of an offset is the line it is
in and the distance from the start of that line; the positions in lexicographic order are the offsets
in order.
-/

namespace Lines

variable {α : Type*} [DecidableEq α] {eol : α} {l : List α} {a b : Nat}

/-- The number of line ends before an offset. -/
def lineOf (eol : α) (l : List α) (offset : Nat) : Nat := (l.take offset).count eol

/-- The offset at which a line starts: `0` for the first one, and after the `n`-th line end for
line `n`. -/
def lineStart (eol : α) : List α → Nat → Nat
  | _, 0 => 0
  | [], _ + 1 => 0
  | c :: cs, line + 1 => (if c = eol then lineStart eol cs line else lineStart eol cs (line + 1)) + 1

@[simp] theorem lineStart_zero : lineStart eol l 0 = 0 := by
  cases l <;> rfl

@[simp] theorem lineOf_zero : lineOf eol l 0 = 0 := by
  simp [lineOf]

theorem lineOf_succ_of_eq : lineOf eol (eol :: l) (a + 1) = lineOf eol l a + 1 := by
  simp [lineOf]

theorem lineOf_succ_of_ne {c : α} (h : c ≠ eol) : lineOf eol (c :: l) (a + 1) = lineOf eol l a := by
  simp [lineOf, h]

theorem lineOf_mono (eol : α) (l : List α) (h : a ≤ b) : lineOf eol l a ≤ lineOf eol l b :=
  (List.take_sublist_take_left h).count_le eol

theorem lineStart_succ_of_eq (line : Nat) :
    lineStart eol (eol :: l) (line + 1) = lineStart eol l line + 1 := by
  simp [lineStart]

/-- A symbol inside the first line moves the start of every later line. -/
theorem lineStart_of_ne {c : α} (h : c ≠ eol) {line : Nat} (hline : line ≠ 0) :
    lineStart eol (c :: l) line = lineStart eol l line + 1 := by
  cases line with
  | zero => exact absurd rfl hline
  | succ line => simp [lineStart, h]

/-- A line starts at or before the offsets in it. -/
theorem lineStart_lineOf_le (eol : α) (l : List α) (a : Nat) :
    lineStart eol l (lineOf eol l a) ≤ a := by
  induction l generalizing a with
  | nil => simp [lineOf]
  | cons c cs ih =>
    cases a with
    | zero => simp
    | succ a =>
      have hcs := ih a
      by_cases hc : c = eol
      · subst hc
        rw [lineOf_succ_of_eq, lineStart_succ_of_eq]
        omega
      · rw [lineOf_succ_of_ne hc]
        by_cases hline : lineOf eol cs a = 0
        · rw [hline, lineStart_zero]
          exact Nat.zero_le _
        · rw [lineStart_of_ne hc hline]
          omega

/-- A line starts behind the end of the one before. -/
theorem lineStart_behind_eol (before after : List α) :
    lineStart eol (before ++ eol :: after) (before.count eol + 1) = before.length + 1 := by
  induction before with
  | nil => rw [List.nil_append, List.count_nil, lineStart_succ_of_eq, lineStart_zero, List.length_nil]
  | cons c before ih =>
    by_cases hc : c = eol
    · subst hc
      rw [List.cons_append, List.count_cons_self, lineStart_succ_of_eq, ih, List.length_cons]
    · rw [List.cons_append, List.count_cons_of_ne hc, lineStart_of_ne hc (Nat.succ_ne_zero _), ih,
        List.length_cons]

/-- What stands between the start of a line and an offset in it is what follows the last line end. -/
theorem lineStart_add_column (eol : α) (before after : List α) :
    lineStart eol (before ++ after) (before.count eol) +
      (before.rtakeWhile fun c => c ≠ eol).length = before.length := by
  induction before using List.reverseRecOn generalizing after with
  | nil => simp
  | append_singleton before c ih =>
    rw [List.append_assoc, List.singleton_append, List.length_append, List.length_singleton]
    by_cases hc : c = eol
    · subst hc
      rw [List.count_append, List.count_singleton_self, lineStart_behind_eol,
        List.rtakeWhile_concat_neg _ _ _ (by simp), List.length_nil, Nat.add_zero]
    · have hnone : [c].count eol = 0 := by simp [hc]
      rw [List.count_append, hnone, Nat.add_zero, List.rtakeWhile_concat_pos _ _ _ (by simpa using hc),
        List.length_append, List.length_singleton, ← Nat.add_assoc, ih]

/-- The offsets in order are their positions in lexicographic order. -/
theorem lt_iff (eol : α) (l : List α) (a b : Nat) :
    a < b ↔ lineOf eol l a < lineOf eol l b ∨ lineOf eol l a = lineOf eol l b ∧
      a - lineStart eol l (lineOf eol l a) < b - lineStart eol l (lineOf eol l b) := by
  have ha := lineStart_lineOf_le eol l a
  have hb := lineStart_lineOf_le eol l b
  constructor
  · intro hlt
    rcases Nat.lt_or_eq_of_le (lineOf_mono eol l (Nat.le_of_lt hlt)) with h | h
    · exact Or.inl h
    · rw [h] at ha ⊢
      exact Or.inr ⟨rfl, by omega⟩
  · rintro (h | ⟨h, hcolumn⟩)
    · by_contra hle
      have := lineOf_mono eol l (Nat.le_of_not_lt hle)
      omega
    · rw [h] at ha hcolumn
      omega

end Lines
