import Mathlib.Data.List.Basic
import Mathlib.Data.List.Nodup
import Mathlib.Order.Lattice

/-!
# The first greatest element of a list

The element that is left over when a list is gone through from the left and another element is taken
whenever its key is greater.
-/

/-- The element has the greatest key of the list and is the first one that has it. -/
def FirstMax {α ι : Type*} [LinearOrder ι] (key : α → ι) (l : List α) (a : α) : Prop :=
  ∃ before after, l = before ++ a :: after ∧ (∀ b ∈ before, key b < key a) ∧
    ∀ b ∈ after, key b ≤ key a

namespace FirstMax

variable {α ι : Type*} [LinearOrder ι] {key : α → ι} {l l' : List α} {a b : α}

theorem singleton (key : α → ι) (a : α) : FirstMax key [a] a :=
  ⟨[], [], rfl, by simp, by simp⟩

theorem mem (h : FirstMax key l a) : a ∈ l := by
  obtain ⟨before, after, rfl, -, -⟩ := h
  exact List.mem_append_right before List.mem_cons_self

theorem le (h : FirstMax key l a) (hb : b ∈ l) : key b ≤ key a := by
  obtain ⟨before, after, rfl, hbefore, hafter⟩ := h
  rcases List.mem_append.mp hb with hb | hb
  · exact le_of_lt (hbefore b hb)
  · rcases List.mem_cons.mp hb with rfl | hb
    · exact le_refl _
    · exact hafter b hb

/-- An element with a greater key is taken. -/
theorem concat_of_lt (h : FirstMax key l a) (hlt : key a < key b) : FirstMax key (l ++ [b]) b := by
  refine ⟨l, [], rfl, ?_, by simp⟩
  intro c hc
  exact lt_of_le_of_lt (h.le hc) hlt

/-- Any other element is not. -/
theorem concat_of_le (h : FirstMax key l a) (hle : key b ≤ key a) : FirstMax key (l ++ [b]) a := by
  obtain ⟨before, after, rfl, hbefore, hafter⟩ := h
  refine ⟨before, after ++ [b], by simp, hbefore, ?_⟩
  intro c hc
  rcases List.mem_append.mp hc with hc | hc
  · exact hafter c hc
  · rw [List.mem_singleton.mp hc]
    exact hle

/-- It is the first element of the list, or comes later and has a greater key. -/
theorem eq_or_mem {c : α} (h : FirstMax key (c :: l) a) : a = c ∨ a ∈ l ∧ key c < key a := by
  obtain ⟨before, after, heq, hbefore, -⟩ := h
  cases before with
  | nil =>
    cases heq
    exact Or.inl rfl
  | cons d before =>
    cases heq
    exact Or.inr ⟨List.mem_append_right _ List.mem_cons_self, hbefore c List.mem_cons_self⟩

/-- When the first element is the same and no key comes twice after it, the order of the list does not
matter. -/
theorem eq_of_perm_cons {c : α} (h : FirstMax key (c :: l) a) (h' : FirstMax key (c :: l') b)
    (hperm : l.Perm l') (hnodup : (l.map key).Nodup) : a = b := by
  have hab : key a ≤ key b := h'.le ((hperm.cons c).subset h.mem)
  have hba : key b ≤ key a := h.le ((hperm.cons c).symm.subset h'.mem)
  have heq := le_antisymm hab hba
  rcases h.eq_or_mem with rfl | ⟨hmem, hlt⟩
  · rcases h'.eq_or_mem with rfl | ⟨-, hlt⟩
    · rfl
    · exact absurd hlt (not_lt_of_ge hba)
  · rcases h'.eq_or_mem with rfl | ⟨hmem', -⟩
    · exact absurd hlt (not_lt_of_ge hab)
    · exact List.inj_on_of_nodup_map hnodup hmem (hperm.symm.subset hmem') heq

end FirstMax
