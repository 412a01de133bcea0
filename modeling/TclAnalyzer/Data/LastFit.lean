import Mathlib.Data.List.Count
import Mathlib.Data.List.Perm.Basic

/-!
# The last fit

A choice among candidates in their order: an exact one ends it, else the last one that fits is taken,
and the first candidate is taken when no other one fits. Whatever the order, a candidate that fits is
chosen if there is one; an exact one that comes first may lose to one that only fits.
-/

section LastFit

variable {α : Type*} (exact fits : α → Prop) [DecidablePred exact] [DecidablePred fits]

/-- The first exact one of the others, or the last one of them that fits, or the first candidate. -/
def lastFit (first : α) (rest : List α) : α :=
  match rest.find? fun a => exact a with
  | some a => a
  | none => ((rest.filter fun a => fits a).getLast?).getD first

variable {exact fits} {first a : α} {rest : List α}

theorem lastFit_cons_exact (h : exact a) : lastFit exact fits first (a :: rest) = a := by
  rw [lastFit, List.find?_cons_of_pos (by simpa using h)]

theorem lastFit_cons (h : ¬ exact a) : lastFit exact fits first (a :: rest) =
    lastFit exact fits (if fits a then a else first) rest := by
  rw [lastFit, lastFit, List.find?_cons_of_neg (by simpa using h)]
  by_cases hfits : fits a
  · rw [if_pos hfits, List.filter_cons_of_pos (by simpa using hfits), List.getLast?_cons]
    rfl
  · rw [if_neg hfits, List.filter_cons_of_neg (by simpa using hfits)]

/-- Without an exact one among the others, the last that fits is chosen. -/
theorem lastFit_of_not_exact (h : ∀ a ∈ rest, ¬ exact a) :
    lastFit exact fits first rest = ((rest.filter fun a => fits a).getLast?).getD first := by
  have hfind : rest.find? (fun a => exact a) = none := by
    refine List.find?_eq_none.mpr fun a ha => ?_
    simpa using h a ha
  rw [lastFit, hfind]

theorem lastFit_exact (h : ∃ a ∈ rest, exact a) : exact (lastFit exact fits first rest) := by
  obtain ⟨a, ha, hexact⟩ := h
  cases hfind : rest.find? fun a => exact a with
  | none =>
    have hnot := List.find?_eq_none.mp hfind a ha
    exact absurd hexact (by simpa using hnot)
  | some b =>
    have hb := List.find?_some hfind
    rw [lastFit, hfind]
    simpa using hb

theorem lastFit_of_not_fits (hexact : ∀ a, exact a → fits a) (h : ∀ a ∈ rest, ¬ fits a) :
    lastFit exact fits first rest = first := by
  rw [lastFit_of_not_exact fun a ha hex => h a ha (hexact a hex)]
  have hnil : rest.filter (fun a => fits a) = [] := by
    refine List.filter_eq_nil_iff.mpr fun a ha => ?_
    simpa using h a ha
  rw [hnil]
  rfl

/-- When another candidate fits, one of those that fit is chosen. -/
theorem lastFit_mem_fits (hexact : ∀ a ∈ rest, ¬ exact a) (h : ∃ a ∈ rest, fits a) :
    lastFit exact fits first rest ∈ rest ∧ fits (lastFit exact fits first rest) := by
  rw [lastFit_of_not_exact hexact]
  cases hlast : (rest.filter fun a => fits a).getLast? with
  | some b =>
    have hb := List.mem_filter.mp (List.mem_of_getLast? hlast)
    exact ⟨hb.1, by simpa using hb.2⟩
  | none =>
    obtain ⟨a, ha, hfits⟩ := h
    have hnil := List.getLast?_eq_none_iff.mp hlast
    have hnot := List.filter_eq_nil_iff.mp hnil a ha
    exact absurd hfits (by simpa using hnot)

theorem lastFit_mem : lastFit exact fits first rest ∈ first :: rest := by
  induction rest generalizing first with
  | nil => exact List.mem_cons_self
  | cons a rest ih =>
    by_cases hexact : exact a
    · rw [lastFit_cons_exact hexact]
      exact List.mem_cons_of_mem first List.mem_cons_self
    · rw [lastFit_cons hexact]
      have hmem : lastFit exact fits (if fits a then a else first) rest ∈
          (if fits a then a else first) :: rest := ih
      rcases List.mem_cons.mp hmem with heq | hmem
      · rw [heq]
        split
        · exact List.mem_cons_of_mem first List.mem_cons_self
        · exact List.mem_cons_self
      · exact List.mem_cons_of_mem first (List.mem_cons_of_mem a hmem)

/-- The one chosen fits if any candidate does. -/
theorem lastFit_fits (hexact : ∀ a, exact a → fits a) (h : ∃ a ∈ first :: rest, fits a) :
    fits (lastFit exact fits first rest) := by
  by_cases hrest : ∃ a ∈ rest, exact a
  · exact hexact _ (lastFit_exact hrest)
  have hnot : ∀ a ∈ rest, ¬ exact a := fun a ha hex => hrest ⟨a, ha, hex⟩
  by_cases hfits : ∃ a ∈ rest, fits a
  · exact (lastFit_mem_fits hnot hfits).2
  have hnone : ∀ a ∈ rest, ¬ fits a := fun a ha hf => hfits ⟨a, ha, hf⟩
  obtain ⟨a, ha, hf⟩ := h
  rcases List.mem_cons.mp ha with rfl | ha
  · rwa [lastFit_of_not_fits hexact hnone]
  · exact absurd hf (hnone a ha)

/-- Given an exact candidate, an exact one is chosen unless the first is the only one and another one
fits. -/
theorem lastFit_exact_iff (hexact : ∀ a, exact a → fits a) (h : ∃ a ∈ first :: rest, exact a) :
    exact (lastFit exact fits first rest) ↔
      (exact first → (∃ a ∈ rest, exact a) ∨ ∀ a ∈ rest, ¬ fits a) := by
  by_cases hrest : ∃ a ∈ rest, exact a
  · exact iff_of_true (lastFit_exact hrest) fun _ => .inl hrest
  have hnot : ∀ a ∈ rest, ¬ exact a := fun a ha hex => hrest ⟨a, ha, hex⟩
  have hfirst : exact first := by
    obtain ⟨a, ha, hex⟩ := h
    rcases List.mem_cons.mp ha with rfl | ha
    · exact hex
    · exact absurd hex (hnot a ha)
  by_cases hfits : ∃ a ∈ rest, fits a
  · refine iff_of_false (hnot _ (lastFit_mem_fits hnot hfits).1) fun hor => ?_
    obtain ⟨a, ha, hf⟩ := hfits
    rcases hor hfirst with hex | hnone
    · exact hrest hex
    · exact hnone a ha hf
  · have hnone : ∀ a ∈ rest, ¬ fits a := fun a ha hf => hfits ⟨a, ha, hf⟩
    rw [lastFit_of_not_fits hexact hnone]
    exact iff_of_true hfirst fun _ => .inr hnone

theorem countP_eq_zero {p : α → Prop} [DecidablePred p] {l : List α} :
    l.countP (fun a => p a) = 0 ↔ ∀ a ∈ l, ¬ p a := by
  simp [List.countP_eq_zero]

/-- An exact candidate is chosen in every order, if there is one, exactly when it is not alone or no
other candidate fits. -/
theorem lastFit_exact_perm_iff (hexact : ∀ a, exact a → fits a) (l : List α) :
    (∀ first rest, l.Perm (first :: rest) → (∃ a ∈ first :: rest, exact a) →
      exact (lastFit exact fits first rest)) ↔
      (l.countP (fun a => exact a) = 1 → l.countP (fun a => fits a) = 1) := by
  constructor
  · intro hall hone
    have hpos : 0 < l.countP fun a => exact a := by omega
    obtain ⟨a, ha, hex⟩ := List.countP_pos_iff.mp hpos
    have hex : exact a := by simpa using hex
    obtain ⟨before, after, rfl⟩ := List.append_of_mem ha
    have hperm : (before ++ a :: after).Perm (a :: (before ++ after)) := List.perm_middle
    rw [hperm.countP_eq, List.countP_cons_of_pos (by simpa using hex)] at hone
    have hzero : (before ++ after).countP (fun a => exact a) = 0 := by omega
    have hnot := countP_eq_zero.mp hzero
    have hex' : ∃ b ∈ a :: (before ++ after), exact b := ⟨a, List.mem_cons_self, hex⟩
    have hor := (lastFit_exact_iff hexact hex').mp (hall a _ hperm hex') hex
    have hnone : ∀ b ∈ before ++ after, ¬ fits b := by
      rcases hor with ⟨b, hb, hexb⟩ | hnone
      · exact absurd hexb (hnot b hb)
      · exact hnone
    rw [hperm.countP_eq, List.countP_cons_of_pos (by simpa using hexact a hex),
      countP_eq_zero.mpr hnone]
  · intro hcount first rest hperm hex
    rw [lastFit_exact_iff hexact hex]
    intro hfirst
    by_cases hrest : ∃ a ∈ rest, exact a
    · exact .inl hrest
    right
    have hzero : rest.countP (fun a => exact a) = 0 :=
      countP_eq_zero.mpr fun a ha hexa => hrest ⟨a, ha, hexa⟩
    rw [hperm.countP_eq, hperm.countP_eq, List.countP_cons_of_pos (by simpa using hfirst),
      List.countP_cons_of_pos (by simpa using hexact first hfirst)] at hcount
    have hfits : rest.countP (fun a => fits a) = 0 := by omega
    exact countP_eq_zero.mp hfits

end LastFit
