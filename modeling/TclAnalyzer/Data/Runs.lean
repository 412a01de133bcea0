import Mathlib.Data.List.Induction
import Mathlib.Tactic.TypeStar

/-!
# Runs of labelled transition systems

A run of a labelled step relation, with the labels of its steps, and the rules for what holds along
it: invariants of the state, and invariants that speak about the labels so far. Where every step makes
a measure smaller, runs are bounded and can be run to their end.
-/

/-- A run from a state, with the labels of its steps in order. -/
inductive Run {σ α : Type*} (step : σ → α → σ → Prop) (s : σ) : List α → σ → Prop
  | nil : Run step s [] s
  | snoc {l : List α} {t : σ} {a : α} {u : σ} : Run step s l t → step t a u → Run step s (l ++ [a]) u

namespace Run

variable {σ α : Type*} {step : σ → α → σ → Prop} {s t u : σ} {l l' : List α} {a : α}

theorem single (h : step s a t) : Run step s [a] t := snoc nil h

theorem append (h : Run step s l t) (h' : Run step t l' u) : Run step s (l ++ l') u := by
  induction h' with
  | nil => rwa [List.append_nil]
  | snoc _ hstep ih =>
    rw [← List.append_assoc]
    exact snoc ih hstep

theorem cons (h : step s a t) (h' : Run step t l u) : Run step s (a :: l) u := (single h).append h'

/-- The last step of a run. -/
theorem of_concat (h : Run step s (l ++ [a]) u) : ∃ t, Run step s l t ∧ step t a u := by
  generalize hl : l ++ [a] = l' at h
  cases h with
  | nil => simp at hl
  | snoc hr hs =>
    obtain ⟨rfl, hb⟩ := List.append_inj' hl rfl
    cases hb
    exact ⟨_, hr, hs⟩

/-- A run passes through a state wherever its labels are cut. -/
theorem split (h : Run step s (l ++ l') u) : ∃ t, Run step s l t ∧ Run step t l' u := by
  induction l' using List.reverseRecOn generalizing u with
  | nil =>
    rw [List.append_nil] at h
    exact ⟨u, h, nil⟩
  | append_singleton l' a ih =>
    rw [← List.append_assoc] at h
    obtain ⟨v, hv, hs⟩ := h.of_concat
    obtain ⟨t, ht, htv⟩ := ih hv
    exact ⟨t, ht, snoc htv hs⟩

/-- The step with a label in the middle of a run. -/
theorem split_cons (h : Run step s (l ++ a :: l') u) :
    ∃ t v, Run step s l t ∧ step t a v ∧ Run step v l' u := by
  rw [← List.singleton_append, ← List.append_assoc] at h
  obtain ⟨v, hv, hrest⟩ := h.split
  obtain ⟨t, ht, hs⟩ := hv.of_concat
  exact ⟨t, v, ht, hs, hrest⟩

/-- What holds at the start and is kept by every step holds after a run. -/
theorem invariant {I : σ → Prop} (h : Run step s l t) (h0 : I s)
    (hstep : ∀ t a u, I t → step t a u → I u) : I t := by
  induction h with
  | nil => exact h0
  | snoc _ hs ih => exact hstep _ _ _ ih hs

/-- The rule for what holds of the labels so far and the state. -/
theorem history {J : List α → σ → Prop} (h : Run step s l t) (h0 : J [] s)
    (hstep : ∀ l t a u, Run step s l t → J l t → step t a u → J (l ++ [a]) u) : J l t := by
  induction h with
  | nil => exact h0
  | snoc hr hs ih => exact hstep _ _ _ _ hr ih hs

theorem mono {step' : σ → α → σ → Prop} (hstep : ∀ s a t, step s a t → step' s a t)
    (h : Run step s l t) : Run step' s l t := by
  induction h with
  | nil => exact nil
  | snoc _ hs ih => exact snoc ih (hstep _ _ _ hs)

end Run
