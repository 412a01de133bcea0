import Mathlib.Data.List.Forall2
import Mathlib.Order.Basic

/-!
# Nested spans

Items with a start and a stop that stand one after the other, each with more items inside it. Listed
from the outside in, each item before what is inside it, the starts never go back.
-/

section Nesting

variable {α β : Type*} [Preorder β]

/-- The items stand one after the other between two places. -/
inductive Between (start stop : α → β) (last : β) : (first : β) → List α → Prop
  | nil {first : β} : first ≤ last → Between start stop last first []
  | cons {first : β} {a : α} {items : List α} : first ≤ start a → start a ≤ stop a →
    Between start stop last (stop a) items → Between start stop last first (a :: items)

/-- What is inside the item stands in its span, and so on inside of it. -/
inductive Nested (start stop : α → β) (contents : α → List α) : α → Prop
  | mk {a : α} : Between start stop (stop a) (start a) (contents a) →
    (∀ b ∈ contents a, Nested start stop contents b) → Nested start stop contents a

/-- The items with all that is inside them, each item before its contents. -/
inductive Listing (contents : α → List α) : List α → List α → Prop
  | nil : Listing contents [] []
  | cons {a : α} {items inner rest : List α} : Listing contents (contents a) inner →
    Listing contents items rest → Listing contents (a :: items) (a :: (inner ++ rest))

variable {start stop : α → β} {contents : α → List α} {first last next : β} {items others : List α}

namespace Between

theorem le (h : Between start stop last first items) : first ≤ last := by
  induction h with
  | nil hle => exact hle
  | cons hstart hstop _ ih => exact hstart.trans (hstop.trans ih)

theorem mono {first' last' : β} (h : Between start stop last first items) (hfirst : first' ≤ first)
    (hlast : last ≤ last') : Between start stop last' first' items := by
  induction h generalizing first' with
  | nil hle => exact .nil (hfirst.trans (hle.trans hlast))
  | cons hstart hstop _ ih => exact .cons (hfirst.trans hstart) hstop (ih (le_refl _))

theorem append (h : Between start stop next first items) (h' : Between start stop last next others) :
    Between start stop last first (items ++ others) := by
  induction h with
  | nil hle => exact h'.mono hle (le_refl _)
  | cons hstart hstop _ ih => exact .cons hstart hstop ih

theorem mem (h : Between start stop last first items) :
    ∀ a ∈ items, first ≤ start a ∧ start a ≤ stop a ∧ stop a ≤ last := by
  induction h with
  | nil => simp
  | cons hstart hstop hrest ih =>
    refine List.forall_mem_cons.mpr ⟨⟨hstart, hstop, hrest.le⟩, fun b hb => ?_⟩
    obtain ⟨hfirst, hspan, hlast⟩ := ih b hb
    exact ⟨hstart.trans (hstop.trans hfirst), hspan, hlast⟩

theorem pairwise (h : Between start stop last first items) :
    items.Pairwise fun a b => stop a ≤ start b := by
  induction h with
  | nil => exact .nil
  | cons _ _ hrest ih => exact List.pairwise_cons.mpr ⟨fun b hb => (hrest.mem b hb).1, ih⟩

/-- Other items with the same spans. -/
theorem congr {γ : Type*} {start' stop' : γ → β} {others : List γ}
    (h : Between start stop last first items)
    (hsame : List.Forall₂ (fun a b => start' b = start a ∧ stop' b = stop a) items others) :
    Between start' stop' last first others := by
  induction hsame generalizing first with
  | nil => exact .nil h.le
  | cons hspan _ ih =>
    obtain ⟨hstart, hstop⟩ := hspan
    cases h with
    | cons hfirst hle hrest =>
      refine .cons (hfirst.trans_eq hstart.symm) ?_ ?_
      · rwa [hstart, hstop]
      · rw [hstop]
        exact ih hrest

end Between

theorem Nested.between {a : α} (h : Nested start stop contents a) :
    Between start stop (stop a) (start a) (contents a) := by
  cases h with
  | mk hbetween => exact hbetween

theorem Nested.inside {a b : α} (h : Nested start stop contents a) (hb : b ∈ contents a) :
    Nested start stop contents b := by
  cases h with
  | mk _ hinside => exact hinside b hb

theorem Listing.append {listed listed' : List α} (h : Listing contents items listed)
    (h' : Listing contents others listed') : Listing contents (items ++ others) (listed ++ listed') := by
  induction h with
  | nil => exact h'
  | cons hinner _ _ ih =>
    rw [List.cons_append, List.cons_append, List.append_assoc]
    exact .cons hinner ih

/-- What holds of items and of the contents of any item of which it holds is true of all that is
listed. -/
theorem Listing.forall_mem {P : α → Prop} {listed : List α} (h : Listing contents items listed)
    (hinside : ∀ a, P a → ∀ b ∈ contents a, P b) (hitems : ∀ a ∈ items, P a) :
    ∀ a ∈ listed, P a := by
  induction h with
  | nil => exact hitems
  | cons _ _ ihinner ihrest =>
    obtain ⟨ha, hrest⟩ := List.forall_mem_cons.mp hitems
    exact List.forall_mem_cons.mpr
      ⟨ha, List.forall_mem_append.mpr ⟨ihinner (hinside _ ha), ihrest hrest⟩⟩

/-- Listed from the outside in, nested items never start before the ones listed before them. -/
theorem Listing.sorted {listed : List α} (h : Listing contents items listed) :
    ∀ {first : β}, Between start stop last first items →
      (∀ a ∈ items, Nested start stop contents a) →
      listed.Pairwise (fun a b => start a ≤ start b) ∧
        ∀ a ∈ listed, first ≤ start a ∧ start a ≤ last := by
  induction h generalizing last with
  | nil => exact fun _ _ => ⟨.nil, by simp⟩
  | @cons a items inner rest _ _ ihinner ihrest =>
    intro first hbetween hnested
    obtain ⟨ha, hitems⟩ := List.forall_mem_cons.mp hnested
    cases hbetween with
    | cons hstart hstop hrest =>
      obtain ⟨hinnerSorted, hinnerSpan⟩ := ihinner ha.between fun b hb => ha.inside hb
      obtain ⟨hrestSorted, hrestSpan⟩ := ihrest hrest hitems
      have hall : ∀ b ∈ inner ++ rest, start a ≤ start b ∧ start b ≤ last := by
        refine List.forall_mem_append.mpr ⟨fun b hb => ?_, fun b hb => ?_⟩
        · obtain ⟨hge, hle⟩ := hinnerSpan b hb
          exact ⟨hge, hle.trans hrest.le⟩
        · obtain ⟨hge, hle⟩ := hrestSpan b hb
          exact ⟨hstop.trans hge, hle⟩
      refine ⟨List.pairwise_cons.mpr ⟨fun b hb => (hall b hb).1, List.pairwise_append.mpr
        ⟨hinnerSorted, hrestSorted, fun b hb c hc => ?_⟩⟩, List.forall_mem_cons.mpr
          ⟨⟨hstart, hstop.trans hrest.le⟩, fun b hb => ?_⟩⟩
      · exact (hinnerSpan b hb).2.trans (hrestSpan c hc).1
      · obtain ⟨hge, hle⟩ := hall b hb
        exact ⟨hstart.trans hge, hle⟩

end Nesting
