import Mathlib.Data.List.Induction
import Mathlib.Data.List.TakeWhile
import Mathlib.Order.Lattice
import TclAnalyzer.Data.Multimap

/-!
# Sorted multimaps

A multimap as a container with its entries in the order of their keys. A new entry goes behind the
entries with the same key, so the container refines the multimap that keeps the order of insertion.
-/

/-- The entries of a multimap by key. -/
structure SortedMultimap (κ ν : Type*) [LinearOrder κ] where
  entries : List (κ × ν)
  sorted : entries.Pairwise fun a b => a.1 ≤ b.1

namespace SortedMultimap

variable {κ ν : Type*} [LinearOrder κ] {s : SortedMultimap κ ν} {m : Multimap κ ν} {k : κ} {v : ν}

def empty : SortedMultimap κ ν := ⟨[], .nil⟩

/-- The entries before the upper bound of a key. -/
def below (s : SortedMultimap κ ν) (k : κ) : List (κ × ν) := s.entries.takeWhile fun e => e.1 ≤ k

/-- The entries from the upper bound of a key on. -/
def above (s : SortedMultimap κ ν) (k : κ) : List (κ × ν) := s.entries.dropWhile fun e => e.1 ≤ k

theorem below_append_above (s : SortedMultimap κ ν) (k : κ) : s.below k ++ s.above k = s.entries :=
  List.takeWhile_append_dropWhile

theorem le_of_mem_below {e : κ × ν} (h : e ∈ s.below k) : e.1 ≤ k := by
  simpa using List.mem_takeWhile_imp h

theorem lt_of_mem_above {e : κ × ν} (h : e ∈ s.above k) : k < e.1 := by
  have hsorted : (s.above k).Pairwise fun a b => a.1 ≤ b.1 :=
    s.sorted.sublist (List.dropWhile_sublist _)
  cases habove : s.above k with
  | nil => simp [habove] at h
  | cons first rest =>
    have hfirst : k < first.1 := by
      have hhead := List.head?_dropWhile_not (fun e : κ × ν => decide (e.1 ≤ k)) s.entries
      rw [show s.entries.dropWhile (fun e => decide (e.1 ≤ k)) = first :: rest from habove] at hhead
      simpa using hhead
    rw [habove] at h hsorted
    rcases List.mem_cons.mp h with rfl | hrest
    · exact hfirst
    · exact hfirst.trans_le ((List.pairwise_cons.mp hsorted).1 e hrest)

/-- `emplace` before the upper bound of the key. -/
def emplace (s : SortedMultimap κ ν) (k : κ) (v : ν) : SortedMultimap κ ν where
  entries := s.below k ++ (k, v) :: s.above k
  sorted := by
    have hsorted := s.sorted
    rw [← s.below_append_above k, List.pairwise_append] at hsorted
    obtain ⟨hbelow, habove, hcross⟩ := hsorted
    refine List.pairwise_append.mpr ⟨hbelow, List.pairwise_cons.mpr ⟨?_, habove⟩, ?_⟩
    · intro e he
      exact (lt_of_mem_above he).le
    · intro e he e' he'
      rcases List.mem_cons.mp he' with rfl | he'
      · exact le_of_mem_below he
      · exact hcross e he e' he'

theorem entries_emplace_perm (s : SortedMultimap κ ν) (k : κ) (v : ν) :
    (s.emplace k v).entries.Perm (s.entries ++ [(k, v)]) := by
  have h : (s.emplace k v).entries.Perm ((k, v) :: (s.below k ++ s.above k)) := List.perm_middle
  rw [s.below_append_above] at h
  exact h.trans (List.perm_append_singleton _ _).symm

/-- From the lower to the upper bound of a key. -/
def equalRange (s : SortedMultimap κ ν) (k : κ) : List ν :=
  ((s.below k).dropWhile fun e => e.1 < k).map Prod.snd

/-! ## Refinement -/

/-- The same entries, those of one key in the same order. -/
structure Refines (s : SortedMultimap κ ν) (m : Multimap κ ν) : Prop where
  perm : s.entries.Perm m.entries
  stable : ∀ k, (s.entries.filter fun e => e.1 = k) = m.entries.filter fun e => e.1 = k

theorem refines_empty : (empty : SortedMultimap κ ν).Refines .empty := ⟨.nil, fun _ => rfl⟩

theorem filter_above_eq_nil {k' : κ} (h : k' ≤ k) :
    ((s.above k).filter fun e => e.1 = k') = [] := by
  refine List.filter_eq_nil_iff.mpr fun e he => ?_
  simpa using (h.trans_lt (lt_of_mem_above he)).ne'

theorem Refines.emplace (h : s.Refines m) (k : κ) (v : ν) :
    (s.emplace k v).Refines (m.emplace k v) where
  perm := (s.entries_emplace_perm k v).trans (h.perm.append_right _)
  stable k' := by
    have hentries := h.stable k'
    rw [← s.below_append_above k, List.filter_append] at hentries
    rw [Multimap.entries_emplace, List.filter_append, ← hentries]
    show ((s.below k ++ (k, v) :: s.above k).filter fun e => e.1 = k') = _
    rw [List.filter_append]
    by_cases heq : k = k'
    · -- behind the new entry there is none of its key
      simp [heq, filter_above_eq_nil]
    · simp [heq]

theorem Refines.equalRange (h : s.Refines m) (k : κ) : s.equalRange k = m.equalRange k := by
  have hsorted : (s.below k).Pairwise fun a b => a.1 ≤ b.1 :=
    s.sorted.sublist (List.takeWhile_sublist _)
  have hbelow : ((s.below k).dropWhile fun e => e.1 < k) = (s.below k).filter fun e => e.1 = k := by
    have hle : ∀ e ∈ s.below k, e.1 ≤ k := fun e he => le_of_mem_below he
    generalize s.below k = entries at hsorted hle
    induction entries with
    | nil => rfl
    | cons e rest ih =>
      have hrest := (List.pairwise_cons.mp hsorted).1
      by_cases hlt : e.1 < k
      · simp [hlt, hlt.ne, ih (List.pairwise_cons.mp hsorted).2
          fun e' he' => hle e' (List.mem_cons_of_mem _ he')]
      · have heq : e.1 = k := le_antisymm (hle e List.mem_cons_self) (not_lt.mp hlt)
        have hall : (rest.filter fun e => decide (e.1 = k)) = rest := by
          refine List.filter_eq_self.mpr fun e' he' => ?_
          have := hle e' (List.mem_cons_of_mem _ he')
          simpa using le_antisymm this (heq ▸ hrest e' he')
        simp [heq, hall]
  have hfilter := h.stable k
  rw [← s.below_append_above k, List.filter_append, filter_above_eq_nil le_rfl,
    List.append_nil] at hfilter
  rw [SortedMultimap.equalRange, Multimap.equalRange, hbelow, hfilter]

/-- Where the values are in a certain order of insertion, those of one key are in that order. -/
theorem pairwise_emplace {R : ν → ν → Prop}
    (h : s.entries.Pairwise fun a b => a.1 < b.1 ∨ a.1 = b.1 ∧ R a.2 b.2)
    (hv : ∀ e ∈ s.entries, R e.2 v) :
    (s.emplace k v).entries.Pairwise fun a b => a.1 < b.1 ∨ a.1 = b.1 ∧ R a.2 b.2 := by
  rw [← s.below_append_above k] at h hv
  obtain ⟨hbelow, habove, hcross⟩ := List.pairwise_append.mp h
  refine List.pairwise_append.mpr ⟨hbelow, List.pairwise_cons.mpr ⟨?_, habove⟩, ?_⟩
  · intro e he
    exact .inl (lt_of_mem_above he)
  · intro e he e' he'
    rcases List.mem_cons.mp he' with rfl | he'
    · have hR := hv e (List.mem_append_left _ he)
      exact (le_of_mem_below he).lt_or_eq.imp_right fun heq => ⟨heq, hR⟩
    · exact hcross e he e' he'

end SortedMultimap

/-! ## Sorting -/

namespace Multimap

variable {κ ν : Type*} [LinearOrder κ]

/-- The container after the insertions of a multimap, in their order. -/
def sorted (m : Multimap κ ν) : SortedMultimap κ ν :=
  m.entries.foldl (fun s e => s.emplace e.1 e.2) .empty

theorem sorted_empty : (empty : Multimap κ ν).sorted = .empty := rfl

theorem sorted_emplace (m : Multimap κ ν) (k : κ) (v : ν) :
    (m.emplace k v).sorted = m.sorted.emplace k v := by
  simp [sorted, List.foldl_append]

omit [LinearOrder κ] in
/-- What is built up entry by entry holds of every multimap. -/
theorem sorted_induction {P : Multimap κ ν → Prop} (m : Multimap κ ν) (h0 : P .empty)
    (h : ∀ m k v, P m → P (m.emplace k v)) : P m := by
  obtain ⟨entries⟩ := m
  induction entries using List.reverseRecOn with
  | nil => exact h0
  | append_singleton entries e ih => exact h ⟨entries⟩ e.1 e.2 ih

theorem sorted_refines (m : Multimap κ ν) : m.sorted.Refines m := by
  induction m using sorted_induction with
  | h0 => exact SortedMultimap.refines_empty
  | h m k v ih =>
    rw [sorted_emplace]
    exact ih.emplace k v

theorem sorted_pairwise {R : ν → ν → Prop} (m : Multimap κ ν)
    (h : m.entries.Pairwise fun a b => R a.2 b.2) :
    m.sorted.entries.Pairwise fun a b => a.1 < b.1 ∨ a.1 = b.1 ∧ R a.2 b.2 := by
  induction m using sorted_induction with
  | h0 => exact .nil
  | h m k v ih =>
    obtain ⟨hentries, -, hv⟩ := List.pairwise_append.mp (m.entries_emplace k v ▸ h)
    rw [sorted_emplace]
    refine SortedMultimap.pairwise_emplace (ih hentries) fun e he => ?_
    exact hv e (m.sorted_refines.perm.mem_iff.mp he) (k, v) (List.mem_singleton.mpr rfl)

end Multimap
