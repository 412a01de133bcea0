import Mathlib.Data.List.Basic

/-!
# Multimaps

A multimap as the list of its entries in the order in which they were put in. Entries with equal keys
keep that order, so `equalRange` lists the values of a key first come first.
-/

/-- The entries of a multimap, oldest first. -/
structure Multimap (κ ν : Type*) where
  entries : List (κ × ν)
  deriving DecidableEq, Repr

namespace Multimap

variable {κ ν : Type*}

def empty : Multimap κ ν := ⟨[]⟩

def emplace (m : Multimap κ ν) (k : κ) (v : ν) : Multimap κ ν := ⟨m.entries ++ [(k, v)]⟩

@[simp] theorem entries_empty : (empty : Multimap κ ν).entries = [] := rfl

@[simp] theorem entries_emplace (m : Multimap κ ν) (k : κ) (v : ν) :
    (m.emplace k v).entries = m.entries ++ [(k, v)] := rfl

variable [DecidableEq κ]

/-- The values stored under a key, oldest first. -/
def equalRange (m : Multimap κ ν) (k : κ) : List ν :=
  (m.entries.filter fun e => e.1 = k).map Prod.snd

theorem mem_equalRange {m : Multimap κ ν} {k : κ} {v : ν} :
    v ∈ m.equalRange k ↔ (k, v) ∈ m.entries := by
  simp [equalRange]

/-- The range of a key in a multimap that has one entry for each element of a list. -/
theorem equalRange_map {α : Type*} (l : List α) (key : α → κ) (val : α → ν) (k : κ) :
    (⟨l.map fun a => (key a, val a)⟩ : Multimap κ ν).equalRange k =
      (l.filter fun a => key a = k).map val := by
  simp [equalRange, List.filter_map, Function.comp_def]

end Multimap
