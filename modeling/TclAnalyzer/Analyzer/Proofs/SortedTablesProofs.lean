import Mathlib.Data.List.Perm.Basic
import TclAnalyzer.Analyzer.SortedTables
import TclAnalyzer.Analyzer.Proofs.TablesProofs

/-!
# Sorted tables hold what tables hold

Sorting the indexes commutes with the functions that add to a table, so the facts about a table are
facts about the sorted one.
-/

namespace TclAnalyzer

namespace SortedRecord

variable {ρ : Type} [Row ρ] {r : RefRecord ρ}

theorem sorted_insert (r : RefRecord ρ) (row : ρ) : (r.insert row).2.sorted = r.sorted.insert row := by
  simp [RefRecord.sorted, RefRecord.insert, insert, Multimap.sorted_emplace]

omit [Row ρ] in
theorem sorted_addReference (r : RefRecord ρ) (reference : Reference) :
    (r.addReference reference).sorted = r.sorted.addReference reference := by
  simp [RefRecord.sorted, RefRecord.addReference, addReference, Multimap.sorted_emplace]

theorem sorted_add (r : RefRecord ρ) (addition : RefRecord.Addition ρ) :
    (r.add addition).sorted = r.sorted.add addition := by
  cases addition with
  | insert row => exact sorted_insert r row
  | addReference reference => exact sorted_addReference r reference

theorem sorted_foldl (additions : List (RefRecord.Addition ρ)) :
    additions.foldl add empty = (additions.foldl RefRecord.add RefRecord.empty).sorted := by
  have hempty : (empty : SortedRecord ρ) = RefRecord.empty.sorted := rfl
  rw [hempty]
  exact List.foldl_hom RefRecord.sorted fun r addition => (sorted_add r addition).symm

/-- Any calls keep the table invariant, also if a reference is to a row that does not exist. -/
theorem wf_foldl (additions : List (RefRecord.Addition ρ)) :
    (additions.foldl RefRecord.add RefRecord.empty).WF := by
  refine List.foldlRecOn additions RefRecord.add RefRecord.wf_empty ?_
  intro r h addition _
  cases addition with
  | insert row => exact h.insert row
  | addReference reference => exact h.addReference reference

theorem ids_pairwise (h : r.WF) : r.table.Pairwise fun a b => Row.id a < Row.id b := by
  have hids : ∀ i (hi : i < r.table.length), Row.id r.table[i] = i + 1 := by
    intro i hi
    exact h.ids (i + 1) r.table[i] (by simp [RefRecord.row, hi])
  refine List.pairwise_iff_getElem.mpr fun i j hi hj hij => ?_
  rw [hids i hi, hids j hj]
  omega

/-- The entries come in the order of the ids. -/
theorem names_pairwise (h : r.WF) : r.byName.entries.Pairwise fun a b => a.2 < b.2 := by
  rw [h.byName]
  exact List.pairwise_map.mpr (ids_pairwise h)

theorem references_pairwise (h : r.WF) : r.refsByID.entries.Pairwise fun a b => a.2 < b.2 := by
  have hpositions : (r.refsByID.entries.map Prod.snd).Pairwise (· < ·) := by
    rw [h.positions]
    exact List.pairwise_lt_range
  exact List.pairwise_map.mp hpositions

theorem agrees_sorted (h : r.WF) : r.sorted.Agrees r where
  table := rfl
  references := rfl
  byName name := by
    show r.byName.sorted.equalRange name = _
    convert r.byName.sorted_refines.equalRange name
  refsByID id := r.refsByID.sorted_refines.equalRange id
  nameEntries := r.byName.sorted_refines.perm.trans (.of_eq h.byName)
  nameOrder := r.byName.sorted_pairwise (names_pairwise h)
  refEntries := r.refsByID.sorted_refines.perm.trans (.of_eq h.refsByID)
  refOrder := r.refsByID.sorted_pairwise (references_pairwise h)

/-- After any calls, the sorted containers agree with the lists of entries in order of insertion. -/
theorem sortedRecord_agrees (additions : List (RefRecord.Addition ρ)) :
    (additions.foldl add empty).Agrees (additions.foldl RefRecord.add RefRecord.empty) := by
  rw [sorted_foldl]
  exact agrees_sorted (wf_foldl additions)

/-- Names out of order, one of them twice. -/
example :
    let named : String → RefRecord.Addition Variable := fun name => .insert { id := 0, name := bytes name }
    ([named "y", named "x", named "y"].foldl add empty).byName.entries =
      [(bytes "x", 2), (bytes "y", 1), (bytes "y", 3)] := by
  decide

/-- The rows in the order in which a loop over `byName` meets them. -/
theorem exists_rows (h : r.WF) : ∃ rows : List ρ,
    r.sorted.byName.entries = rows.map (fun row => (Row.name row, Row.id row)) ∧
    rows.Perm r.table ∧ rows.Pairwise fun a b =>
      Row.name a < Row.name b ∨ Row.name a = Row.name b ∧ Row.id a < Row.id b := by
  have hagrees := agrees_sorted h
  have hkeys : List.Forall₂ (fun (e : Str × Nat) row => e = (Row.name row, Row.id row))
      (r.table.map fun row => (Row.name row, Row.id row)) r.table := by simp
  obtain ⟨rows, hrows, hperm⟩ := List.perm_comp_forall₂ hagrees.nameEntries hkeys
  have hentries : r.sorted.byName.entries = rows.map fun row => (Row.name row, Row.id row) := by
    rw [← List.forall₂_eq_eq_eq, List.forall₂_map_right_iff]
    exact hrows
  have horder := hagrees.nameOrder
  rw [hentries, List.pairwise_map] at horder
  exact ⟨rows, hentries, hperm, horder⟩

end SortedRecord

end TclAnalyzer
