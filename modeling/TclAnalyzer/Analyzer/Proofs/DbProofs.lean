import TclAnalyzer.Analyzer.Db
import Mathlib.Data.List.Nodup
import Mathlib.Data.List.Zip

/-!
# The table invariant

Ids are row numbers, the index by name has one entry per row, and the index by id one per reference,
both in the order of insertion.
-/

namespace TclAnalyzer

namespace RefRecord

variable {ρ : Type} [Row ρ]

/-- The row with an id. -/
def row (r : RefRecord ρ) (id : Nat) : Option ρ := if 1 ≤ id then r.table[id - 1]? else none

/-- The representation invariant of a table. -/
structure WF (r : RefRecord ρ) : Prop where
  ids : ∀ i x, r.row i = some x → Row.id x = i
  byName : r.byName.entries = r.table.map fun x => (Row.name x, Row.id x)
  refsByID : r.refsByID.entries = r.references.zipIdx.map fun e => (e.1.id, e.2)

omit [Row ρ] in
/-- `Get` returns the row with an id, and asserts that there is one. -/
theorem get_eq_ok {r : RefRecord ρ} {id : Nat} {x : ρ} : r.get id = .ok x ↔ r.row id = some x := by
  unfold get row
  by_cases h1 : id < 1
  · have h1' : ¬ 1 ≤ id := by omega
    simp only [h1, h1', if_true, if_false, reduceCtorEq]
  · have h1' : 1 ≤ id := by omega
    by_cases h2 : r.table.length < id
    · have hnone : r.table[id - 1]? = none := List.getElem?_eq_none (by omega)
      simp [h1, h2, h1', hnone]
    · simp [h1, h2, h1', nth_eq_ok]

omit [Row ρ] in
/-- The ids of rows are the numbers from 1 to the length of the table. -/
theorem row_isSome {r : RefRecord ρ} {id : Nat} :
    (∃ x, r.row id = some x) ↔ 1 ≤ id ∧ id ≤ r.table.length := by
  unfold row
  by_cases h1 : 1 ≤ id
  · have hiff : (∃ x, r.table[id - 1]? = some x) ↔ id - 1 < r.table.length := by
      simp [List.getElem?_eq_some_iff]
    simp only [h1, if_true, hiff, true_and]
    omega
  · simp [h1]

omit [Row ρ] in
theorem mem_of_row {r : RefRecord ρ} {id : Nat} {x : ρ} (h : r.row id = some x) : x ∈ r.table := by
  unfold row at h
  split at h
  · exact List.mem_of_getElem? h
  · cases h

theorem WF.row_id {r : RefRecord ρ} (h : r.WF) {x : ρ} (hx : x ∈ r.table) :
    r.row (Row.id x) = some x := by
  obtain ⟨i, hi⟩ := List.mem_iff_getElem?.mp hx
  have hrow : r.row (i + 1) = some x := by simpa [row] using hi
  rw [h.ids _ _ hrow, hrow]

/-- No two rows have the same id. -/
theorem WF.eq_of_id_eq {r : RefRecord ρ} (h : r.WF) {x y : ρ} (hx : x ∈ r.table) (hy : y ∈ r.table)
    (hxy : Row.id x = Row.id y) : x = y :=
  Option.some.inj ((h.row_id hx).symm.trans (hxy ▸ h.row_id hy))

theorem WF.id_valid {r : RefRecord ρ} (h : r.WF) {x : ρ} (hx : x ∈ r.table) :
    1 ≤ Row.id x ∧ Row.id x ≤ r.table.length :=
  row_isSome.mp ⟨x, h.row_id hx⟩

theorem WF.nodup {r : RefRecord ρ} (h : r.WF) : (r.table.map Row.id).Nodup := by
  rw [List.nodup_iff_injective_getElem]
  rintro ⟨i, hi⟩ ⟨j, hj⟩ hij
  simp only [List.length_map] at hi hj
  have hid : ∀ k (hk : k < r.table.length), Row.id r.table[k] = k + 1 := fun k hk =>
    h.ids (k + 1) _ (by simp [row, hk])
  simpa [hid i hi, hid j hj] using hij

/-- The index by name gives the rows of that name, in the order of their ids. -/
theorem WF.equalRange_byName {r : RefRecord ρ} (h : r.WF) (name : Str) :
    r.byName.equalRange name = (r.table.filter fun x => Row.name x = name).map Row.id := by
  have heq : r.byName = ⟨r.table.map fun x => (Row.name x, Row.id x)⟩ := by
    cases hb : r.byName
    simpa [hb] using h.byName
  rw [heq, Multimap.equalRange_map]

/-- The index by id gives the positions of the references to a row, in order. -/
theorem WF.equalRange_refsByID {r : RefRecord ρ} (h : r.WF) (id : Nat) :
    r.refsByID.equalRange id = (r.references.zipIdx.filter fun e => e.1.id = id).map Prod.snd := by
  have heq : r.refsByID = ⟨r.references.zipIdx.map fun e => (e.1.id, e.2)⟩ := by
    cases hb : r.refsByID
    simpa [hb] using h.refsByID
  rw [heq, Multimap.equalRange_map]

/-- The references to a row are the references with its id. -/
theorem WF.refsOf_eq {r : RefRecord ρ} (h : r.WF) (id : Nat) :
    r.refsOf id = r.references.filter fun x => x.id = id := by
  have hget : ∀ e ∈ r.references.zipIdx.filter (fun e => decide (e.1.id = id)),
      r.references[e.2]? = some e.1 := fun e he =>
    List.mem_zipIdx_iff_getElem?.mp (List.mem_filter.mp he).1
  rw [refsOf, h.equalRange_refsByID, List.filterMap_map, Function.comp_def,
    List.filterMap_congr hget, List.filterMap_eq_map']
  conv_rhs => rw [← List.zipIdx_map_fst 0 r.references, List.filter_map]
  rfl

theorem wf_empty : (empty : RefRecord ρ).WF where
  ids i x h := by simp [row, empty] at h
  byName := rfl
  refsByID := rfl

/-! ## The operations -/

/-- `Insert` adds one row under the next id and leaves the others. -/
theorem row_insert (r : RefRecord ρ) (x : ρ) (i : Nat) :
    (r.insert x).2.row i = if i = r.table.length + 1 then some (r.insert x).1 else r.row i := by
  unfold row insert
  by_cases h1 : 1 ≤ i
  · by_cases hi : i = r.table.length + 1
    · subst hi
      simp
    · simp only [h1, hi, if_true, if_false]
      by_cases hlt : i - 1 < r.table.length
      · rw [List.getElem?_append_left hlt]
      · rw [List.getElem?_eq_none (by simp; omega), List.getElem?_eq_none (by omega)]
  · have hi : i ≠ r.table.length + 1 := by omega
    simp [h1, hi]

theorem WF.insert {r : RefRecord ρ} (h : r.WF) (x : ρ) : (r.insert x).2.WF where
  ids i y hy := by
    rw [row_insert] at hy
    split at hy
    · next hi =>
      cases hy
      rw [hi]
      exact Row.id_withId _ _
    · exact h.ids i y hy
  byName := by simp [RefRecord.insert, h.byName]
  refsByID := h.refsByID

omit [Row ρ] in
theorem row_modify (r : RefRecord ρ) (id : Nat) (f : ρ → ρ) (hid : 1 ≤ id) (i : Nat) :
    (r.modify id f).row i = if i = id then (r.row i).map f else r.row i := by
  unfold row modify
  by_cases h1 : 1 ≤ i
  · simp only [h1, if_true, List.getElem?_modify]
    by_cases hi : i = id
    · simp [hi]
    · have hne : ¬ id - 1 = i - 1 := by omega
      simp [hi, hne]
  · have hi : i ≠ id := by omega
    simp [h1, hi]

/-- A write to a row that leaves its id and name alone keeps the invariant. -/
theorem WF.modify {r : RefRecord ρ} (h : r.WF) {id : Nat} (hid : 1 ≤ id) {f : ρ → ρ}
    (hfid : ∀ x, Row.id (f x) = Row.id x) (hfname : ∀ x, Row.name (f x) = Row.name x) :
    (r.modify id f).WF where
  ids i y hy := by
    rw [row_modify r id f hid] at hy
    split at hy
    · obtain ⟨x, hx, rfl⟩ := Option.map_eq_some_iff.mp hy
      rw [hfid, h.ids i x hx]
    · exact h.ids i y hy
  byName := by
    have hmap : (r.table.modify (id - 1) f).map (fun x => (Row.name x, Row.id x)) =
        r.table.map fun x => (Row.name x, Row.id x) := by
      apply List.ext_getElem?
      intro k
      simp only [List.getElem?_map, List.getElem?_modify]
      cases r.table[k]? with
      | none => simp
      | some x => by_cases hk : id - 1 = k <;> simp [hk, hfid, hfname]
    simpa [RefRecord.modify, hmap] using h.byName
  refsByID := h.refsByID

theorem WF.addReference {r : RefRecord ρ} (h : r.WF) (x : Reference) : (r.addReference x).WF where
  ids := h.ids
  byName := h.byName
  refsByID := by simp [RefRecord.addReference, h.refsByID, List.zipIdx_append]

end RefRecord

end TclAnalyzer
