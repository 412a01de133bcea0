import TclAnalyzer.Analyzer.Index
import TclAnalyzer.Analyzer.Proofs.DbProofs
import TclAnalyzer.Analyzer.Tables

/-!
# What a table holds

A call adds one row or one reference to what the table holds, and keeps the table invariant. The rest
follows from the invariant: the ids are a range, and both indexes list a part of one in order.
-/

namespace TclAnalyzer

namespace RefRecord

variable {ρ : Type} [Row ρ] {r r' : RefRecord ρ} {rows : List ρ} {references : List Reference}

/-! ## One call -/

omit [Row ρ] in
theorem insertedRows_concat (additions : List (Addition ρ)) (addition : Addition ρ) :
    insertedRows (additions ++ [addition]) = insertedRows additions ++ insertedRows [addition] :=
  List.filterMap_append

omit [Row ρ] in
theorem addedReferences_concat (additions : List (Addition ρ)) (addition : Addition ρ) :
    addedReferences (additions ++ [addition]) =
      addedReferences additions ++ addedReferences [addition] :=
  List.filterMap_append

/-- The invariant of a table that is filled with rows and references. -/
structure Filled (r : RefRecord ρ) (rows : List ρ) (references : List Reference) : Prop where
  wf : r.WF
  table : r.table = rows.mapIdx fun i row => Row.withId (i + 1) row
  added : r.references = references
  named : ∀ reference ∈ references, ∃ row, r.get reference.id = .ok row

theorem filled_empty : (empty : RefRecord ρ).Filled [] [] where
  wf := wf_empty
  table := rfl
  added := rfl
  named := by simp

theorem Filled.insert (h : r.Filled rows references) (row : ρ) :
    (r.insert row).2.Filled (rows ++ [row]) references where
  wf := h.wf.insert row
  table := by
    have hlength : r.table.length = rows.length := by rw [h.table, List.length_mapIdx]
    rw [List.mapIdx_concat, ← h.table, ← hlength]
    rfl
  added := h.added
  named := by
    intro reference hreference
    obtain ⟨target, htarget⟩ := h.named reference hreference
    have hrow := get_eq_ok.mp htarget
    have hold := row_isSome.mp ⟨target, hrow⟩
    refine ⟨target, get_eq_ok.mpr ?_⟩
    rw [row_insert, if_neg (by omega)]
    exact hrow

theorem Filled.addReference (h : r.Filled rows references) {reference : Reference} {row : ρ}
    (hrow : r.get reference.id = .ok row) :
    (r.addReference reference).Filled rows (references ++ [reference]) where
  wf := h.wf.addReference reference
  table := h.table
  added := by
    rw [← h.added]
    rfl
  named := List.forall_mem_append.mpr ⟨h.named, List.forall_mem_singleton.mpr ⟨row, hrow⟩⟩

theorem Filled.adds {addition : Addition ρ} (h : r.Filled rows references)
    (hadds : Adds r addition r') : r'.Filled (rows ++ insertedRows [addition])
      (references ++ addedReferences [addition]) := by
  cases hadds with
  | @insert row =>
    have hnone : addedReferences [Addition.insert row] = [] := rfl
    rw [hnone, List.append_nil]
    exact h.insert row
  | @addReference reference row hrow =>
    have hnone : insertedRows [(Addition.addReference reference : Addition ρ)] = [] := rfl
    rw [hnone, List.append_nil]
    exact h.addReference hrow

/-! ## Rows -/

theorem Filled.get_iff (h : r.Filled rows references) (id : Nat) (row : ρ) :
    r.get id = .ok row ↔
      ∃ inserted, 1 ≤ id ∧ rows[id - 1]? = some inserted ∧ row = Row.withId id inserted := by
  rw [get_eq_ok, RefRecord.row]
  by_cases hid : 1 ≤ id
  · have hsucc : id - 1 + 1 = id := by omega
    rw [if_pos hid, h.table, List.getElem?_mapIdx, hsucc, Option.map_eq_some_iff]
    constructor
    · rintro ⟨inserted, hinserted, rfl⟩
      exact ⟨inserted, hid, hinserted, rfl⟩
    · rintro ⟨inserted, -, hinserted, rfl⟩
      exact ⟨inserted, hinserted, rfl⟩
  · simp [hid]

theorem Filled.ids (h : r.Filled rows references) :
    r.table.map Row.id = List.range' 1 rows.length := by
  rw [h.table]
  apply List.ext_getElem
  · simp
  · intro i hi _
    simp only [List.getElem_map, List.getElem_mapIdx, Row.id_withId, List.getElem_range']
    omega

theorem WF.mem_byName (h : r.WF) (name : Str) (id : Nat) :
    id ∈ r.byName.equalRange name ↔ ∃ row, r.get id = .ok row ∧ Row.name row = name := by
  rw [h.equalRange_byName]
  constructor
  · intro hid
    obtain ⟨row, hrow, rfl⟩ := List.mem_map.mp hid
    obtain ⟨hmem, hname⟩ := List.mem_filter.mp hrow
    exact ⟨row, get_eq_ok.mpr (h.row_id hmem), of_decide_eq_true hname⟩
  · rintro ⟨row, hrow, hname⟩
    have hrow := get_eq_ok.mp hrow
    rw [← h.ids id row hrow]
    exact List.mem_map_of_mem (List.mem_filter.mpr ⟨mem_of_row hrow, decide_eq_true hname⟩)

/-- The ids of a name are a part of the range of all ids. -/
theorem Filled.byName_order (h : r.Filled rows references) (name : Str) :
    (r.byName.equalRange name).Pairwise (· < ·) := by
  have hall : (r.table.map Row.id).Pairwise (· < ·) := by
    rw [h.ids]
    exact List.pairwise_lt_range'
  rw [h.wf.equalRange_byName]
  exact hall.sublist (List.filter_sublist.map Row.id)

/-! ## References -/

theorem WF.mem_refsByID (h : r.WF) (id pos : Nat) :
    pos ∈ r.refsByID.equalRange id ↔
      ∃ reference, r.references[pos]? = some reference ∧ reference.id = id := by
  rw [h.equalRange_refsByID]
  constructor
  · intro hpos
    obtain ⟨⟨reference, pos⟩, hentry, rfl⟩ := List.mem_map.mp hpos
    obtain ⟨hmem, hid⟩ := List.mem_filter.mp hentry
    exact ⟨reference, List.mem_zipIdx_iff_getElem?.mp hmem, of_decide_eq_true hid⟩
  · rintro ⟨reference, hget, hid⟩
    exact List.mem_map.mpr ⟨(reference, pos), List.mem_filter.mpr
      ⟨List.mem_zipIdx_iff_getElem?.mpr hget, decide_eq_true hid⟩, rfl⟩

theorem WF.positions (h : r.WF) :
    r.refsByID.entries.map Prod.snd = List.range r.references.length := by
  rw [h.refsByID, List.map_map, List.range_eq_range']
  exact List.zipIdx_map_snd 0 _

/-- The positions of an id are a part of the range of all positions. -/
theorem WF.refsByID_order (h : r.WF) (id : Nat) : (r.refsByID.equalRange id).Pairwise (· < ·) := by
  have hall : (r.references.zipIdx.map Prod.snd).Pairwise (· < ·) := by
    rw [List.zipIdx_map_snd]
    exact List.pairwise_lt_range'
  rw [h.equalRange_refsByID]
  exact hall.sublist (List.filter_sublist.map Prod.snd)

/-! ## All calls -/

theorem Filled.holds (h : r.Filled rows references) : r.Holds rows references := by
  obtain rfl := h.added
  exact {
    ids := h.ids
    get := h.get_iff
    nameEntries := .of_eq h.wf.byName
    byName := h.wf.mem_byName
    byNameOrder := h.byName_order
    added := rfl
    refsByID := h.wf.mem_refsByID
    refsByIDOrder := h.wf.refsByID_order
    positions := .of_eq h.wf.positions
    named := h.named }

/-- After any calls, a table holds what was added, in the order of the calls. -/
theorem adds_holds {additions : List (Addition ρ)} (h : Run Adds empty additions r) :
    r.Holds (insertedRows additions) (addedReferences additions) := by
  refine Filled.holds (h.history (J := fun additions r =>
    r.Filled (insertedRows additions) (addedReferences additions)) filled_empty ?_)
  intro additions r addition r' _ hfilled hadds
  rw [insertedRows_concat, addedReferences_concat]
  exact hfilled.adds hadds

/-- Three variables, two of one name, and references to the first and the last. -/
theorem variables_holds :
    let x : Variable := { id := 0, name := bytes "x" }
    let y : Variable := { id := 0, name := bytes "y" }
    let usage : Nat → Reference := fun id => { location := ⟨[], 0, 0, 0⟩, id, type := .USAGE }
    let r := ((((((empty : RefRecord Variable).insert x).2.insert y).2.addReference (usage 1)).insert
      x).2.addReference (usage 3)).addReference (usage 1)
    r.Holds [x, y, x] [usage 1, usage 3, usage 1] := by
  intro x y usage r
  have hrun : Run Adds empty [.insert x, .insert y, .addReference (usage 1), .insert x,
      .addReference (usage 3), .addReference (usage 1)] r :=
    .cons .insert (.cons .insert (.cons (.addReference rfl) (.cons .insert
      (.cons (.addReference rfl) (.single (.addReference rfl))))))
  exact adds_holds hrun

end RefRecord

end TclAnalyzer
