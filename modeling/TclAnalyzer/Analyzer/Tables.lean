import TclAnalyzer.Analyzer.Db
import TclAnalyzer.Data.Runs

/-!
# Filling a table

The two functions that add to a table, in any order, and what a table holds in terms of the rows and
references that were added.
-/

namespace TclAnalyzer

namespace RefRecord

variable {ρ : Type} [Row ρ]

/-- A call of `Insert` or of `AddReference`. -/
inductive Addition (ρ : Type) where
  | insert (row : ρ)
  | addReference (reference : Reference)

def add (r : RefRecord ρ) : Addition ρ → RefRecord ρ
  | .insert row => (r.insert row).2
  | .addReference reference => r.addReference reference

/-- The rows that are inserted, as they are passed to `Insert`. -/
def insertedRows (additions : List (Addition ρ)) : List ρ :=
  additions.filterMap fun
    | .insert row => some row
    | .addReference _ => none

def addedReferences (additions : List (Addition ρ)) : List Reference :=
  additions.filterMap fun
    | .insert _ => none
    | .addReference reference => some reference

/-- The table after a call. A reference is only added to an existing row. -/
inductive Adds : RefRecord ρ → Addition ρ → RefRecord ρ → Prop
  | insert {r : RefRecord ρ} {row : ρ} : Adds r (.insert row) (r.insert row).2
  | addReference {r : RefRecord ρ} {reference : Reference} {row : ρ} :
    r.get reference.id = .ok row → Adds r (.addReference reference) (r.addReference reference)

/-- The table holds these rows and references, in the order in which they were added. -/
structure Holds (r : RefRecord ρ) (rows : List ρ) (references : List Reference) : Prop where
  ids : r.table.map Row.id = List.range' 1 rows.length
  get : ∀ id row, r.get id = .ok row ↔
    ∃ inserted, 1 ≤ id ∧ rows[id - 1]? = some inserted ∧ row = Row.withId id inserted
  /-- One entry for each row, in some order. -/
  nameEntries : r.byName.entries.Perm (r.table.map fun row => (Row.name row, Row.id row))
  byName : ∀ name id, id ∈ r.byName.equalRange name ↔ ∃ row, r.get id = .ok row ∧ Row.name row = name
  byNameOrder : ∀ name, (r.byName.equalRange name).Pairwise (· < ·)
  added : r.references = references
  refsByID : ∀ id pos, pos ∈ r.refsByID.equalRange id ↔
    ∃ reference, references[pos]? = some reference ∧ reference.id = id
  refsByIDOrder : ∀ id, (r.refsByID.equalRange id).Pairwise (· < ·)
  /-- One entry for each position, in some order. -/
  positions : (r.refsByID.entries.map Prod.snd).Perm (List.range references.length)
  named : ∀ reference ∈ references, ∃ row, r.get reference.id = .ok row

end RefRecord

end TclAnalyzer
