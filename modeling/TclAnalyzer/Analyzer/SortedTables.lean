import Mathlib.Data.List.Lex
import TclAnalyzer.Analyzer.Tables
import TclAnalyzer.Data.SortedMultimap

/-!
# Tables with sorted indexes

The two indexes of a table as the containers that they are, in the order in which a loop goes through
them. Strings are ordered byte by byte, and bytes as unsigned numbers.
-/

namespace TclAnalyzer

instance byteOrder : LinearOrder UInt8 where
  le_refl := UInt8.le_refl
  le_trans _ _ _ := UInt8.le_trans
  lt_iff_le_not_ge a b := by simp only [UInt8.lt_iff_toNat_lt, UInt8.le_iff_toNat_le]; omega
  le_antisymm _ _ := UInt8.le_antisymm
  le_total := UInt8.le_total
  toDecidableLE := inferInstance

/-- `RefRecord` with `byName` and `refsByID` sorted by their keys. -/
structure SortedRecord (ρ : Type) where
  table : List ρ
  byName : SortedMultimap Str Nat
  references : List Reference
  refsByID : SortedMultimap Nat Nat

namespace SortedRecord

variable {ρ : Type} [Row ρ]

def empty : SortedRecord ρ :=
  { table := [], byName := .empty, references := [], refsByID := .empty }

/-- `Insert`. -/
def insert (s : SortedRecord ρ) (row : ρ) : SortedRecord ρ :=
  let row := Row.withId (s.table.length + 1) row
  { s with table := s.table ++ [row], byName := s.byName.emplace (Row.name row) (Row.id row) }

def addReference (s : SortedRecord ρ) (reference : Reference) : SortedRecord ρ :=
  { s with references := s.references ++ [reference],
           refsByID := s.refsByID.emplace reference.id s.references.length }

def add (s : SortedRecord ρ) : RefRecord.Addition ρ → SortedRecord ρ
  | .insert row => s.insert row
  | .addReference reference => s.addReference reference

/-- The tables have the same rows and references. A lookup in either index finds the same, and a loop
over an index meets each entry once, the entries by key and those of one key in the order in which
they came. -/
structure Agrees (s : SortedRecord ρ) (r : RefRecord ρ) : Prop where
  table : s.table = r.table
  references : s.references = r.references
  byName : ∀ name, s.byName.equalRange name = r.byName.equalRange name
  refsByID : ∀ id, s.refsByID.equalRange id = r.refsByID.equalRange id
  nameEntries : s.byName.entries.Perm (r.table.map fun row => (Row.name row, Row.id row))
  nameOrder : s.byName.entries.Pairwise fun a b => a.1 < b.1 ∨ a.1 = b.1 ∧ a.2 < b.2
  refEntries : s.refsByID.entries.Perm (r.references.zipIdx.map fun e => (e.1.id, e.2))
  refOrder : s.refsByID.entries.Pairwise fun a b => a.1 < b.1 ∨ a.1 = b.1 ∧ a.2 < b.2

end SortedRecord

/-- The table with its indexes sorted. -/
def RefRecord.sorted {ρ : Type} (r : RefRecord ρ) : SortedRecord ρ :=
  { table := r.table, byName := r.byName.sorted, references := r.references,
    refsByID := r.refsByID.sorted }

end TclAnalyzer
