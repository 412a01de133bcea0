import TclAnalyzer.Analyzer.SourceLocation
import TclAnalyzer.Data.Multimap

/-!
# Tables

The tables of the index: rows numbered from 1 in order of insertion, an index of the rows by name,
and references to the rows with an index of them by id.
-/

namespace TclAnalyzer

/-- What a table asks of its rows: an id, which the table assigns, and a name. -/
class Row (ρ : Type) where
  id : ρ → Nat
  name : ρ → Str
  withId : Nat → ρ → ρ
  id_withId : ∀ i r, id (withId i r) = i
  name_withId : ∀ i r, name (withId i r) = name r

inductive ReferenceType where
  | USAGE | DEFINITION | DECLARAION
  deriving DecidableEq, Repr

/-- `Row::Reference`, which is the same for the three kinds of rows. -/
structure Reference where
  location : SourceLocation
  id : Nat
  type : ReferenceType
  deriving DecidableEq, Repr

/-- `RefRecord`, with the fields of its bases `NamedRecordImpl` and `Record`. -/
structure RefRecord (ρ : Type) where
  table : List ρ
  byName : Multimap Str Nat
  references : List Reference
  refsByID : Multimap Nat Nat

namespace RefRecord

variable {ρ : Type} [Row ρ]

def empty : RefRecord ρ :=
  { table := [], byName := .empty, references := [], refsByID := .empty }

/-- `Insert`, with the row as it is stored. -/
def insert (r : RefRecord ρ) (row : ρ) : ρ × RefRecord ρ :=
  let row := Row.withId (r.table.length + 1) row
  (row, { r with table := r.table ++ [row],
                 byName := r.byName.emplace (Row.name row) (Row.id row) })

def get (r : RefRecord ρ) (id : Nat) : Except Fault ρ :=
  if id < 1 then .error .assertion
  else if r.table.length < id then .error .assertion
  else nth r.table (id - 1)

/-- A write through a reference to the row with this id. -/
def modify (r : RefRecord ρ) (id : Nat) (f : ρ → ρ) : RefRecord ρ :=
  { r with table := r.table.modify (id - 1) f }

def addReference (r : RefRecord ρ) (reference : Reference) : RefRecord ρ :=
  { r with references := r.references ++ [reference],
           refsByID := r.refsByID.emplace reference.id r.references.length }

/-- The references to a row, in the order of `refsByID`. -/
def refsOf (r : RefRecord ρ) (id : Nat) : List Reference :=
  (r.refsByID.equalRange id).filterMap fun pos => r.references[pos]?

end RefRecord

end TclAnalyzer
