import Mathlib.Algebra.Group.Int.Defs
import Mathlib.Algebra.Group.Nat.Defs
import TclAnalyzer.Basic

/-!
# JSON values

The values of the JSON library and its accessors. All its exceptions are the one fault `json`.
-/

namespace TclAnalyzer

/-- `nlohmann::json`. Numbers are kept in the kind the parser of the library gives them; a float is
the number it stands for. The members of an object have different keys. -/
inductive Json where
  | null
  | boolean (b : Bool)
  | string (s : Str)
  | unsigned (n : Nat)
  | integer (i : Int)
  | float (x : Rat)
  | array (elements : List Json)
  | object (members : List (Str × Json))

namespace Json

/-! ## Members -/

/-- `find`, which finds nothing in what is not an object. -/
def find (j : Json) (key : Str) : Option Json :=
  match j with
  | .object members => members.lookup key
  | _ => none

/-- `at( key )` throws on what is not an object and where there is no such member. -/
def «at» (j : Json) (key : Str) : Except Fault Json :=
  match j.find key with
  | some v => .ok v
  | none => .error .json

/-- `operator[]` of a constant asserts that there is such a member. -/
def index (j : Json) (key : Str) : Except Fault Json :=
  match j with
  | .object members =>
    match members.lookup key with
    | some v => .ok v
    | none => .error .assertion
  | _ => .error .json

/-- `value( key, default )` with a conversion of the member. -/
def value {α : Type} (j : Json) (key : Str) (get : Json → Except Fault α) (default : α) :
    Except Fault α :=
  match j with
  | .object members =>
    match members.lookup key with
    | some v => get v
    | none => .ok default
  | _ => .error .json

/-! ## Conversions -/

def getString : Json → Except Fault Str
  | .string s => .ok s
  | _ => .error .json

def getBoolean : Json → Except Fault Bool
  | .boolean b => .ok b
  | _ => .error .json

/-- A number without its fraction. -/
def truncate (x : Rat) : Int := if 0 ≤ x then x.floor else x.ceil

/-- `get< uint64_t >()`. An integer is converted modulo 2^64, a float has to be in range. -/
def getUnsigned : Json → Except Fault Nat
  | .unsigned n => .ok (n % 2 ^ 64)
  | .integer i => .ok (i % 2 ^ 64).toNat
  | .float x =>
    if 0 ≤ truncate x ∧ truncate x < 2 ^ 64 then .ok (truncate x).toNat else .error .undefined
  | _ => .error .json

/-- `get< int64_t >()`, likewise. -/
def getInteger : Json → Except Fault Int
  | .unsigned n => .ok ((n : Int).bmod (2 ^ 64))
  | .integer i => .ok (i.bmod (2 ^ 64))
  | .float x =>
    if -2 ^ 63 ≤ truncate x ∧ truncate x < 2 ^ 63 then .ok (truncate x) else .error .undefined
  | _ => .error .json

/-- `get< std::vector< T > >()`, with the conversion of the elements. -/
def getArray {α : Type} (get : Json → Except Fault α) : Json → Except Fault (List α)
  | .array elements => elements.mapM get
  | _ => .error .json

end Json

end TclAnalyzer
