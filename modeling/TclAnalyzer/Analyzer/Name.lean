import TclAnalyzer.Basic

/-!
# Qualified names

Splitting paths and names at the separator `::`. `SplitPath` scans from the left, `SplitName` looks
for the last separator from the right.
-/

namespace TclAnalyzer

/-- The byte `':'`. -/
def colon : UInt8 := 58

/-- The separator `::`. -/
def separator : Str := [colon, colon]

/-- The loop of `SplitPath`: `component` holds the bytes from `start` up to `cur`. -/
def splitPathFrom (component : Str) : Str → List Str
  | [] => [component]
  | [c] => [component ++ [c]]
  | c :: d :: rest =>
    if c = colon ∧ d = colon then component :: splitPathFrom [] rest
    else splitPathFrom (component ++ [c]) (d :: rest)

def splitPath (path : Str) : List Str := splitPathFrom [] path

/-- A name after its last separator, and what stands before that separator. -/
structure QualifiedName where
  ns : Option Str
  name : Str
  absolute : Bool
  deriving DecidableEq, Repr

namespace QualifiedName

/-- The `absolute` field of the results built here is left out of the initialisers of the source,
and so is false. -/
def absPath (qn : QualifiedName) (currentPath : Str) : QualifiedName :=
  if qn.absolute then qn
  else if currentPath = [] then
    { ns := some (match qn.ns with | some ns => separator ++ ns | none => []),
      name := qn.name, absolute := false }
  else
    { ns := some (currentPath ++ qn.ns.getD []), name := qn.name, absolute := false }

def path (qn : QualifiedName) : Str :=
  match qn.ns with
  | some ns => ns ++ separator ++ qn.name
  | none => qn.name

/-- `Namespace()`; `namespace` is a keyword here. -/
def namespacePath (qn : QualifiedName) : Str := qn.ns.getD []

/-- `substr( 2 )` throws on a namespace of one byte. -/
def namespaceParts (qn : QualifiedName) : Except Fault (List Str) :=
  match qn.ns with
  | none => .ok []
  | some ns =>
    if qn.absolute ∧ ns ≠ [] then
      if ns.length < 2 then .error .outOfRange else .ok (splitPath (ns.drop 2))
    else if qn.absolute then .ok []
    else .ok (splitPath ns)

def parts (qn : QualifiedName) : Except Fault (List Str) := do
  let parts ← qn.namespaceParts
  return if qn.name = [] then parts else parts ++ [qn.name]

end QualifiedName

/-- `rfind( "::" )`. -/
def rfindSeparator : Str → Option Nat
  | [] => none
  | [_] => none
  | c :: d :: rest =>
    match rfindSeparator (d :: rest) with
    | some pos => some (pos + 1)
    | none => if c = colon ∧ d = colon then some 0 else none

def splitName (name : Str) : QualifiedName :=
  if name = [] then { ns := some [], name := [], absolute := true }
  else
    match rfindSeparator name with
    | none => { ns := none, name, absolute := false }
    | some pos =>
      if name.take 2 = separator then
        if name.length > 2 then
          { ns := some (name.take pos), name := name.drop (pos + 2), absolute := true }
        else { ns := some [], name := [], absolute := true }
      else { ns := some (name.take pos), name := name.drop (pos + 2), absolute := false }

end TclAnalyzer
