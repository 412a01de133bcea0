import TclAnalyzer.Analyzer.Db
import TclAnalyzer.Analyzer.Script

/-!
# The index

Namespaces, procs and variables found in a script, and the references to the procs. `scanScript`
registers the definitions and `indexScript` then records the usages.

A pointer or reference to a row of a table is the row's id where the row is written through it, and
the row itself where it is only read.
-/

namespace TclAnalyzer

structure Variable where
  id : Nat
  name : Str
  deriving DecidableEq, Repr

/-- The variables of a scope are left out: nothing fills them in. -/
structure Scope where
  procs : List Nat
  deriving DecidableEq, Repr

/-- `scope` of a proc is left out: nothing fills it in. -/
structure Proc where
  id : Nat
  name : Str
  arguments : List Nat
  isVariadic : Bool
  requiredArgs : Nat
  optionalArgs : Nat
  parentNamespace : Nat
  deriving DecidableEq, Repr

structure Namespace where
  id : Nat
  name : Str
  scope : Scope
  childNamespaces : List Nat
  parentNamespace : Option Nat
  deriving DecidableEq, Repr

instance : Row Variable where
  id := Variable.id
  name := Variable.name
  withId i v := { v with id := i }
  id_withId _ _ := rfl
  name_withId _ _ := rfl

instance : Row Proc where
  id := Proc.id
  name := Proc.name
  withId i p := { p with id := i }
  id_withId _ _ := rfl
  name_withId _ _ := rfl

instance : Row Namespace where
  id := Namespace.id
  name := Namespace.name
  withId i n := { n with id := i }
  id_withId _ _ := rfl
  name_withId _ _ := rfl

/-- `vars` is the table `variables`. -/
structure Index where
  namespaces : RefRecord Namespace
  procs : RefRecord Proc
  vars : RefRecord Variable
  globalNamespaceId : Nat

/-- A namespace as `new Namespace{ .name = …, .parent_namespace = … }` builds it. -/
def newNamespace (name : Str) (parentNamespace : Option Nat) : Namespace :=
  { id := 0, name, scope := { procs := [] }, childNamespaces := [], parentNamespace }

def makeIndex : Index :=
  let (globalNamespace, namespaces) := RefRecord.empty.insert (newNamespace [] none)
  { namespaces, procs := .empty, vars := .empty, globalNamespaceId := globalNamespace.id }

/-! ## Namespaces -/

/-- The `find_if` for the child of this name. -/
def findChild (index : Index) (part : Str) : List Nat → Except Fault (Option Nat)
  | [] => return none
  | childId :: children => do
    let child ← index.namespaces.get childId
    if child.name = part then return some childId
    else findChild index part children

/-- The loop of `ResolveNamespace`. -/
def resolveParts (index : Index) (curId : Nat) :
    List Str → Except Fault (Nat × Index)
  | [] => return (curId, index)
  | part :: parts => do
    let current ← index.namespaces.get curId
    match ← findChild index part current.childNamespaces with
    | none =>
      let (child, namespaces) := index.namespaces.insert (newNamespace part (some current.id))
      let namespaces := namespaces.modify curId fun n =>
        { n with childNamespaces := n.childNamespaces ++ [child.id] }
      resolveParts { index with namespaces } child.id parts
    | some childId => resolveParts index childId parts

/-- The namespace a qualified name is in, seen from `ns`. Namespaces on the way are created. -/
def resolveNamespace (index : Index) (qn : QualifiedName) (ns : Nat) :
    Except Fault (Nat × Index) := do
  let parts ← qn.namespaceParts
  let curId := if qn.absolute then index.globalNamespaceId else ns
  let (curId, index) ← resolveParts index curId parts
  let ns ← index.namespaces.get curId
  return (ns.id, index)

/-- The namespace of a name in `AddProcToIndex` and `FindProc`, which resolve qualified names only. -/
def resolveQualified (index : Index) (qn : QualifiedName) (ns : Nat) :
    Except Fault (Nat × Index) :=
  if qn.absolute ∨ qn.ns.isSome then resolveNamespace index qn ns else return (ns, index)

/-- The loop of `FindNamespace`. -/
def findParts (index : Index) (curId : Nat) :
    List Str → Except Fault (Option Nat)
  | [] => return some curId
  | part :: parts => do
    let current ← index.namespaces.get curId
    match ← findChild index part current.childNamespaces with
    | none => return none
    | some childId => findParts index childId parts

def findNamespace (index : Index) (nsName : Str) : Except Fault (Option Nat) := do
  let qn := splitName nsName
  if ¬ qn.absolute then throw .assertion
  let parts ← qn.parts
  match ← findParts index index.globalNamespaceId parts with
  | none => return none
  | some curId => return some (← index.namespaces.get curId).id

/-- The loop of `GetPrintName` up the parents, at most `fuel` of them. -/
def ancestorNames (index : Index) : (fuel : Nat) → Option Nat → Except Fault (List Str)
  | _, none => return []
  | 0, some _ => throw .diverges
  | fuel + 1, some currId => do
    let curr ← index.namespaces.get currId
    let names ← ancestorNames index fuel curr.parentNamespace
    return names ++ [curr.name]

/-- `GetPrintName` of an entity with this name and parent. A walk to the root that ends meets no
namespace twice. -/
def getPrintName (index : Index) (name : Str) (parent : Option Nat) : Except Fault Str := do
  let parts ← ancestorNames index index.namespaces.table.length parent
  return separator.intercalate (parts ++ [name])

/-! ## Procs -/

def addCommandReference (index : Index) (location : SourceLocation) (proc : Proc)
    (type : ReferenceType) : Index :=
  { index with procs := index.procs.addReference { location, id := proc.id, type } }

/-- The argument in one turn of the loop of `AddProcToIndex`: how it is counted, and its name. -/
def addArgument (proc : Proc) (arg : Word) (isLast : Bool) : Except Fault (Proc × Str) :=
  -- `argName` is compared before it is assigned
  let argName : Str := []
  if arg.type = .TEXT then
    if argName = bytes "args" ∧ isLast then return ({ proc with isVariadic := true }, arg.text.bytes)
    else return ({ proc with requiredArgs := proc.requiredArgs + 1 }, arg.text.bytes)
  else
    match arg.data with
    | .words vec => do
      let first ← nth vec 0
      return ({ proc with optionalArgs := proc.optionalArgs + 1 }, first.text.bytes)
    | _ => throw .badVariantAccess

/-- The loop of `AddProcToIndex` over the argument words. -/
def addArguments (index : Index) (proc : Proc) : List Word → Except Fault (Proc × Index)
  | [] => return (proc, index)
  | arg :: rest => do
    let (proc, argName) ← addArgument proc arg rest.isEmpty
    let (v, vars) := index.vars.insert { id := 0, name := argName }
    addArguments { index with vars } { proc with arguments := proc.arguments ++ [v.id] } rest

/-- The arguments of the proc, read off its argument word. -/
def addArgumentWord (index : Index) (proc : Proc) (args : Word) : Except Fault (Proc × Index) :=
  if args.type = .LIST then
    match args.data with
    | .words vec => addArguments index proc vec
    | _ => throw .badVariantAccess
  else return (proc, index)

def addProcToIndex (index : Index) (ns : Nat) (words : List Word) : Except Fault Index := do
  let nameWord ← nth words 1
  let qn := splitName nameWord.text.bytes
  let proc : Proc :=
    { id := 0, name := qn.name, arguments := [], isVariadic := false, requiredArgs := 0,
      optionalArgs := 0, parentNamespace := 0 }
  let (proc, index) ← addArgumentWord index proc (← nth words 2)
  let (resolved, index) ← resolveQualified index qn ns
  -- the id pushed here is not assigned yet
  let namespaces := index.namespaces.modify resolved fun n =>
    { n with scope := { n.scope with procs := n.scope.procs ++ [proc.id] } }
  let (p, procs) := index.procs.insert { proc with parentNamespace := resolved }
  return addCommandReference { index with namespaces, procs } nameWord.location p .DEFINITION

/-! ## Scanning for definitions -/

/-- The place of a command or word in a script: on the way down, the index of a command in its
script, of a word in its command and of a component in its word. -/
abbrev Pos := List Nat

/-- A call that a pass over the script has reached: where it stands, the namespace on top of
`nsPath` then, and the proc `BestFitProcToCall` selected for it, if any. -/
structure Visit where
  pos : Pos
  call : Call
  ns : Nat
  fit : Option Nat

/-- The index while a pass runs. `visits` is not in the source: it records the calls reached. -/
structure PassState where
  index : Index
  visits : List Visit

/-- `ScanContext`. The end of the vector, `nsPath.back()`, is the head of the list. -/
structure ScanContext where
  nsPath : List Nat
  deriving DecidableEq, Repr

/-- `index.namespaces.Get( context.nsPath.back() )`. -/
def ScanContext.current (context : ScanContext) (index : Index) : Except Fault Namespace := do
  let top ← nth context.nsPath 0
  index.namespaces.get top

def ScanContext.push (context : ScanContext) (ns : Nat) : ScanContext :=
  { nsPath := ns :: context.nsPath }

/-- The name that both passes build for `namespace eval` by hand. -/
def namespaceEvalName (word : Word) : QualifiedName :=
  { ns := some word.text.bytes, name := [], absolute := false }

mutual

def scanScript (st : PassState) (context : ScanContext) (pos : Pos) :
    Script → Except Fault PassState
  | ⟨_, commands⟩ => scanCalls st context pos 0 commands

/-- The loop of `ScanScript`, from the command with index `i` on. -/
def scanCalls (st : PassState) (context : ScanContext) (pos : Pos) (i : Nat) :
    List Call → Except Fault PassState
  | [] => return st
  | call :: commands => do
    let st ← scanCall st context (pos ++ [i]) call
    scanCalls st context pos (i + 1) commands

/-- One turn of the loop. -/
def scanCall (st : PassState) (context : ScanContext) (pos : Pos) :
    Call → Except Fault PassState
  | ⟨type, words, callNs⟩ => do
    let ns ← context.current st.index
    let visits := st.visits ++ [{ pos, call := ⟨type, words, callNs⟩, ns := ns.id, fit := none }]
    match type with
    | .NAMESPACE_EVAL =>
      let (resolved, index) ←
        resolveNamespace st.index (namespaceEvalName (← nth words 2)) ns.id
      scanWordAt { index, visits } (context.push resolved) pos 0 3 words
    | .PROC =>
      let index ← addProcToIndex st.index ns.id words
      scanWords { index, visits } context pos 0 words
    | _ => scanWords { st with visits } context pos 0 words

/-- `ScanWord` on the `n`-th of the words, which start with index `k`. -/
def scanWordAt (st : PassState) (context : ScanContext) (pos : Pos) (k : Nat) :
    (n : Nat) → List Word → Except Fault PassState
  | _, [] => throw .undefined
  | 0, word :: _ => scanWord st context (pos ++ [k]) word
  | n + 1, _ :: words => scanWordAt st context pos (k + 1) n words

def scanWords (st : PassState) (context : ScanContext) (pos : Pos) (k : Nat) :
    List Word → Except Fault PassState
  | [] => return st
  | word :: words => do
    let st ← scanWord st context (pos ++ [k]) word
    scanWords st context pos (k + 1) words

def scanWord (st : PassState) (context : ScanContext) (pos : Pos) : Word → Except Fault PassState
  | ⟨type, _, _, data⟩ => scanData st context pos type data

/-- `ScanWord` by the type of the word. -/
def scanData (st : PassState) (context : ScanContext) (pos : Pos) (type : WordType) :
    WordData → Except Fault PassState
  | .words words =>
    match type with
    | .EXPAND | .TOKEN_LIST => scanWords st context pos 0 words
    | .SCRIPT => throw .badVariantAccess
    | _ => return st
  | .script script =>
    match type with
    | .EXPAND | .TOKEN_LIST => throw .badVariantAccess
    | .SCRIPT => scanScript st context pos script
    | _ => return st
  | .nothing | .arrayAccess _ _ =>
    match type with
    | .EXPAND | .TOKEN_LIST | .SCRIPT => throw .badVariantAccess
    | _ => return st

end

/-! ## Indexing usages -/

/-- The rows for a range of ids. -/
def getAll (index : Index) : List Nat → Except Fault (List Proc)
  | [] => return []
  | id :: ids => do
    let p ← index.procs.get id
    let ps ← getAll index ids
    return p :: ps

/-- `FindProc` with at most `fuel` steps to a parent. -/
def findProcAt (index : Index) (cmdName : Str) :
    (fuel : Nat) → Nat → Except Fault (List Proc × Index)
  | fuel, nsId => do
    let qn := splitName cmdName
    let ns ← index.namespaces.get nsId
    let range := index.procs.byName.equalRange qn.name
    let (targetNamespace, index) ← resolveQualified index qn ns.id
    let procs ← getAll index range
    let result := procs.filter fun p => p.parentNamespace = targetNamespace
    match ns.parentNamespace with
    | some parent =>
      if result.isEmpty ∧ ¬ qn.absolute then
        match fuel with
        | 0 => throw .diverges
        | fuel + 1 => findProcAt index cmdName fuel parent
      else return (result, index)
    | none => return (result, index)

/-- The procs a command name refers to in a namespace. A walk to the root that ends meets no
namespace twice. -/
def findProc (index : Index) (ns : Nat) (cmdName : Str) :
    Except Fault (List Proc × Index) :=
  findProcAt index cmdName index.namespaces.table.length ns

/-- The loop of `BestFitProcToCall` with the candidate found so far. -/
def bestFitFrom (numArgs : Nat) (bestFit : Option Proc) : List Proc → Option Proc
  | [] => bestFit
  | proc :: procs =>
    if bestFit.isNone then bestFitFrom numArgs (some proc) procs
    else if numArgs < proc.requiredArgs then bestFitFrom numArgs bestFit procs
    else if numArgs = proc.requiredArgs then some proc
    else if numArgs ≤ proc.requiredArgs + proc.optionalArgs then bestFitFrom numArgs (some proc) procs
    else if proc.isVariadic then bestFitFrom numArgs (some proc) procs
    else bestFitFrom numArgs bestFit procs

/-- `call.words.size() - 1` is taken of a call with a command word. -/
def bestFitProcToCall (procs : List Proc) (call : Call) : Option Proc :=
  bestFitFrom (call.words.length - 1) none procs

/-- The `USER` case of `IndexScript`, with the proc selected. -/
def indexUsage (index : Index) (ns : Nat) (call : Call) :
    Except Fault (Option Nat × Index) := do
  let cmdWord ← nth call.words 0
  let (procs, index) ← findProc index ns cmdWord.text.bytes
  match bestFitProcToCall procs call with
  | some bestFit =>
    return (some bestFit.id, addCommandReference index cmdWord.location bestFit .USAGE)
  | none => return (none, index)

mutual

def indexScript (st : PassState) (context : ScanContext) (pos : Pos) :
    Script → Except Fault PassState
  | ⟨_, commands⟩ => indexCalls st context pos 0 commands

/-- The loop of `IndexScript`, from the command with index `i` on. -/
def indexCalls (st : PassState) (context : ScanContext) (pos : Pos) (i : Nat) :
    List Call → Except Fault PassState
  | [] => return st
  | call :: commands => do
    let st ← indexCall st context (pos ++ [i]) call
    indexCalls st context pos (i + 1) commands

/-- One turn of the loop. -/
def indexCall (st : PassState) (context : ScanContext) (pos : Pos) :
    Call → Except Fault PassState
  | ⟨type, words, callNs⟩ => do
    let ns ← context.current st.index
    let visit (fit : Option Nat) : List Visit :=
      st.visits ++ [{ pos, call := ⟨type, words, callNs⟩, ns := ns.id, fit }]
    match type with
    | .NAMESPACE_EVAL =>
      let (resolved, index) ←
        resolveNamespace st.index (namespaceEvalName (← nth words 2)) ns.id
      indexWordAt { index, visits := visit none } (context.push resolved) pos 0 3 words
    | .PROC =>
      let procName := splitName (← nth words 1).text.bytes
      let (resolved, index) ← resolveNamespace st.index procName ns.id
      indexWordAt { index, visits := visit none } (context.push resolved) pos 0 3 words
    | .USER =>
      let (fit, index) ← indexUsage st.index ns.id ⟨type, words, callNs⟩
      indexWords { index, visits := visit fit } context pos 0 words
    | _ => indexWords { st with visits := visit none } context pos 0 words

/-- `IndexWord` on the `n`-th of the words, which start with index `k`. -/
def indexWordAt (st : PassState) (context : ScanContext) (pos : Pos) (k : Nat) :
    (n : Nat) → List Word → Except Fault PassState
  | _, [] => throw .undefined
  | 0, word :: _ => indexWord st context (pos ++ [k]) word
  | n + 1, _ :: words => indexWordAt st context pos (k + 1) n words

def indexWords (st : PassState) (context : ScanContext) (pos : Pos) (k : Nat) :
    List Word → Except Fault PassState
  | [] => return st
  | word :: words => do
    let st ← indexWord st context (pos ++ [k]) word
    indexWords st context pos (k + 1) words

def indexWord (st : PassState) (context : ScanContext) (pos : Pos) : Word → Except Fault PassState
  | ⟨type, _, _, data⟩ => indexData st context pos type data

/-- `IndexWord` by the type of the word. -/
def indexData (st : PassState) (context : ScanContext) (pos : Pos) (type : WordType) :
    WordData → Except Fault PassState
  | .arrayAccess _ index =>
    match type with
    | .ARRAY_ACCESS => indexWords st context pos 0 index
    | .EXPAND | .TOKEN_LIST | .SCRIPT => throw .badVariantAccess
    | _ => return st
  | .words words =>
    match type with
    | .EXPAND | .TOKEN_LIST => indexWords st context pos 0 words
    | .ARRAY_ACCESS | .SCRIPT => throw .badVariantAccess
    | _ => return st
  | .script script =>
    match type with
    | .SCRIPT => indexScript st context pos script
    | .ARRAY_ACCESS | .EXPAND | .TOKEN_LIST => throw .badVariantAccess
    | _ => return st
  | .nothing =>
    match type with
    | .ARRAY_ACCESS | .EXPAND | .TOKEN_LIST | .SCRIPT => throw .badVariantAccess
    | _ => return st

end

/-- What `Build` leaves behind: the index, and the calls each of its passes reached. -/
structure BuildResult where
  index : Index
  scanned : List Visit
  indexed : List Visit

def build (index : Index) (context : ScanContext) (script : Script) : Except Fault BuildResult := do
  let scan ← scanScript { index, visits := [] } context [] script
  let indexed ← indexScript { index := scan.index, visits := [] } context [] script
  return { index := indexed.index, scanned := scan.visits, indexed := indexed.visits }

/-- `Build` on a new index, as `Reparse` calls it. -/
def buildNew (script : Script) : Except Fault BuildResult :=
  build makeIndex { nsPath := [makeIndex.globalNamespaceId] } script

end TclAnalyzer
