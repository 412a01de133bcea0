import TclAnalyzer.Analyzer.Lookup
import TclAnalyzer.Analyzer.Typed

/-!
# Build as two loops

The passes of `Build` over a tree, as loops over the calls that they reach, what they ask of the tree,
and the namespaces that a turn of a loop is about.
-/

namespace TclAnalyzer

/-! ## The loops -/

/-- What `ScanScript` does at a call, whatever is around it. -/
def scanAt (index : Index) (site : Site Path) : Except Fault Index :=
  match index.atPath site.scope with
  | none => throw .undefined
  | some ns =>
    match site.call.type with
    | .NAMESPACE_EVAL => do
      let (_, index) ← resolveNamespace index (namespaceEvalName (← nth site.call.words 2)) ns
      return index
    | .PROC => addProcToIndex index ns site.call.words
    | _ => return index

/-- What `IndexScript` does at a call. -/
def indexAt (index : Index) (site : Site Path) : Except Fault Index :=
  match index.atPath site.scope with
  | none => throw .undefined
  | some ns =>
    match site.call.type with
    | .NAMESPACE_EVAL => do
      let (_, index) ← resolveNamespace index (namespaceEvalName (← nth site.call.words 2)) ns
      return index
    | .PROC => do
      let (_, index) ← resolveNamespace index (splitName (← nth site.call.words 1).text.bytes) ns
      return index
    | .USER => do
      let (_, index) ← indexUsage index ns site.call
      return index
    | _ => return index

/-- A turn of `ScanScript`, with the call recorded. -/
def scanVisit (st : PassState) (site : Site Path) : Except Fault PassState :=
  match st.index.atPath site.scope with
  | none => throw .undefined
  | some ns => do
    let index ← scanAt st.index site
    return { index, visits := st.visits ++ [{ pos := site.pos, call := site.call, ns, fit := none }] }

/-- A turn of `IndexScript`, with the call recorded and the proc selected for it. -/
def indexVisit (st : PassState) (site : Site Path) : Except Fault PassState :=
  match st.index.atPath site.scope with
  | none => throw .undefined
  | some ns =>
    let visit (fit : Option Nat) : List Visit :=
      st.visits ++ [{ pos := site.pos, call := site.call, ns, fit }]
    match site.call.type with
    | .USER => do
      let (fit, index) ← indexUsage st.index ns site.call
      return { index, visits := visit fit }
    | _ => do
      let index ← indexAt st.index site
      return { index, visits := visit none }

/-- `Build` without a stack of namespaces: one loop over the calls of each pass. -/
def Script.buildFlat (script : Script) : Except Fault Index := do
  let index ← script.scanSites.foldlM scanAt makeIndex
  script.indexSites.foldlM indexAt index

/-- The script with more commands at its end. -/
def Script.append (script : Script) (more : List Call) : Script :=
  { script with commands := script.commands ++ more }

/-! ## The tree -/

section Fits

variable {σ : Type} (p : Pass σ)

mutual

/-- Where a pass goes, a call of which it enters the body only has a body, and a word that it descends
into has the data that its type promises. -/
def fitsScript (scope : σ) : Script → Prop
  | ⟨_, commands⟩ => fitsCalls scope commands

def fitsCalls (scope : σ) : List Call → Prop
  | [] => True
  | call :: commands => fitsCall scope call ∧ fitsCalls scope commands

def fitsCall (scope : σ) : Call → Prop
  | ⟨type, words, ns⟩ =>
    (p.enter scope ⟨type, words, ns⟩ 0 = none → 3 < words.length) ∧
      fitsWords (p.enter scope ⟨type, words, ns⟩) 0 words

def fitsWords (enter : Nat → Option σ) (k : Nat) : List Word → Prop
  | [] => True
  | word :: words =>
    ((enter k).elim True fun scope => fitsWord scope word) ∧ fitsWords enter (k + 1) words

def fitsWord (scope : σ) : Word → Prop
  | ⟨type, location, text, data⟩ =>
    (p.descend scope type).elim True fun scope =>
      Word.DataFits ⟨type, location, text, data⟩ ∧ fitsData scope data

def fitsData (scope : σ) : WordData → Prop
  | .nothing => True
  | .arrayAccess _ index => fitsWords (fun _ => some scope) 0 index
  | .script script => fitsScript scope script
  | .words words => fitsWords (fun _ => some scope) 0 words

end

end Fits

/-- Each site stands in one of these scopes, or in one that an earlier site enters. -/
def RootedIn {σ : Type} (p : Pass σ) (R : σ → Prop) : List (Site σ) → Prop
  | [] => True
  | site :: sites =>
    R site.scope ∧
      RootedIn p (fun scope => R scope ∨ ∃ k, p.enter site.scope site.call k = some scope) sites

/-! ## Namespaces -/

/-- There is a namespace at the path. -/
def Index.HasPath (index : Index) (path : Path) : Prop := ∃ ns, index.atPath path = some ns

/-- The paths among these at which `FindProc` looks: up to the first with a proc of the name. -/
def Index.searched (index : Index) (name : Str) : List Path → List Path
  | [] => []
  | target :: targets =>
    target :: if index.procsIn target name = [] then index.searched name targets else []

/-- Where `FindProc` looks for a command name that is used at `path`. -/
def Index.lookedUp (index : Index) (path : Path) (cmdName : Str) : List Path :=
  match (splitName cmdName).namespaceParts with
  | .ok parts => index.searched (splitName cmdName).name (candidates path (splitName cmdName) parts)
  | .error _ => []

/-- The namespaces that a call is about in `ScanScript`. -/
def Site.scanTargets (site : Site Path) : List Path :=
  match site.call.type with
  | .NAMESPACE_EVAL => [evalPath site.scope site.call]
  | .PROC => [procPath site.scope site.call]
  | _ => []

/-- The namespaces that a call is about in `IndexScript`, where the procs are in the index. -/
def Site.indexTargets (index : Index) (site : Site Path) : List Path :=
  match site.call.type with
  | .NAMESPACE_EVAL => [evalPath site.scope site.call]
  | .PROC => [procPath site.scope site.call]
  | .USER => index.lookedUp site.scope (site.call.wordText 0)
  | _ => []

/-- All namespaces that `Build` is about on a script. -/
def Script.namespaceTargets (script : Script) (index : Index) : List Path :=
  script.scanSites.flatMap Site.scanTargets ++ script.indexSites.flatMap (Site.indexTargets index)

end TclAnalyzer
