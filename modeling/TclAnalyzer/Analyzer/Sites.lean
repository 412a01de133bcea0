import Mathlib.Data.Option.NAry
import TclAnalyzer.Analyzer.Index

/-!
# The calls a pass reaches

What the passes over a script do, without an index: which calls they reach, and in which scope. A
scope is whatever a pass tracks from the outside in; for the passes of the indexer it is the path of
the namespace on top of `nsPath`, for the parser it is the string `cur_ns`.
-/

namespace TclAnalyzer

/-- The text of a word of a call. -/
def Call.wordText (call : Call) (k : Nat) : Str := (call.words[k]?.map fun w => w.text.bytes).getD []

/-- Which words of a call a pass goes into and which types of words it descends into, each with the
scope there. -/
structure Pass (σ : Type) where
  enter : σ → Call → Nat → Option σ
  descend : σ → WordType → Option σ

/-- A call in its place, with the scope in which it is reached. -/
structure Site (σ : Type) where
  pos : Pos
  call : Call
  scope : σ

section Sites

variable {σ : Type} (p : Pass σ)

mutual

def sitesScript (scope : σ) (pos : Pos) : Script → List (Site σ)
  | ⟨_, commands⟩ => sitesCalls scope pos 0 commands

def sitesCalls (scope : σ) (pos : Pos) (i : Nat) : List Call → List (Site σ)
  | [] => []
  | call :: commands => sitesCall scope (pos ++ [i]) call ++ sitesCalls scope pos (i + 1) commands

def sitesCall (scope : σ) (pos : Pos) : Call → List (Site σ)
  | ⟨type, words, ns⟩ =>
    { pos, call := ⟨type, words, ns⟩, scope } ::
      sitesWords (p.enter scope ⟨type, words, ns⟩) pos 0 words

/-- The sites in those of the words, which start with index `k`, that are entered. -/
def sitesWords (enter : Nat → Option σ) (pos : Pos) (k : Nat) : List Word → List (Site σ)
  | [] => []
  | word :: words =>
    ((enter k).elim [] fun scope => sitesWord scope (pos ++ [k]) word) ++
      sitesWords enter pos (k + 1) words

def sitesWord (scope : σ) (pos : Pos) : Word → List (Site σ)
  | ⟨type, _, _, data⟩ => (p.descend scope type).elim [] fun scope => sitesData scope pos data

def sitesData (scope : σ) (pos : Pos) : WordData → List (Site σ)
  | .nothing => []
  | .arrayAccess _ index => sitesWords (fun _ => some scope) pos 0 index
  | .script script => sitesScript scope pos script
  | .words words => sitesWords (fun _ => some scope) pos 0 words

end

end Sites

/-- The sites in a word of the call at a site. -/
def Site.inWord {σ : Type} (p : Pass σ) (site : Site σ) (k : Nat) : List (Site σ) :=
  match site.call.words[k]?, p.enter site.scope site.call k with
  | some word, some scope => sitesWord p scope (site.pos ++ [k]) word
  | _, _ => []

/-! ## Combining passes -/

/-- The calls that both passes reach, with both scopes. -/
def Pass.prod {σ τ : Type} (p : Pass σ) (q : Pass τ) : Pass (σ × τ) where
  enter scope call k := Option.map₂ Prod.mk (p.enter scope.1 call k) (q.enter scope.2 call k)
  descend scope type := Option.map₂ Prod.mk (p.descend scope.1 type) (q.descend scope.2 type)

/-- The scope in a part that the pass may leave out. The flag is lost in what it leaves out, and the
scope stays the one around that. -/
def stay {σ : Type} (scope : σ × Bool) (inner : σ → Option σ) : σ × Bool :=
  if scope.2 then (inner scope.1).elim (scope.1, false) (·, true) else scope

/-- All calls, also in the words that the pass leaves out. The flag says whether the pass reaches the
call; the scope of a call it does not reach is that of the innermost part around it that it does
reach. -/
def Pass.everywhere {σ : Type} (p : Pass σ) : Pass (σ × Bool) where
  enter scope call k := some (stay scope fun s => p.enter s call k)
  descend scope type := some (stay scope fun s => p.descend s type)

/-! ## The parser -/

/-- The namespace string that `ParseCommand` sets for a word of a command: another one for the bodies
of `proc` and `namespace eval`. -/
def bodyNs (curNs : Str) (call : Call) (k : Nat) : Str :=
  match call.type, k with
  | .PROC, 3 => call.words[1]?.elim curNs (procNs curNs)
  | .NAMESPACE_EVAL, 3 => call.words[2]?.elim curNs (namespaceEvalNs curNs)
  | _, _ => curNs

/-- `ParseCommand`, which makes all words of a call. -/
def parserPass : Pass Str where
  enter curNs call k := some (bodyNs curNs call k)
  descend curNs _ := some curNs

/-! ## The passes of the indexer -/

/-- A namespace as the names on the way down from the global one. -/
abbrev Path := List Str

/-- The path of the namespace that a name resolves to, seen from the namespace at `path`. -/
def QualifiedName.resolveFrom (qn : QualifiedName) (path : Path) : Path :=
  match qn.namespaceParts with
  | .ok parts => if qn.absolute then parts else path ++ parts
  | .error _ => path

/-- The namespace that both passes push for the body of `namespace eval`. -/
def evalPath (path : Path) (call : Call) : Path := path ++ splitPath (call.wordText 2)

/-- The namespace that `IndexScript` pushes for the body of `proc`, and in which `ScanScript`
registers the proc. -/
def procPath (path : Path) (call : Call) : Path := (splitName (call.wordText 1)).resolveFrom path

/-- `ScanScript`: of the words of `namespace eval` only the body. -/
def scanPass : Pass Path where
  enter path call k :=
    match call.type with
    | .NAMESPACE_EVAL => if k = 3 then some (evalPath path call) else none
    | _ => some path
  descend path
    | .EXPAND | .TOKEN_LIST | .SCRIPT => some path
    | _ => none

/-- `IndexScript`: of the words of `namespace eval` and `proc` only the bodies. -/
def indexPass : Pass Path where
  enter path call k :=
    match call.type with
    | .NAMESPACE_EVAL => if k = 3 then some (evalPath path call) else none
    | .PROC => if k = 3 then some (procPath path call) else none
    | _ => some path
  descend path
    | .EXPAND | .TOKEN_LIST | .SCRIPT | .ARRAY_ACCESS => some path
    | _ => none

/-- The sites of `proc` commands. -/
def procSites {σ : Type} (sites : List (Site σ)) : List (Site σ) :=
  sites.filter fun site => site.call.type = .PROC

/-- The calls that `ScanScript` reaches from the global namespace. -/
def Script.scanSites (script : Script) : List (Site Path) := sitesScript scanPass [] [] script

/-- The calls that `IndexScript` reaches from the global namespace. -/
def Script.indexSites (script : Script) : List (Site Path) := sitesScript indexPass [] [] script

/-- The calls that both passes reach from the global namespace, with the paths in `ScanScript` and in
`IndexScript`. -/
def Script.bothSites (script : Script) : List (Site (Path × Path)) :=
  sitesScript (scanPass.prod indexPass) ([], []) [] script

/-- The name of a proc that puts it into the namespace at `path` when the command is there already:
an unqualified name, or an absolute name in that namespace. -/
def Call.namesProcIn (call : Call) (path : Path) : Prop :=
  let qn := splitName (call.wordText 1)
  if qn.absolute then qn.namespaceParts = .ok path else qn.ns = none

instance (call : Call) (path : Path) : Decidable (call.namesProcIn path) := by
  unfold Call.namesProcIn
  infer_instance

/-- The procs that a script defines, each with the path of its namespace and its name. -/
def Script.definitions (script : Script) : List (Path × Str) :=
  (procSites script.scanSites).map fun site =>
    (procPath site.scope site.call, (splitName (site.call.wordText 1)).name)

end TclAnalyzer
