import TclAnalyzer.Analyzer.Proofs.CallNsProofs
import TclAnalyzer.Analyzer.RunTimeNames

/-!
# What comes of names put together at run time

`ScanScript` registers every `proc` it reaches, and both passes push for every `namespace eval` a
namespace further down. Only a `proc` that `IndexScript` alone reaches can stay where it is, when
the text of its name has no namespace or the one around it.
-/

namespace TclAnalyzer

variable {call : Call} {path : Path}

/-! ## Where the text leads -/

theorem enter_namePath (h : call.namedAtRunTime = true) :
    indexPass.enter path call 3 = some (call.namePath path) := by
  unfold Call.namedAtRunTime at h
  cases htype : call.type <;> rw [htype] at h <;> simp_all [indexPass, Call.namePath]

/-- `namespace eval` leads away from every namespace. -/
theorem namePath_ne_self (htype : call.type = .NAMESPACE_EVAL) : call.namePath path ≠ path := by
  intro h
  rw [Call.namePath, if_pos htype, evalPath] at h
  exact splitPathFrom_ne_nil _ _ (List.append_right_eq_self.mp h)

theorem type_of_namedAtRunTime (h : call.namedAtRunTime = true) :
    call.type = .PROC ∨ call.type = .NAMESPACE_EVAL := by
  unfold Call.namedAtRunTime at h
  cases htype : call.type <;> rw [htype] at h <;> simp_all

/-- The text leads nowhere else exactly when it is the name of a proc that stays. -/
theorem namePath_eq_self (h : call.namedAtRunTime = true) (hparts : call.type = .PROC →
      ∃ parts, (splitName (call.wordText 1)).namespaceParts = .ok parts) :
    call.namePath path = path ↔ call.type = .PROC ∧ call.namesProcIn path := by
  rcases type_of_namedAtRunTime h with htype | htype
  · obtain ⟨parts, hp⟩ := hparts htype
    rw [Call.namePath, if_neg (by simp [htype]), procPath_eq_self hp]
    simp [htype]
  · simp [htype, namePath_ne_self htype]

/-- `ParseCommand` keeps to the namespace around a command named at run time. -/
theorem bodyNs_namedAtRunTime (h : call.namedAtRunTime = true) (ns : Str) :
    bodyNs ns call 3 = ns := by
  rcases type_of_namedAtRunTime h with htype | htype
  · simp only [Call.namedAtRunTime, htype] at h
    rw [procNs_eq call htype, if_neg (by simpa using h)]
  · simp only [Call.namedAtRunTime, htype] at h
    rw [namespaceEvalNs_eq call htype, if_neg (by simpa using h)]

/-! ## Calls in a body -/

section Body

variable {σ : Type} {p : Pass σ} {scope : σ} {pos : Pos} {node : Node} {outer inner : Site σ}

/-- The outermost calls in a word are reached in the scope in which the pass enters that word. -/
theorem Reaches.enter_of_outermost (hp : p.Steady) (houter : Reaches p scope pos node outer)
    (hinner : Reaches p scope pos node inner) {k : Nat} (hpos : outer.pos ++ [k] <+: inner.pos)
    (hfirst : ∀ site, Reaches p scope pos node site → outer.pos ++ [k] <+: site.pos →
      site.pos <+: inner.pos → site.pos = inner.pos) :
    p.enter outer.scope outer.call k = some inner.scope := by
  have honward := houter.onward hinner ((List.prefix_append _ _).trans hpos)
  cases honward with
  | here => exact (not_prefix_self hpos).elim
  | word hword henter hr =>
    obtain rfl := prefix_concat_inj hpos hr.prefix
    obtain ⟨first, hreach, hscope, hbefore⟩ := hr.exists_outermost hp
    have hsite := houter.trans (.word hword henter hreach)
    obtain rfl := hsite.unique hinner (hfirst first hsite hreach.prefix hbefore)
    rw [henter, hscope]

end Body

variable {script : Script} {result : BuildResult}

/-! ## The index -/

theorem Built.namespaces_iff (h : Built script result) {v : Visit} {site : Site Path}
    (hat : VisitAt result.index v site)
    (hexists : ∃ ns, result.index.atPath (site.call.namePath site.scope) = some ns) :
    (∀ path ns, result.index.atPath path = some v.ns →
      result.index.atPath (v.call.namePath path) = some ns → ns = v.ns) ↔
    site.call.namePath site.scope = site.scope := by
  have hwf := h.wf.namespaces
  rw [hat.call]
  constructor
  · intro hall
    obtain ⟨ns, hns⟩ := hexists
    have hsame := hall _ ns hat.ns hns
    exact Index.atPath_injective hwf hns (hsame ▸ hat.ns)
  · intro hself path ns hpath hns
    obtain rfl := Index.atPath_injective hwf hpath hat.ns
    rw [hself, hat.ns] at hns
    exact (Option.some.inj hns).symm

/-- The calls that `ScanScript` reached, without what was found out there. -/
theorem Built.scanned_calls (h : Built script result) :
    result.scanned.map Visit.call = script.scanSites.map Site.call := by
  refine List.forall₂_eq_eq_eq ▸ List.forall₂_map_left_iff.mpr ?_
  exact List.forall₂_map_right_iff.mpr (h.scanned.imp fun _ _ hat => hat.call)

/-- The procs of the index have the names of the `proc` commands that `ScanScript` reached. -/
theorem Built.proc_names (h : Built script result) :
    result.index.procs.table.map Proc.name =
      (procSites script.scanSites).map fun site => (splitName (site.call.wordText 1)).name := by
  obtain ⟨regs, hregs, ht, -⟩ := h.procs
  rw [ht, List.map_map]
  refine List.forall₂_eq_eq_eq ▸ List.forall₂_map_left_iff.mpr ?_
  exact List.forall₂_map_right_iff.mpr (hregs.imp fun _ _ hr => hr.name)

/-- They are those of the commands with a literal name exactly when all these commands have one. -/
theorem Built.proc_names_iff (h : Built script result) :
    (result.index.procs.table.map Proc.name =
      (result.scanned.filter fun v => v.call.type = .PROC ∧ v.call.isText 1).map fun v =>
        (splitName (v.call.wordText 1)).name) ↔
    ∀ site ∈ procSites script.scanSites, site.call.isText 1 = true := by
  let literal (call : Call) : Bool := call.type = .PROC ∧ call.isText 1
  let name (call : Call) : Str := (splitName (call.wordText 1)).name
  have hcalls : (result.scanned.filter fun v => literal v.call).map (fun v => name v.call) =
      ((procSites script.scanSites).filter fun site => site.call.isText 1).map fun site =>
        name site.call := by
    calc (result.scanned.filter fun v => literal v.call).map (fun v => name v.call)
        = ((result.scanned.map Visit.call).filter literal).map name := by
          rw [List.filter_map, List.map_map]
          rfl
      _ = (script.scanSites.filter fun site => literal site.call).map fun site => name site.call := by
          rw [h.scanned_calls, List.filter_map, List.map_map]
          rfl
      _ = _ := by
          rw [procSites, List.filter_filter]
          congr 2
          funext site
          simp [literal, Bool.and_comm]
  rw [h.proc_names]
  constructor
  · intro heq
    have hlength := congrArg List.length (heq.trans hcalls)
    rw [List.length_map, List.length_map] at hlength
    exact List.length_filter_eq_length_iff.mp hlength.symm
  · intro hall
    refine Eq.trans ?_ hcalls.symm
    rw [List.filter_eq_self.mpr hall]

/-! ## Bodies -/

/-- A `proc` named at run time that stays where it is keeps its body there. -/
theorem Built.body_stays (h : Built script result) {curNs : Str}
    (htag : Tagged curNs (.script script)) {v : Visit} {site : Site Path}
    (hsite : site ∈ script.indexSites) (hat : VisitAt result.index v site)
    (hname : site.call.namedAtRunTime = true)
    (hself : site.call.namePath site.scope = site.scope) :
    ∀ inner ∈ result.indexed, Visit.InBody result.indexed v inner →
      inner.call.ns = v.call.ns ∧ inner.ns = v.ns := by
  intro inner hinner ⟨hpos, hfirst⟩
  obtain ⟨site', hsite', hat'⟩ := mem_of_forall₂_left h.indexed hinner
  obtain ⟨ns, houter⟩ := Reaches.lift parserPass_total (mem_sitesScript.mp hsite) curNs
  obtain ⟨ns', hreach⟩ := Reaches.lift parserPass_total (mem_sitesScript.mp hsite') curNs
  have henter := Reaches.enter_of_outermost (parserPass_steady.prod indexPass_steady) houter hreach
    (k := 3) (by rwa [← hat.pos, ← hat'.pos]) fun t ht hbelow habove => by
      obtain ⟨u, hu, hatu⟩ :=
        mem_of_forall₂_right h.indexed (mem_sitesScript.mpr (Reaches.proj ht).2)
      have hsame := hfirst u hu (by rwa [hat.pos, hatu.pos]) (by rwa [hat'.pos, hatu.pos])
      rwa [hatu.pos, hat'.pos] at hsame
  have hprod : (parserPass.prod indexPass).enter (ns, site.scope) site.call 3 =
      some (ns, site.scope) := by
    simp [Pass.prod, parserPass, bodyNs_namedAtRunTime hname, enter_namePath hname, hself]
  obtain ⟨hns, hscope⟩ := Prod.mk.inj (Option.some.inj (hprod.symm.trans henter))
  have htop := hat'.ns
  rw [← hscope, hat.ns] at htop
  have htagged : site.call.ns = ns := htag _ _ (Reaches.proj houter).1
  have htagged' : site'.call.ns = ns' := htag _ _ (Reaches.proj hreach).1
  refine ⟨?_, (Option.some.inj htop).symm⟩
  rw [hat.call, hat'.call, htagged, htagged', hns]

/-! ## All names -/

/-- Names put together at run time create nothing, and the bodies stay where they are, exactly when
`ScanScript` reaches no command with such a name and `IndexScript` only procs whose text has no
namespace in it or the one around it. -/
theorem literalOnly_iff {interp : TclInterp} {context : ParseContext} {view : StringView}
    (hparse : parseScript interp context view = .ok script)
    (hbuild : buildNew script = .ok result) :
    result.LiteralOnly ↔
      (∀ site ∈ script.scanSites, ¬site.call.namedAtRunTime) ∧
      ∀ site ∈ script.indexSites, site.call.namedAtRunTime →
        site.call.type = .PROC ∧ site.call.namesProcIn site.scope := by
  have hb := buildNew_ok hbuild
  have hparts : ∀ site ∈ script.indexSites, site.call.type = .PROC →
      ∃ parts, (splitName (site.call.wordText 1)).namespaceParts = .ok parts := by
    intro site hsite
    obtain ⟨v, -, hat⟩ := mem_of_forall₂_right hb.indexed hsite
    exact hat.procParts
  constructor
  · rintro ⟨hprocs, hscanned, hindexed⟩
    constructor
    · intro site hsite hname
      rcases type_of_namedAtRunTime hname with htype | htype
      · have hproc : site ∈ procSites script.scanSites :=
          List.mem_filter.mpr ⟨hsite, by simpa using htype⟩
        have hliteral := hb.proc_names_iff.mp hprocs site hproc
        simp [Call.namedAtRunTime, htype, hliteral] at hname
      · obtain ⟨v, hv, hat⟩ := mem_of_forall₂_right hb.scanned hsite
        have hkeeps := (hscanned v hv (hat.call ▸ hname)).namespaces
        have hexists : ∃ ns, result.index.atPath (site.call.namePath site.scope) = some ns := by
          refine hb.scans site hsite 3 _ ?_
          simp [scanPass, htype, Call.namePath]
        exact namePath_ne_self htype ((hb.namespaces_iff hat hexists).mp hkeeps)
    · intro site hsite hname
      obtain ⟨v, hv, hat⟩ := mem_of_forall₂_right hb.indexed hsite
      have hkeeps := (hindexed v hv (hat.call ▸ hname)).namespaces
      have hexists := hat.enters 3 _ (enter_namePath hname)
      exact (namePath_eq_self hname (hparts site hsite)).mp
        ((hb.namespaces_iff hat.toVisitAt hexists).mp hkeeps)
  · rintro ⟨hscan, hindex⟩
    refine ⟨hb.proc_names_iff.mpr ?_, ?_, ?_⟩
    · intro site hsite
      obtain ⟨hsite, htype⟩ := List.mem_filter.mp hsite
      by_contra hliteral
      refine hscan site hsite ?_
      simpa [Call.namedAtRunTime, of_decide_eq_true htype] using hliteral
    · intro v hv hname
      obtain ⟨site, hsite, hat⟩ := mem_of_forall₂_left hb.scanned hv
      exact absurd (hat.call ▸ hname) (hscan site hsite)
    · intro v hv hname
      obtain ⟨site, hsite, hat⟩ := mem_of_forall₂_left hb.indexed hv
      rw [hat.call] at hname
      have hself := (namePath_eq_self hname (hparts site hsite)).mpr (hindex site hsite hname)
      exact ⟨hb.body_stays (parseScript_tagged hparse) hsite hat.toVisitAt hname hself,
        (hb.namespaces_iff hat.toVisitAt (hat.enters 3 _ (enter_namePath hname))).mpr hself⟩

/-! ## A namespace in a variable -/

/-- The file `namespace eval $ns {f}`. -/
def variableEval : SourceFile := makeSourceFile [] (bytes "namespace eval $ns {f}")

/-- The Tcl library on the two commands of that file. -/
def variableEvalInterp : TclInterp where
  parseCommand view :=
    if view = variableEval.view 0 22 then
      some { commandStart := 0, commandSize := 22, commentSize := 0, numWords := 4, tokens :=
        [⟨.SIMPLE_WORD, 0, 9, 1⟩, ⟨.TEXT, 0, 9, 0⟩, ⟨.SIMPLE_WORD, 10, 4, 1⟩, ⟨.TEXT, 10, 4, 0⟩,
          ⟨.WORD, 15, 3, 2⟩, ⟨.VARIABLE, 15, 3, 1⟩, ⟨.TEXT, 16, 2, 0⟩,
          ⟨.SIMPLE_WORD, 19, 3, 1⟩, ⟨.TEXT, 20, 1, 0⟩] }
    else if view = variableEval.view 20 1 then
      some { commandStart := 20, commandSize := 1, commentSize := 0, numWords := 1, tokens :=
        [⟨.SIMPLE_WORD, 20, 1, 1⟩, ⟨.TEXT, 20, 1, 0⟩] }
    else none
  findElement _ := none

/-- The run of the parser and of `Build` on that file: the body is in another namespace than the
command. -/
theorem variableEval_run : ∃ script result,
    parseScript variableEvalInterp { file := variableEval, curNs := [] } (variableEval.view 0 22) =
      .ok script ∧ buildNew script = .ok result ∧
    (result.indexed.any fun v => result.indexed.any fun inner => v.call.namedAtRunTime ∧
      Visit.InBody result.indexed v inner ∧ inner.ns ≠ v.ns) = true :=
  exists_built (fun r => r.2.indexed.any fun v => r.2.indexed.any fun inner =>
    v.call.namedAtRunTime ∧ Visit.InBody r.2.indexed v inner ∧ inner.ns ≠ v.ns) (by decide +kernel)

/-- `f` is in a namespace named `$ns`. -/
theorem variableEval_not_literalOnly : ∃ script result,
    parseScript variableEvalInterp { file := variableEval, curNs := [] } (variableEval.view 0 22) =
      .ok script ∧ buildNew script = .ok result ∧ ¬result.LiteralOnly := by
  obtain ⟨script, result, hparse, hbuild, htest⟩ := variableEval_run
  obtain ⟨v, hv, htest⟩ := List.any_eq_true.mp htest
  obtain ⟨inner, hinner, htest⟩ := List.any_eq_true.mp htest
  obtain ⟨hname, hbody, hne⟩ := of_decide_eq_true htest
  refine ⟨script, result, hparse, hbuild, fun hliteral => hne ?_⟩
  exact ((hliteral.indexed v hv hname).body inner hinner hbody).2

/-- With a literal name it is. -/
theorem variableEval_literalOnly_iff :
    (∃ script result,
      parseScript variableEvalInterp { file := variableEval, curNs := [] } (variableEval.view 0 22) =
        .ok script ∧ buildNew script = .ok result ∧
      (result.LiteralOnly ↔
        (∀ site ∈ script.scanSites, ¬site.call.namedAtRunTime) ∧
        ∀ site ∈ script.indexSites, site.call.namedAtRunTime →
          site.call.type = .PROC ∧ site.call.namesProcIn site.scope)) ∧
    ∃ script result,
      parseScript (evalInterp "A") { file := evalFile "A", curNs := [] } ((evalFile "A").view 0 20) =
        .ok script ∧ buildNew script = .ok result ∧ result.LiteralOnly := by
  constructor
  · obtain ⟨script, result, hparse, hbuild, -⟩ := variableEval_run
    exact ⟨script, result, hparse, hbuild, literalOnly_iff hparse hbuild⟩
  · obtain ⟨script, result, hparse, hbuild, htest⟩ := exists_built _
      (show returns (parseAndBuild (evalInterp "A") { file := evalFile "A", curNs := [] }
        ((evalFile "A").view 0 20)) (fun r => (∀ site ∈ r.1.scanSites, ¬site.call.namedAtRunTime) ∧
          ∀ site ∈ r.1.indexSites, site.call.namedAtRunTime →
            site.call.type = .PROC ∧ site.call.namesProcIn site.scope) = true by
        decide +kernel)
    exact ⟨script, result, hparse, hbuild,
      (literalOnly_iff hparse hbuild).mpr (of_decide_eq_true htest)⟩

end TclAnalyzer
