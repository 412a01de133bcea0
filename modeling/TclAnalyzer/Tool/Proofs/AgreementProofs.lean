import TclAnalyzer.Lsp.Proofs.RepliesProofs
import TclAnalyzer.Tool.Proofs.CommandLineProofs

/-!
# The server and the tool agree

Both programs make their index of a text in the same way. So what the server replies about a proc is
what the tool prints of it, when it is run on the same text under the same name.
-/

namespace TclAnalyzer

variable {interp : TclInterp} {env : Environment} {events : List ServerEvent} {s : Server}
  {index : Index} {report : Report} {uri text : Str} {script : Script} {result : BuildResult} {p : Proc}

/-! ## A proc in the report -/

/-- The text on a proc is one piece of the report. -/
theorem Report.Lists.procText (h : report.Lists index) (hp : p ∈ index.procs.table) :
    ∃ path before after, report.text index = before ++ procText index path p ++ after := by
  obtain ⟨⟨path, q⟩, he, rfl⟩ := List.mem_map.mp (h.procs.mem_iff.mpr hp)
  obtain ⟨earlier, later, hsplit⟩ := List.append_of_mem he
  refine ⟨path, (report.namespaces.flatMap fun e => namespaceLine (pathString e.1)) ++
    earlier.flatMap fun e => TclAnalyzer.procText index e.1 e.2,
    later.flatMap fun e => TclAnalyzer.procText index e.1 e.2, ?_⟩
  rw [Report.text, hsplit, List.flatMap_append, List.flatMap_cons]
  simp only [List.append_assoc]

/-! ## The tool on a text of the server -/

/-- The tool on the file from which `Build` has made an index. -/
theorem analyze_built (hparse : ParsedFrom interp uri text script) (hbuild : buildNew script = .ok result) :
    ∃ report : Report, report.Lists result.index ∧ analyze interp (makeSourceFile uri text) =
      .ok { status := 0, out := report.text result.index, err := [] } := by
  obtain ⟨report, hlists, hprint⟩ :=
    printIndex_lists (buildNew_ok hbuild).wf (buildNew_rootUnnamed hbuild)
  have hparsed : parseScript interp { file := makeSourceFile uri text, curNs := [] }
      { data := 0, bytes := (makeSourceFile uri text).contents } = .ok script := hparse
  refine ⟨report, hlists, ?_⟩
  rw [analyze]
  simp only [hparsed, hbuild, hprint, ok_bind, pure_eq_ok]

theorem analyzerMain_file (hname : uri ≠ bytes "-") (hfile : env.file uri = some text) :
    analyzerMain interp env [bytes "--file", uri] = analyze interp (makeSourceFile uri text) := by
  have hload : Source.load env env.stdin (.file uri) = some (makeSourceFile uri text, env.stdin) := by
    rw [Source.load, if_neg hname, hfile]
    rfl
  have hloads : Loads env env.stdin .none ([] ++ [.file uri]) env.stdin (makeSourceFile uri text) :=
    .cons hload .nil
  exact (CommandLine.analyze hloads).main

/-- In every run without a data race, the locations of a reply are those that the tool prints under one
proc, of the name that the command word under the cursor has, when it reads one of the texts that the
server accepted as a file of that name: all of them in the same order, or the first one where the
definition was asked for. They agree in lines and columns. -/
theorem reply_printed (h : Run (RaceFree interp) .initial events s) {request : Request}
    {tree : Tree} {locations : List Location}
    (hreply : .reply request tree (.reply locations) ∈ events) (hne : locations ≠ []) :
    ∃ uri text, (uri, text) ∈ s.accepted ∧
      ∃ (cursor : ScriptCursor) (command : Word) (path : Path) (name : Str)
        (references : List Reference),
      findPositionInScript { line := request.position.line, column := request.position.character }
        tree.script = .ok cursor ∧
      cursor.word = some command ∧
      (tree.HasContents → name = (splitName command.text.bytes).name) ∧
      locations.map Location.range =
        (references.filter fun r => request.method = .references ∨ r.type = .DEFINITION).map
          (fun r => r.toLocation.range) ∧
      ∀ env : Environment, uri ≠ bytes "-" → env.file uri = some text → ∃ before after,
        analyzerMain interp env [bytes "--file", uri] = .ok
          { status := 0
            out := before ++ procLine (pathString (path ++ [name])) ++
              references.flatMap (referenceLine (pathString (path ++ [name]))) ++ after
            err := [] } := by
  obtain ⟨cursor, command, uri, text, script, result, p, hfound, hword, -, hmem, hparse, hbuild, hp,
    hname, hlocations⟩ := reply_built h hreply hne
  obtain ⟨report, hlists, hanalyze⟩ := analyze_built hparse hbuild
  obtain ⟨path, before, after, htext⟩ := hlists.procText hp
  refine ⟨uri, text, hmem, cursor, command, path, p.name, _, hfound, hword, hname, hlocations, ?_⟩
  intro env huri hfile
  refine ⟨before, after, ?_⟩
  have hrefs := (buildNew_ok hbuild).wf.procs.refsOf_eq p.id
  rw [analyzerMain_file huri hfile, hanalyze, htext, TclAnalyzer.procText, hrefs]
  simp only [List.append_assoc]

/-- The document of the call of `f`, and the same text as a file. -/
theorem callF_printed : ∃ (s : Server) (locations : List Location) (uri text : Str),
    locations ≠ [] ∧ (uri, text) ∈ s.accepted ∧ ∃ references : List Reference,
      locations.map Location.range = references.map (fun r => r.toLocation.range) ∧
      ∀ env : Environment, uri ≠ bytes "-" → env.file uri = some text → ∃ name before after,
        analyzerMain callFInterp env [bytes "--file", uri] = .ok
          { status := 0
            out := before ++ procLine name ++ references.flatMap (referenceLine name) ++ after
            err := [] } := by
  obtain ⟨events, more, s, t, tree, cursor, index, hrun, hmore, -, -, -, -, -, -, locations, hne,
    hreply⟩ := callF_answered
  obtain ⟨uri, text, hmem, cursor, command, path, name, references, -, -, -, hranges, hprinted⟩ :=
    reply_printed (hrun.append hmore) (List.mem_append_right _ hreply) hne
  have hall : references.filter (fun r => referencesOfF.method = .references ∨
      r.type = .DEFINITION) = references := List.filter_eq_self.mpr fun r _ => rfl
  rw [hall] at hranges
  refine ⟨t, locations, uri, text, hne, hmem, references, hranges, fun env huri hfile => ?_⟩
  obtain ⟨before, after, hout⟩ := hprinted env huri hfile
  exact ⟨_, before, after, hout⟩

end TclAnalyzer
