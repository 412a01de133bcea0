import TclAnalyzer.Analyzer.Samples
import TclAnalyzer.Analyzer.Proofs.FaultFreeProofs
import TclAnalyzer.Tool.CommandLine
import TclAnalyzer.Tool.Proofs.ReportProofs

/-!
# The command line tool does what its command line says

The loop over the arguments reads the scripts one after the other and stops at the first argument that
is none of them.
-/

namespace TclAnalyzer

variable {interp : TclInterp} {env : Environment} {stdin left : Str} {mainFile file : SourceFile}
  {args rest : List Str} {sources : List Source}

theorem runTests_ok : runTests = .ok () := by decide

/-! ## The loop over the arguments -/

theorem parseArguments_test :
    parseArguments env stdin mainFile (bytes "--test" :: rest) =
      .ok (.inl { status := 0, out := [], err := [] }) := by
  rw [parseArguments.eq_def]
  dsimp only
  rw [if_pos rfl, runTests_ok]
  rfl

theorem parseArguments_stdin :
    parseArguments env stdin mainFile (bytes "--file" :: bytes "-" :: rest) =
      parseArguments env [] (makeSourceFile (bytes "stdin") stdin) rest := by
  rw [parseArguments, if_neg (by decide), if_pos rfl]
  exact if_pos rfl

theorem parseArguments_file {path : Str} (hpath : path ≠ bytes "-") :
    parseArguments env stdin mainFile (bytes "--file" :: path :: rest) =
      match env.file path with
      | none => .ok (.inl (.fails (bytes "Unable to read file: " ++ path ++ [newline])))
      | some contents => parseArguments env stdin (makeSourceFile path contents) rest := by
  rw [parseArguments, if_neg (by decide), if_pos rfl]
  exact if_neg hpath

theorem parseArguments_string {text : Str} :
    parseArguments env stdin mainFile (bytes "--string" :: text :: rest) =
      parseArguments env stdin (makeSourceFile (bytes "cmdline") text) rest := by
  rw [parseArguments, if_neg (by decide), if_neg (by decide), if_pos rfl]

theorem parseArguments_unrecognised {arg : Str}
    (harg : arg ∉ ["--test", "--file", "--string"].map bytes) :
    parseArguments env stdin mainFile (arg :: rest) =
      .ok (.inl (.fails (bytes "Unrecognised argument: " ++ arg ++ [newline]))) := by
  simp only [List.map_cons, List.map_nil, List.mem_cons, List.not_mem_nil, or_false, not_or] at harg
  rw [parseArguments.eq_def]
  dsimp only
  rw [if_neg harg.1, if_neg harg.2.1, if_neg harg.2.2]
  rfl

theorem parseArguments_missing {option : Str} (hoption : option ∈ ["--file", "--string"].map bytes) :
    parseArguments env stdin mainFile [option] = .error .undefined := by
  simp only [List.map_cons, List.map_nil, List.mem_cons, List.not_mem_nil, or_false] at hoption
  rcases hoption with rfl | rfl
  · rw [parseArguments, if_neg (by decide), if_pos rfl]
    rfl
  · rw [parseArguments, if_neg (by decide), if_neg (by decide), if_pos rfl]
    rfl

/-- A script that can be read takes its arguments off the command line. -/
theorem parseArguments_source {source : Source} (h : source.load env stdin = some (file, left)) :
    parseArguments env stdin mainFile (source.arguments ++ rest) =
      parseArguments env left file rest := by
  cases source with
  | stdin =>
    cases h
    exact parseArguments_stdin
  | file path =>
    rw [Source.load] at h
    split at h
    · cases h
    · next hpath =>
      obtain ⟨contents, hcontents, h⟩ := Option.map_eq_some_iff.mp h
      cases h
      show parseArguments env stdin mainFile (bytes "--file" :: path :: rest) = _
      rw [parseArguments_file hpath, hcontents]
  | string text =>
    cases h
    exact parseArguments_string

theorem parseArguments_sources (h : Loads env stdin mainFile sources left file) :
    parseArguments env stdin mainFile (sources.flatMap Source.arguments ++ rest) =
      parseArguments env left file rest := by
  induction h with
  | nil => rfl
  | cons hload _ ih => rw [List.flatMap_cons, List.append_assoc, parseArguments_source hload, ih]

/-! ## Taking a command line apart -/

/-- What can end the loop. -/
inductive Ending (env : Environment) : List Str → Prop
  | done : Ending env []
  | test (rest : List Str) : Ending env (bytes "--test" :: rest)
  | unreadable {path : Str} (rest : List Str) : path ≠ bytes "-" → env.file path = none →
    Ending env (bytes "--file" :: path :: rest)
  | unrecognised {arg : Str} (rest : List Str) :
    arg ∉ ["--test", "--file", "--string"].map bytes → Ending env (arg :: rest)
  | missing {option : Str} : option ∈ ["--file", "--string"].map bytes → Ending env [option]

/-- The first arguments are scripts that can be read, or the loop ends with them. -/
theorem source_or_ending (env : Environment) (stdin : Str) (args : List Str) :
    Ending env args ∨ ∃ source file left rest, args = Source.arguments source ++ rest ∧
      source.load env stdin = some (file, left) := by
  cases args with
  | nil => exact .inl .done
  | cons arg args =>
    by_cases htest : arg = bytes "--test"
    · exact .inl (htest ▸ .test args)
    by_cases hfile : arg = bytes "--file"
    · subst hfile
      cases args with
      | nil => exact .inl (.missing (by simp))
      | cons path rest =>
        by_cases hstdin : path = bytes "-"
        · exact .inr ⟨.stdin, _, _, rest, by rw [hstdin]; rfl, rfl⟩
        · cases hcontents : env.file path with
          | none => exact .inl (.unreadable rest hstdin hcontents)
          | some contents =>
            exact .inr ⟨.file path, _, _, rest, rfl, by rw [Source.load, if_neg hstdin, hcontents]; rfl⟩
    by_cases hstring : arg = bytes "--string"
    · subst hstring
      cases args with
      | nil => exact .inl (.missing (by simp))
      | cons text rest => exact .inr ⟨.string text, _, _, rest, rfl, rfl⟩
    · exact .inl (.unrecognised args (by simp [htest, hfile, hstring]))

theorem exists_loads (env : Environment) (stdin : Str) (mainFile : SourceFile) (args : List Str) :
    ∃ sources left file rest, args = sources.flatMap Source.arguments ++ rest ∧
      Loads env stdin mainFile sources left file ∧ Ending env rest := by
  induction hn : args.length using Nat.strong_induction_on generalizing args stdin mainFile with
  | _ n ih =>
    rcases source_or_ending env stdin args with hending | ⟨source, file, left, rest, rfl, hload⟩
    · exact ⟨[], stdin, mainFile, args, rfl, .nil, hending⟩
    · have hshorter : rest.length < n := by
        subst hn
        cases source <;> simp only [Source.arguments, List.length_append, List.length_cons] <;> omega
      obtain ⟨sources, left', last, rest', rfl, hloads, hending⟩ :=
        ih rest.length hshorter left file rest rfl
      exact ⟨source :: sources, left', last, rest', by simp, .cons hload hloads, hending⟩

/-! ## `main` -/

/-- A script that was loaded has a name. -/
theorem Source.load_named {source : Source} (h : source.load env stdin = some (file, left)) :
    file.fileName ≠ [] := by
  cases source with
  | stdin =>
    cases h
    exact show bytes "stdin" ≠ [] by decide
  | file path =>
    rw [Source.load] at h
    split at h
    · cases h
    · obtain ⟨contents, hcontents, h⟩ := Option.map_eq_some_iff.mp h
      cases h
      rintro rfl
      simp [env.file_nil] at hcontents
  | string text =>
    cases h
    exact show bytes "cmdline" ≠ [] by decide

theorem Loads.named (h : Loads env stdin mainFile sources left file) :
    sources = [] ∧ file = mainFile ∨ sources ≠ [] ∧ file.fileName ≠ [] := by
  induction h with
  | nil => exact .inl ⟨rfl, rfl⟩
  | cons hload _ ih =>
    refine .inr ⟨List.cons_ne_nil _ _, ?_⟩
    rcases ih with ⟨-, rfl⟩ | ⟨-, hnamed⟩
    · exact Source.load_named hload
    · exact hnamed

theorem analyzerMain_of_outcome {outcome : Outcome}
    (h : parseArguments env env.stdin .none args = .ok (.inl outcome)) :
    analyzerMain interp env args = .ok outcome := by
  rw [analyzerMain, h]
  rfl

theorem analyzerMain_of_file (h : parseArguments env env.stdin .none args = .ok (.inr file)) :
    analyzerMain interp env args = if file.fileName = [] then
      .ok (.fails (bytes "No script supplied\n")) else analyze interp file := by
  rw [analyzerMain, h]
  rfl

theorem CommandLine.main {result : Except Fault Outcome} (h : CommandLine interp env args result) :
    analyzerMain interp env args = result := by
  cases h with
  | analyze hloads =>
    have hparse : parseArguments env env.stdin .none (_ ++ []) = _ := parseArguments_sources hloads
    rw [List.append_nil] at hparse
    have hnamed : _ ≠ _ := (hloads.named.resolve_left fun h => by simp at h).2
    rw [analyzerMain_of_file hparse, if_neg hnamed]
  | nothing =>
    have hparse : parseArguments env env.stdin .none [] = .ok (.inr .none) := by
      rw [parseArguments]
      rfl
    exact analyzerMain_of_file hparse
  | test hloads =>
    exact analyzerMain_of_outcome ((parseArguments_sources hloads).trans parseArguments_test)
  | unreadable hloads hpath hfile =>
    refine analyzerMain_of_outcome ((parseArguments_sources hloads).trans ?_)
    rw [parseArguments_file hpath, hfile]
  | unrecognised hloads harg =>
    exact analyzerMain_of_outcome
      ((parseArguments_sources hloads).trans (parseArguments_unrecognised harg))
  | missing hloads hoption =>
    rw [analyzerMain, parseArguments_sources hloads, parseArguments_missing hoption]
    rfl

theorem exists_commandLine (interp : TclInterp) (env : Environment) (args : List Str) :
    ∃ result, CommandLine interp env args result := by
  obtain ⟨sources, left, file, rest, rfl, hloads, hending⟩ :=
    exists_loads env env.stdin .none args
  cases hending with
  | done =>
    rcases List.eq_nil_or_concat sources with rfl | ⟨init, source, rfl⟩
    · exact ⟨_, .nothing⟩
    · rw [List.append_nil]
      rw [List.concat_eq_append] at hloads ⊢
      exact ⟨_, .analyze hloads⟩
  | test rest => exact ⟨_, .test hloads⟩
  | unreadable rest hpath hfile => exact ⟨_, .unreadable hloads hpath hfile⟩
  | unrecognised rest harg => exact ⟨_, .unrecognised hloads harg⟩
  | missing hoption => exact ⟨_, .missing hloads hoption⟩

/-- `main` ends in the way that its command line asks for, and in no other. -/
theorem analyzerMain_iff (interp : TclInterp) (env : Environment) (args : List Str)
    (result : Except Fault Outcome) :
    analyzerMain interp env args = result ↔ CommandLine interp env args result := by
  constructor
  · rintro rfl
    obtain ⟨result, h⟩ := exists_commandLine interp env args
    exact h.main ▸ h
  · exact CommandLine.main

/-! ## A run with a script -/

theorem Loads.made (h : Loads env stdin mainFile sources left file) :
    file = mainFile ∨ ∃ fileName contents, file = makeSourceFile fileName contents := by
  induction h with
  | nil => exact .inl rfl
  | @cons _ _ _ _ _ _ source _ hload _ ih =>
    refine .inr (ih.elim (fun hfirst => ?_) id)
    subst hfirst
    cases source with
    | stdin =>
      cases hload
      exact ⟨_, _, rfl⟩
    | file path =>
      rw [Source.load] at hload
      split at hload
      · cases hload
      · obtain ⟨contents, -, hload⟩ := Option.map_eq_some_iff.mp hload
        cases hload
        exact ⟨_, _, rfl⟩
    | string text =>
      cases hload
      exact ⟨_, _, rfl⟩

/-- The last script on the command line is parsed, and when its names can be split and its lists of
arguments have no empty element, `main` succeeds and prints a report that lists the whole index. -/
theorem analyzerMain_reports (hcontract : interp.Contract) {source : Source}
    (h : Loads env env.stdin .none (sources ++ [source]) left file) :
    ∃ script, parseScript interp { file, curNs := [] } { data := 0, bytes := file.contents } =
        .ok script ∧
      ((∀ name ∈ script.splitNames, ¬ HasColonRun name) →
        (∀ site ∈ procSites script.scanSites, site.call.ElementsNonempty) →
        ∃ result report, buildNew script = .ok result ∧ Report.Lists report result.index ∧
          analyzerMain interp env ((sources ++ [source]).flatMap Source.arguments) =
            .ok { status := 0, out := report.text result.index, err := [] }) := by
  obtain ⟨-, hnamed⟩ := h.named.resolve_left fun h => by simp at h
  have hmade : ∃ fileName contents, file = makeSourceFile fileName contents := by
    refine h.made.resolve_left fun hfirst => hnamed ?_
    rw [hfirst]
    rfl
  obtain ⟨fileName, contents, rfl⟩ := hmade
  have hfile : (⟨makeSourceFile fileName contents, []⟩ : ParseContext).file =
      makeSourceFile fileName contents := rfl
  obtain ⟨script, hscript⟩ := parseScript_ok hcontract hfile (Nat.zero_le _) contents.length
  have hview : (makeSourceFile fileName contents).view 0 contents.length =
      { data := 0, bytes := contents } := by
    simp [SourceFile.view, makeSourceFile]
  rw [hfile, hview] at hscript
  refine ⟨script, hscript, fun hnames helements => ?_⟩
  obtain ⟨result, hresult⟩ := buildNew_exists (parseScript_typed hscript) hnames helements
  obtain ⟨report, hlists, hprint⟩ :=
    printIndex_lists (buildNew_ok hresult).wf (buildNew_rootUnnamed hresult)
  refine ⟨result, report, hresult, hlists, ?_⟩
  rw [(CommandLine.analyze h).main, analyze]
  have hscript' : parseScript interp { file := makeSourceFile fileName contents, curNs := [] }
      { data := 0, bytes := (makeSourceFile fileName contents).contents } = .ok script := hscript
  simp only [hscript', hresult, hprint, ok_bind, pure_eq_ok]

def noFiles : Environment := { stdin := [], file := fun _ => none, file_nil := rfl }

/-- The tree of `proc f {a args} {}` on the command line. -/
def cmdlineTree : Script :=
  let located (word : Word) : Word :=
    { word with location := { word.location with fileName := bytes "cmdline" } }
  { location := { lineLocation 0 with fileName := bytes "cmdline" }
    commands := [
      { type := .PROC
        words := [located (textWord 0 "proc"), located (textWord 5 "f"),
          located (listWord 8 "a args" [located (textWord 8 "a"), located (textWord 10 "args")]),
          { located (textWord 17 "") with
            type := .SCRIPT
            data := .script
              { location := { lineLocation 17 with fileName := bytes "cmdline" }, commands := [] } }]
        ns := [] }] }

theorem cmdline_parsed : parseScript lastArgsInterp
    { file := makeSourceFile (bytes "cmdline") (bytes "proc f {a args} {}"), curNs := [] }
    { data := 0, bytes := bytes "proc f {a args} {}" } = .ok cmdlineTree :=
  rfl

/-- `--string "proc f {a args} {}"` -/
theorem cmdline_reports : ∃ result report, buildNew cmdlineTree = .ok result ∧
    Report.Lists report result.index ∧
    analyzerMain lastArgsInterp noFiles [bytes "--string", bytes "proc f {a args} {}"] =
      .ok { status := 0, out := report.text result.index, err := [] } := by
  have hloads : Loads noFiles noFiles.stdin .none ([] ++ [.string (bytes "proc f {a args} {}")]) []
      (makeSourceFile (bytes "cmdline") (bytes "proc f {a args} {}")) := .cons rfl .nil
  obtain ⟨script, hscript, hreports⟩ := analyzerMain_reports lastArgs_contract hloads
  cases cmdline_parsed.symm.trans hscript
  refine hreports (by decide) fun site hsite args vec hargs htype hdata arg harg => ?_
  rw [List.mem_singleton.mp hsite] at hargs
  cases hargs
  cases hdata
  rcases List.mem_pair.mp harg with rfl | rfl
  · nofun
  · nofun

end TclAnalyzer
