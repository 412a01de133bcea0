import TclAnalyzer.Analyzer.Samples
import TclAnalyzer.Analyzer.Proofs.ArgumentsProofs

/-!
# Specifiers without elements

The elements of a list of arguments are split again, into any number of elements but one. The index
takes the first of them as the name of the argument, and only an element that has none stops it.
-/

namespace TclAnalyzer

variable {interp : TclInterp} {nested : ScriptParser} {context : ParseContext} {index : Index}
  {parse : TclParse}

/-! ## Splitting -/

theorem wordToList_empty_iff {word word' : Word} (hword : word.IsText)
    (h : wordToList interp context word = .ok word') :
    word'.data = .words [] ↔ SplitsInto interp context.file word.text [] := by
  rcases wordToList_cases h with ⟨rfl, hone⟩ | ⟨elements, vec, rfl, hsplits, -, hvec⟩
  · refine iff_of_false (fun hdata => ?_) fun hempty => ?_
    · cases hword.2.symm.trans hdata
    · cases hone [] hempty
  · constructor
    · intro hdata
      cases hdata
      cases hvec
      exact hsplits
    · intro hempty
      cases hsplits.unique hempty
      cases hvec
      rfl

/-- Both levels of a list of arguments: an element of it has no words exactly when its text splits
into none. -/
theorem elements_empty_iff {elements : List ListElement} {texts vec : List Word}
    (htexts : List.Forall₂ (fun found word => found.Makes context.file word) elements texts)
    (hvec : List.Forall₂ (fun text arg => wordToList interp context text = .ok arg) texts vec) :
    (∃ arg ∈ vec, arg.data = .words []) ↔
      ∃ found ∈ elements, SplitsInto interp context.file (found.text context.file) [] := by
  induction htexts generalizing vec with
  | nil =>
    cases hvec
    simp
  | cons hmakes _ ih =>
    cases hvec with
    | cons harg hrest =>
      have hfirst := wordToList_empty_iff ⟨hmakes.type, hmakes.data⟩ harg
      rw [hmakes.text] at hfirst
      rw [List.exists_mem_cons_iff, List.exists_mem_cons_iff, hfirst, ih hrest]

/-- The argument word of a `proc`: a list has a specifier without elements exactly when its text
says so, and no other word is looked into. -/
theorem parseArgs_empty_iff {i j : Nat} {args : Word}
    (h : ParseCommand.parseArgs interp nested context parse i = .ok (args, j)) :
    (args.type ≠ .LIST ∧ (args.type ≠ .ERROR → ¬ EmptySpecifier interp context.file args.text)) ∨
    (args.type = .LIST ∧ ∃ vec, args.data = .words vec ∧ (∀ arg ∈ vec, arg.IsElement) ∧
      ((∃ arg ∈ vec, arg.data = .words []) ↔ EmptySpecifier interp context.file args.text)) := by
  rcases parseArgs_cases h with ⟨herror, -⟩ | ⟨word, hword, ⟨rfl, hone⟩ |
    ⟨elements, texts, vec, rfl, hsplits, hlength, htexts, hvec⟩⟩
  · have hmissing := (errorWord_ok herror).1
    refine .inl ⟨fun htype => ?_, absurd hmissing⟩
    cases hmissing.symm.trans htype
  · refine .inl ⟨parseWord_type_ne_list hword, fun _ hempty => ?_⟩
    obtain ⟨elements, hsplits, hne, -⟩ := hempty
    exact hne (hone elements hsplits)
  · refine .inr ⟨rfl, vec, rfl, isElement_of_wordToList (isText_of_makes htexts) hvec, ?_⟩
    rw [elements_empty_iff htexts hvec]
    constructor
    · intro hempty
      exact ⟨elements, hsplits, hlength, hempty⟩
    · rintro ⟨others, hothers, -, hempty⟩
      rwa [hsplits.unique hothers]

/-! ## Reads -/

theorem avoidsBadReads_get {ρ : Type} [Row ρ] (table : RefRecord ρ) (id : Nat) :
    Avoids badReads (table.get id) := by
  unfold RefRecord.get
  split
  · exact .error (by decide)
  · split
    · exact .error (by decide)
    · obtain ⟨row, hrow⟩ : ∃ row, table.table[id - 1]? = some row :=
        ⟨_, List.getElem?_eq_getElem (by omega)⟩
      rw [nth_eq_ok.mpr hrow]
      exact .ok row

theorem avoidsBadReads_findChild (index : Index) (part : Str) (children : List Nat) :
    Avoids badReads (findChild index part children) := by
  induction children with
  | nil => exact .ok none
  | cons childId children ih =>
    rw [findChild]
    refine (avoidsBadReads_get index.namespaces childId).bind fun child _ => ?_
    split
    · exact .ok _
    · exact ih

theorem avoidsBadReads_resolveParts (parts : List Str) : ∀ (index : Index) (curId : Nat),
    Avoids badReads (resolveParts index curId parts) := by
  induction parts with
  | nil =>
    intro index curId
    exact .ok _
  | cons part parts ih =>
    intro index curId
    rw [resolveParts]
    refine (avoidsBadReads_get index.namespaces curId).bind fun current _ => ?_
    refine (avoidsBadReads_findChild index part current.childNamespaces).bind fun found _ => ?_
    cases found with
    | none => exact ih _ _
    | some childId => exact ih index childId

theorem avoidsBadReads_namespaceParts (qn : QualifiedName) : Avoids badReads qn.namespaceParts := by
  unfold QualifiedName.namespaceParts
  split
  · exact .ok _
  · split
    · split
      · exact .error (by decide)
      · exact .ok _
    · split
      · exact .ok _
      · exact .ok _

theorem avoidsBadReads_resolveQualified (index : Index) (qn : QualifiedName) (ns : Nat) :
    Avoids badReads (resolveQualified index qn ns) := by
  unfold resolveQualified
  split
  · refine (avoidsBadReads_namespaceParts qn).bind fun parts _ => ?_
    refine (avoidsBadReads_resolveParts parts index _).bind fun resolved _ => ?_
    exact (avoidsBadReads_get resolved.2.namespaces resolved.1).bind fun row _ => .ok _
  · exact .ok _

theorem avoidsBadReads_addArguments_iff {args : List Word} (hargs : ∀ arg ∈ args, arg.IsElement) :
    ∀ (index : Index) (proc : Proc),
      Avoids badReads (addArguments index proc args) ↔ ∀ arg ∈ args, arg.data ≠ .words [] := by
  induction args with
  | nil =>
    intro index proc
    exact iff_of_true (.ok _) nofun
  | cons arg args ih =>
    intro index proc
    rw [List.forall_mem_cons, addArguments]
    rcases addArgument_element (hargs arg List.mem_cons_self) proc args.isEmpty with
      ⟨hempty, hfault⟩ | ⟨hne, counted, hcounted⟩
    · rw [hfault]
      exact iff_of_false (fun h => h .undefined (by decide) rfl) fun h => h.1 hempty
    · rw [avoids_bind_ok hcounted, ih fun a ha => hargs a (List.mem_cons_of_mem arg ha)]
      exact (and_iff_right hne).symm

/-- Behind the argument word nothing is read that may not be there. -/
theorem avoidsBadReads_addProcToIndex_iff {words : List Word} {name args : Word} {index : Index} {ns : Nat}
    {P : Prop} (hname : words[1]? = some name) (hargs : words[2]? = some args)
    (hword : ∀ proc, Avoids badReads (addArgumentWord index proc args) ↔ P) :
    Avoids badReads (addProcToIndex index ns words) ↔ P := by
  rw [addProcToIndex, avoids_bind_ok (nth_eq_ok.mpr hname)]
  dsimp only
  rw [avoids_bind_ok (nth_eq_ok.mpr hargs)]
  constructor
  · intro h
    exact (hword _).mp h.of_bind
  · intro h
    refine ((hword _).mpr h).bind fun counted _ => ?_
    exact (avoidsBadReads_resolveQualified counted.2 _ ns).bind fun resolved _ => .ok _

/-- On a `proc` command of the parser, `AddProcToIndex` reads what is there exactly when the text of
the arguments has no specifier that is an empty list. -/
theorem addProcToIndex_reads_iff {call : Call}
    (h : parseCommand interp nested context parse = .ok (some call)) (hproc : call.type = .PROC)
    (index : Index) (ns : Nat) :
    Avoids badReads (addProcToIndex index ns call.words) ↔
      ∀ args, call.words[2]? = some args → args.type ≠ .ERROR →
        ¬ EmptySpecifier interp context.file args.text := by
  obtain ⟨cmdWord, known, rest, i, j, -, hwords, -, htakings, -, hlength, -⟩ := parseCommand_takings h
  obtain ⟨name, args, body, rfl⟩ := List.length_eq_three.mp (hlength (.inl hproc))
  have hargs : call.words[2]? = some args := by
    rw [hwords]
    rfl
  have hname : call.words[1]? = some name := by
    rw [hwords]
    rfl
  obtain ⟨i', j', htaken⟩ := htakings.get (n := 1) rfl
  rw [hproc] at htaken
  refine avoidsBadReads_addProcToIndex_iff hname hargs fun proc => ?_
  unfold addArgumentWord
  rcases parseArgs_empty_iff htaken with ⟨hnolist, hsplits⟩ | ⟨hlist, vec, hdata, helement, hsplits⟩
  · rw [if_neg hnolist]
    refine iff_of_true (.ok _) fun args' hargs' htype => ?_
    cases hargs.symm.trans hargs'
    exact hsplits htype
  · rw [if_pos hlist, hdata]
    dsimp only
    rw [avoidsBadReads_addArguments_iff helement]
    constructor
    · intro hne args' hargs' _ hempty
      cases hargs.symm.trans hargs'
      obtain ⟨arg, harg, hnil⟩ := hsplits.mpr hempty
      exact hne arg harg hnil
    · intro hnone arg harg hnil
      have htype : args.type ≠ .ERROR := by
        rw [hlist]
        nofun
      exact hnone args hargs htype (hsplits.mp ⟨arg, harg, hnil⟩)

/-! ## A specifier that is not typed yet -/

/-- The file `proc p {a {}} {}`. -/
def halfTyped : SourceFile :=
  makeSourceFile [] (bytes "proc p \x7ba \x7b\x7d\x7d \x7b\x7d")

def halfTypedParse : TclParse :=
  { commandStart := 0, commandSize := 16, commentSize := 0, numWords := 4, tokens :=
    [⟨.SIMPLE_WORD, 0, 4, 1⟩, ⟨.TEXT, 0, 4, 0⟩, ⟨.SIMPLE_WORD, 5, 1, 1⟩, ⟨.TEXT, 5, 1, 0⟩,
      ⟨.SIMPLE_WORD, 7, 6, 1⟩, ⟨.TEXT, 8, 4, 0⟩, ⟨.SIMPLE_WORD, 14, 2, 1⟩, ⟨.TEXT, 15, 0, 0⟩] }

/-- The Tcl library on that file. -/
def halfTypedInterp : TclInterp where
  parseCommand view := if view = halfTyped.view 0 16 then some halfTypedParse else none
  findElement view :=
    if view = halfTyped.view 8 4 then some { element := 8, next := 10, size := 1 }
    else if view = halfTyped.view 8 1 then some { element := 8, next := 9, size := 1 }
    else if view = halfTyped.view 10 2 then some { element := 11, next := 12, size := 0 }
    else if view.bytes = [] then some { element := view.data, next := view.data, size := 0 }
    else none

def halfTypedCall : Call :=
  { type := .PROC
    words := [textWord 0 "proc", textWord 5 "p",
      listWord 8 "a \x7b\x7d" [textWord 8 "a", listWord 11 "" []], scriptWord 15 "" []]
    ns := [] }

theorem halfTyped_parsed :
    parseCommand halfTypedInterp (parseScript halfTypedInterp) { file := halfTyped, curNs := [] }
      halfTypedParse = .ok (some halfTypedCall) :=
  rfl

/-- The list `{}` has no first element. -/
theorem halfTyped_undefined :
    parseCommand halfTypedInterp (parseScript halfTypedInterp) { file := halfTyped, curNs := [] }
      halfTypedParse = .ok (some halfTypedCall) ∧ halfTypedCall.type = .PROC ∧
    addProcToIndex makeIndex 1 halfTypedCall.words = .error .undefined ∧
    ¬ Avoids badReads (addProcToIndex makeIndex 1 halfTypedCall.words) := by
  have hundefined : addProcToIndex makeIndex 1 halfTypedCall.words = .error .undefined := rfl
  exact ⟨halfTyped_parsed, rfl, hundefined, fun h => h .undefined (by decide) hundefined⟩

/-- `proc f {a args} {}` is registered, and neither specifier is empty. -/
theorem halfTyped_reads_iff :
    (Avoids badReads (addProcToIndex makeIndex 1 halfTypedCall.words) ↔
      ∀ args, halfTypedCall.words[2]? = some args → args.type ≠ .ERROR →
        ¬ EmptySpecifier halfTypedInterp halfTyped args.text) ∧
    Avoids badReads (addProcToIndex makeIndex 1 lastArgsWords) ∧
    ∀ args, lastArgsWords[2]? = some args → args.type ≠ .ERROR →
      ¬ EmptySpecifier lastArgsInterp lastArgs args.text := by
  have hparsed : parseCommand lastArgsInterp (parseScript lastArgsInterp)
      { file := lastArgs, curNs := [] } lastArgsParse =
      .ok (some { type := .PROC, words := lastArgsWords, ns := [] }) := rfl
  have hreads : Avoids badReads (addProcToIndex makeIndex 1 lastArgsWords) := by
    obtain ⟨index, hindex, -⟩ := exists_of_returns (show returns
      (addProcToIndex makeIndex 1 lastArgsWords) (fun _ => true) = true by decide +kernel)
    rw [hindex]
    exact .ok index
  exact ⟨addProcToIndex_reads_iff halfTyped_parsed rfl makeIndex 1, hreads,
    (addProcToIndex_reads_iff hparsed rfl makeIndex 1).mp hreads⟩

end TclAnalyzer
