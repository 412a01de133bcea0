import TclAnalyzer.Analyzer.Arguments
import TclAnalyzer.Analyzer.Samples
import TclAnalyzer.Analyzer.Proofs.DbProofs
import TclAnalyzer.Analyzer.Proofs.LocationProofs
import TclAnalyzer.Analyzer.Proofs.ParserRuleProofs
import TclAnalyzer.Analyzer.Proofs.RegisterProofs

/-!
# Counting the arguments of a proc

`WordToList` makes a list of a text with any number of elements but one. So a single specifier is not
seen at all, and the name of one without a default is its text as it stands.
-/

namespace TclAnalyzer

variable {interp : TclInterp} {nested : ScriptParser} {context : ParseContext} {index index' : Index}
  {fileName contents : Str}

/-! ## Lists -/

theorem wordToListFrom_elements (hfile : context.file = makeSourceFile fileName contents)
    {list length : Nat} {elements : List StringView}
    (h : ListElements interp context.file list length elements)
    (hfits : 0 < length → list + length ≤ contents.length) {fuel : Nat} (hfuel : length < fuel) :
    ∃ vec, wordToListFrom interp context (list + length) fuel list length = .ok (some vec) ∧
      vec.map Word.text = elements := by
  induction h generalizing fuel with
  | @last list length found hfound hle hnext hend =>
    obtain ⟨fuel, rfl⟩ : ∃ k, fuel = k + 1 := ⟨fuel - 1, by omega⟩
    have hnot : ¬ (found.next < list ∨ length < found.next - list) := by omega
    refine ⟨[], ?_, rfl⟩
    rw [wordToListFrom, hfound]
    simp only [if_neg hnot, hend, Nat.le_refl, if_true]
    rfl
  | @element list length found rest hfound hge hlt hsize hprogress hnext _ ih =>
    obtain ⟨fuel, rfl⟩ : ∃ k, fuel = k + 1 := ⟨fuel - 1, by omega⟩
    have hnot : ¬ (found.next < list ∨ length < found.next - list) := by omega
    have hmore : ¬ list + length ≤ found.element := by omega
    have hlength : length - (found.next - list) = list + length - found.next := by omega
    have hlast : found.next + (list + length - found.next) = list + length := by omega
    have hwithin := hfits (by omega)
    have helement : found.element ≤ contents.length := by omega
    obtain ⟨location, hlocation⟩ := makeSourceLocation_ok fileName helement
    rw [← hfile] at hlocation
    rw [hlast] at ih
    have hfuel' : list + length - found.next < fuel := by omega
    obtain ⟨vec, hvec, htexts⟩ := ih (fun _ => hwithin) hfuel'
    refine ⟨{ type := .TEXT, location, text := context.file.view found.element found.size,
              data := .nothing } :: vec, ?_, ?_⟩
    · rw [wordToListFrom, hfound]
      simp only [if_neg hnot, if_neg hmore, hlocation, hlength, hvec]
      rfl
    · rw [List.map_cons, htexts]

/-- The elements of a list lie in its text. -/
theorem ListElements.fits {file : SourceFile} {list length : Nat} {elements : List StringView}
    (h : ListElements interp file list length elements) : ∀ element ∈ elements,
    0 < length ∧ element.data + element.bytes.length ≤ list + length := by
  induction h with
  | last => simp
  | @element list length found rest hfound hge hlt hsize hprogress hnext _ ih =>
    intro element helement
    rcases List.mem_cons.mp helement with rfl | helement
    · have hle := view_length_le file found.element found.size
      refine ⟨by omega, ?_⟩
      show found.element + _ ≤ _
      omega
    · obtain ⟨-, hle⟩ := ih element helement
      exact ⟨by omega, by omega⟩

/-- The words of `WordToList` on a list: one element leaves the word as it is. -/
theorem wordToList_elements (hfile : context.file = makeSourceFile fileName contents) {word : Word}
    {elements : List StringView}
    (h : ListElements interp context.file word.text.data word.text.bytes.length elements)
    (hfits : 0 < word.text.bytes.length →
      word.text.data + word.text.bytes.length ≤ contents.length) :
    ∃ vec, vec.map Word.text = elements ∧ (∀ inner ∈ vec, inner.IsText) ∧
      wordToList interp context word =
        .ok (if elements.length = 1 then word else { word with type := .LIST, data := .words vec }) := by
  obtain ⟨vec, hvec, htexts⟩ := wordToListFrom_elements hfile h hfits (Nat.lt_succ_self _)
  have hlength : vec.length = elements.length := by rw [← htexts, List.length_map]
  obtain ⟨found, -, hmakes⟩ := (wordToListFrom_splits hvec).2 vec rfl
  refine ⟨vec, htexts, isText_of_makes hmakes, ?_⟩
  rw [wordToList, ← hlength]
  exact bind_eq_ok.mpr ⟨some vec, hvec, rfl⟩

/-! ## Texts of words -/

theorem StringView.PointsInto.of_view {file : SourceFile} {text : StringView} {data size : Nat}
    (h : text = file.view data size) : text.PointsInto file := by
  subst h
  exact (view_view file data size).symm

theorem StringView.PointsInto.fits {file : SourceFile} {text : StringView} (h : text.PointsInto file)
    (hpos : 0 < text.bytes.length) : text.last ≤ file.contents.length := by
  rw [h] at hpos ⊢
  exact view_fits hpos

/-- The text of a word that is parsed is in the file. -/
theorem parseWord_pointsInto (fuel : Nat) {tokens : List Token} : ∀ {i j : Nat} {word : Word},
    parseWord nested context tokens fuel i = .ok (word, j) → word.text.PointsInto context.file := by
  induction fuel with
  | zero =>
    intro i j word h
    rw [parseWord] at h
    cases h
  | succ fuel ih =>
    intro i j word h
    cases parseWord_cases h with
    | simple _ _ _ hword => exact ih hword
    | compound _ _ hat => exact .of_view hat.text
    | text _ _ hat => exact .of_view hat.text
    | command _ _ _ hat => exact .of_view hat.text
    | scalar _ _ _ hword =>
      have htext := ih hword
      exact htext
    | array _ _ _ _ _ _ hat => exact .of_view hat.text

/-! ## The argument word -/

/-- The word of a specifier in the parse tree: a text, or a list of the name and the default. -/
def ArgumentWord (spec : Specifier) (word : Word) : Prop :=
  (spec.isName = true ∧ word.type = .TEXT ∧ word.text = spec.text) ∨
  (spec.isName = false ∧ word.type = .LIST ∧
    ∃ vec, word.data = .words vec ∧ vec.map Word.text = spec.elements)

theorem wordToList_specifier (hfile : context.file = makeSourceFile fileName contents) {word : Word}
    {spec : Specifier} (hword : word.IsText) (htext : word.text = spec.text)
    (hspec : ListElements interp context.file spec.text.data spec.text.bytes.length spec.elements)
    (hfits : 0 < spec.text.bytes.length →
      spec.text.data + spec.text.bytes.length ≤ contents.length) :
    ∃ word', wordToList interp context word = .ok word' ∧ ArgumentWord spec word' := by
  rw [← htext] at hspec hfits
  obtain ⟨vec, htexts, -, hlist⟩ := wordToList_elements hfile hspec hfits
  refine ⟨_, hlist, ?_⟩
  by_cases hone : spec.elements.length = 1
  · rw [if_pos hone]
    exact Or.inl ⟨decide_eq_true hone, hword.1, htext⟩
  · rw [if_neg hone]
    exact Or.inr ⟨decide_eq_false hone, rfl, vec, rfl, htexts⟩

theorem mapM_specifiers (hfile : context.file = makeSourceFile fileName contents)
    {specs : List Specifier} {vec : List Word} (htexts : vec.map Word.text = specs.map Specifier.text)
    (hvec : ∀ word ∈ vec, word.IsText)
    (hspecs : ∀ spec ∈ specs,
      ListElements interp context.file spec.text.data spec.text.bytes.length spec.elements ∧
        (0 < spec.text.bytes.length → spec.text.data + spec.text.bytes.length ≤ contents.length)) :
    ∃ args, vec.mapM (wordToList interp context) = .ok args ∧ List.Forall₂ ArgumentWord specs args := by
  induction specs generalizing vec with
  | nil =>
    rw [List.map_nil, List.map_eq_nil_iff] at htexts
    subst htexts
    exact ⟨[], rfl, .nil⟩
  | cons spec specs ih =>
    cases vec with
    | nil => cases htexts
    | cons word vec =>
      rw [List.map_cons, List.map_cons, List.cons.injEq] at htexts
      obtain ⟨htext, htexts⟩ := htexts
      obtain ⟨hspec, hfits⟩ := hspecs spec List.mem_cons_self
      obtain ⟨word', hword', hspecWord⟩ :=
        wordToList_specifier hfile (hvec word List.mem_cons_self) htext hspec hfits
      obtain ⟨args, hargs, hall⟩ := ih htexts (fun w hw => hvec w (List.mem_cons_of_mem word hw))
        fun s hs => hspecs s (List.mem_cons_of_mem spec hs)
      refine ⟨word' :: args, ?_, .cons hspecWord hall⟩
      rw [List.mapM_cons]
      exact bind_eq_ok.mpr ⟨word', hword', bind_eq_ok.mpr ⟨args, hargs, rfl⟩⟩

/-- What `parseArgs` makes of the text of the arguments. -/
theorem parseArgs_specifiers (hfile : context.file = makeSourceFile fileName contents)
    {parse : TclParse} {i j : Nat} {word : Word} {specs : List Specifier}
    (hi : i < parse.tokens.length)
    (hword : parseWord nested context parse.tokens (ParseCommand.fuel parse) i = .ok (word, j))
    (hspecs : ArgumentList interp context.file word specs) :
    ∃ args, ParseCommand.parseArgs interp nested context parse i = .ok (args, j) ∧
      (specs.length = 1 → args.type ≠ .LIST) ∧
      (specs.length ≠ 1 → args.type = .LIST ∧ ∃ vec, args.data = .words vec ∧
        List.Forall₂ ArgumentWord specs vec) := by
  have hfits := (parseWord_pointsInto _ hword).fits
  rw [hfile] at hfits
  have hfits' : ∀ spec ∈ specs, 0 < spec.text.bytes.length →
      spec.text.data + spec.text.bytes.length ≤ contents.length := by
    intro spec hspec _
    obtain ⟨hlength, hle⟩ := hspecs.list.fits spec.text (List.mem_map_of_mem hspec)
    exact Nat.le_trans hle (hfits hlength)
  obtain ⟨vec, htexts, hvec, hlist⟩ := wordToList_elements hfile hspecs.list hfits
  rw [List.length_map] at hlist
  have hnolist : word.type ≠ .LIST := parseWord_type_ne_list hword
  rw [ParseCommand.parseArgs, if_neg (by omega)]
  by_cases hone : specs.length = 1
  · rw [if_pos hone] at hlist
    refine ⟨word, ?_, fun _ => hnolist, fun hne => absurd hone hne⟩
    refine bind_eq_ok.mpr ⟨(word, j), hword, bind_eq_ok.mpr ⟨word, hlist, ?_⟩⟩
    split
    · next vec htype _ => exact absurd htype hnolist
    · next htype _ => exact absurd htype hnolist
    · rfl
  · rw [if_neg hone] at hlist
    obtain ⟨args, hargs, hall⟩ := mapM_specifiers hfile htexts hvec fun spec hspec =>
      ⟨(hspecs.specifier spec hspec).1, hfits' spec hspec⟩
    refine ⟨{ word with type := .LIST, data := .words args }, ?_, fun h => absurd h hone, fun _ =>
      ⟨rfl, args, rfl, hall⟩⟩
    refine bind_eq_ok.mpr ⟨(word, j), hword, bind_eq_ok.mpr ⟨_, hlist, ?_⟩⟩
    exact bind_eq_ok.mpr ⟨args, hargs, rfl⟩

/-! ## Registering -/

/-- The name that the loop takes for the argument: the whole text of a specifier without a default. -/
def Specifier.registered (spec : Specifier) : Str :=
  if spec.isName then spec.text.bytes else spec.name

theorem get_insert_old {vars : RefRecord Variable} {id : Nat} {v w : Variable}
    (h : vars.get id = .ok v) : (vars.insert w).2.get id = .ok v := by
  rw [RefRecord.get_eq_ok] at h ⊢
  have hvalid := RefRecord.row_isSome.mp ⟨v, h⟩
  rw [RefRecord.row_insert, if_neg (by omega)]
  exact h

theorem get_insert_new (vars : RefRecord Variable) (w : Variable) :
    (vars.insert w).2.get (vars.insert w).1.id = .ok (vars.insert w).1 := by
  rw [RefRecord.get_eq_ok, RefRecord.row_insert]
  exact if_pos rfl

theorem argumentNames_eq_ok {proc : Proc} {names : List Str} :
    argumentNames index proc = .ok names ↔
      List.Forall₂ (fun id name => ∃ v, index.vars.get id = .ok v ∧ v.name = name) proc.arguments
        names := by
  unfold argumentNames
  generalize proc.arguments = ids
  induction ids generalizing names with
  | nil =>
    constructor
    · rintro ⟨⟩
      exact .nil
    · rintro ⟨⟩
      rfl
  | cons id ids ih =>
    rw [List.mapM_cons]
    constructor
    · intro h
      obtain ⟨name, hname, h⟩ := bind_eq_ok.mp h
      obtain ⟨v, hv, hname⟩ := bind_eq_ok.mp hname
      obtain ⟨rest, hrest, h⟩ := bind_eq_ok.mp h
      cases hname
      cases h
      exact .cons ⟨v, hv, rfl⟩ (ih.mp hrest)
    · intro h
      cases h with
      | @cons _ name _ rest hname hrest =>
        obtain ⟨v, hv, rfl⟩ := hname
        exact bind_eq_ok.mpr ⟨v.name, bind_eq_ok.mpr ⟨v, hv, rfl⟩,
          bind_eq_ok.mpr ⟨rest, ih.mpr hrest, rfl⟩⟩

/-- One more argument has one more name. -/
theorem argumentNames_insert {proc : Proc} {names : List Str} {name : Str}
    (h : argumentNames index proc = .ok names) :
    argumentNames { index with vars := (index.vars.insert { id := 0, name }).2 }
      { proc with arguments := proc.arguments ++ [(index.vars.insert { id := 0, name }).1.id] } =
      .ok (names ++ [name]) := by
  rw [argumentNames_eq_ok] at h ⊢
  refine List.rel_append ?_ (.cons ⟨_, get_insert_new _ _, rfl⟩ .nil)
  refine h.imp ?_
  rintro id name ⟨v, hv, hname⟩
  exact ⟨v, get_insert_old hv, hname⟩

/-- A turn of the loop: the argument is counted by its default, and never as the rest of the
arguments. -/
theorem addArgument_specifier {spec : Specifier} {arg : Word} (harg : ArgumentWord spec arg)
    (hspec : spec.isName = true ∨ spec.hasDefault = true) (proc : Proc) (isLast : Bool) :
    addArgument proc arg isLast =
      .ok (if spec.isName then { proc with requiredArgs := proc.requiredArgs + 1 }
        else { proc with optionalArgs := proc.optionalArgs + 1 }, spec.registered) := by
  have hargs : ¬ ([] : Str) = bytes "args" := by decide +kernel
  unfold addArgument Specifier.registered
  dsimp only
  rcases harg with ⟨hname, htype, htext⟩ | ⟨hname, htype, vec, hdata, htexts⟩
  · rw [if_pos htype, if_neg fun h => hargs h.1, if_pos hname, if_pos hname, htext]
    rfl
  · have htwo : spec.elements.length = 2 := by
      rcases hspec with hone | htwo
      · rw [hname] at hone
        cases hone
      · exact of_decide_eq_true htwo
    have hne : ¬ arg.type = .TEXT := by
      rw [htype]
      nofun
    rw [if_neg hne, hdata, if_neg (by simp [hname]), if_neg (by simp [hname])]
    unfold Specifier.name
    rw [← htexts] at htwo ⊢
    cases vec with
    | nil => cases htwo
    | cons first vec => rfl

/-- A turn of the loop on an element of the list of arguments. -/
theorem addArgument_element {arg : Word} (harg : arg.IsElement) (proc : Proc) (isLast : Bool) :
    (arg.data = .words [] ∧ addArgument proc arg isLast = .error .undefined) ∨
      (arg.data ≠ .words [] ∧ ∃ counted, addArgument proc arg isLast = .ok counted) := by
  unfold addArgument
  dsimp only
  rcases harg with ⟨htype, hdata⟩ | ⟨htype, vec, hdata, -⟩
  · rw [if_pos htype, hdata]
    refine .inr ⟨nofun, ?_⟩
    split
    · exact ⟨_, rfl⟩
    · exact ⟨_, rfl⟩
  · have hne : ¬ arg.type = .TEXT := by
      rw [htype]
      nofun
    rw [if_neg hne, hdata]
    cases vec with
    | nil => exact .inl ⟨rfl, rfl⟩
    | cons first vec => exact .inr ⟨nofun, _, rfl⟩

/-- The loop counts the arguments by their defaults. -/
theorem addArguments_specifiers {specs : List Specifier} {vec : List Word}
    (hvec : List.Forall₂ ArgumentWord specs vec)
    (hspecs : ∀ spec ∈ specs, spec.isName = true ∨ spec.hasDefault = true) {proc proc' : Proc}
    {names : List Str} (hnames : argumentNames index proc = .ok names)
    (h : addArguments index proc vec = .ok (proc', index')) :
    argumentNames index' proc' = .ok (names ++ specs.map Specifier.registered) ∧
      proc'.optionalArgs = proc.optionalArgs + specs.countP Specifier.hasDefault ∧
      proc'.requiredArgs = proc.requiredArgs + specs.countP Specifier.isName ∧
      proc'.isVariadic = proc.isVariadic := by
  induction hvec generalizing index proc names with
  | nil =>
    cases h
    exact ⟨by simpa using hnames, rfl, rfl, rfl⟩
  | @cons spec arg specs vec harg _ ih =>
    have hspec := hspecs spec List.mem_cons_self
    have hexclusive : spec.hasDefault = !spec.isName := by
      unfold Specifier.hasDefault Specifier.isName at hspec ⊢
      rcases hspec with hone | htwo
      · have := of_decide_eq_true hone
        simp [this]
      · have := of_decide_eq_true htwo
        simp [this]
    rw [addArguments, addArgument_specifier harg hspec] at h
    obtain ⟨counted, hcounted, h⟩ := bind_eq_ok.mp h
    cases hcounted
    dsimp only at h
    have hrest : ∀ s ∈ specs, s.isName = true ∨ s.hasDefault = true := fun s hs =>
      hspecs s (List.mem_cons_of_mem spec hs)
    cases hname : spec.isName with
    | true =>
      rw [hname, if_pos rfl] at h
      have hcount : argumentNames index { proc with requiredArgs := proc.requiredArgs + 1 } =
          .ok names := hnames
      obtain ⟨h1, h2, h3, h4⟩ := ih hrest (argumentNames_insert hcount) h
      refine ⟨by rw [h1]; simp, ?_, ?_, h4⟩
      · rw [h2, List.countP_cons, hexclusive, hname]
        rfl
      · rw [h3, List.countP_cons, if_pos hname]
        show proc.requiredArgs + 1 + _ = _
        omega
    | false =>
      rw [hname, if_neg Bool.false_ne_true] at h
      have hcount : argumentNames index { proc with optionalArgs := proc.optionalArgs + 1 } =
          .ok names := hnames
      obtain ⟨h1, h2, h3, h4⟩ := ih hrest (argumentNames_insert hcount) h
      refine ⟨by rw [h1]; simp, ?_, ?_, h4⟩
      · rw [h2, List.countP_cons, hexclusive, hname]
        show proc.optionalArgs + 1 + _ = proc.optionalArgs + (_ + 1)
        omega
      · rw [h3, List.countP_cons, hname]
        rfl

theorem resolveParts_vars {curId ns : Nat} {parts : List Str}
    (h : resolveParts index curId parts = .ok (ns, index')) :
    index'.vars = index.vars ∧ index'.procs = index.procs := by
  induction parts generalizing index curId with
  | nil =>
    cases h
    exact ⟨rfl, rfl⟩
  | cons part parts ih =>
    rw [resolveParts] at h
    obtain ⟨current, -, h⟩ := bind_eq_ok.mp h
    obtain ⟨found, -, h⟩ := bind_eq_ok.mp h
    cases found with
    | none =>
      obtain ⟨hvars, hprocs⟩ := ih h
      exact ⟨hvars, hprocs⟩
    | some childId => exact ih h

theorem resolveQualified_vars {qn : QualifiedName} {ns ns' : Nat}
    (h : resolveQualified index qn ns = .ok (ns', index')) :
    index'.vars = index.vars ∧ index'.procs = index.procs := by
  unfold resolveQualified at h
  split at h
  · obtain ⟨parts, -, h⟩ := bind_eq_ok.mp h
    obtain ⟨⟨curId, index1⟩, hparts, h⟩ := bind_eq_ok.mp h
    obtain ⟨row, -, h⟩ := bind_eq_ok.mp h
    cases h
    exact resolveParts_vars hparts
  · cases h
    exact ⟨rfl, rfl⟩

/-- The registered proc has the arguments and the counts that were read off the argument word. -/
theorem addProcToIndex_registers {words : List Word} {args : Word} {ns : Nat}
    (hargs : words[2]? = some args) (h : addProcToIndex index ns words = .ok index') :
    ∃ start counted registered : Proc, ∃ index1, start.arguments = [] ∧ start.requiredArgs = 0 ∧
      start.optionalArgs = 0 ∧ start.isVariadic = false ∧
      addArgumentWord index start args = .ok (counted, index1) ∧
      index'.procs.table = index.procs.table ++ [registered] ∧ index'.vars = index1.vars ∧
      registered.arguments = counted.arguments ∧ registered.requiredArgs = counted.requiredArgs ∧
      registered.optionalArgs = counted.optionalArgs ∧ registered.isVariadic = counted.isVariadic := by
  obtain ⟨nameWord, -, h⟩ := bind_eq_ok.mp h
  obtain ⟨argsWord, hword, h⟩ := bind_eq_ok.mp h
  cases hargs.symm.trans (nth_eq_ok.mp hword)
  obtain ⟨⟨counted, index1⟩, hcounted, h⟩ := bind_eq_ok.mp h
  obtain ⟨⟨resolved, index2⟩, hresolved, h⟩ := bind_eq_ok.mp h
  obtain ⟨hvars, hprocs⟩ := resolveQualified_vars hresolved
  obtain ⟨-, -, vars, hindex1⟩ := addArgumentWord_ok hcounted
  cases h
  have htable : index2.procs.table = index.procs.table := by
    rw [hprocs, hindex1]
  refine ⟨_, counted,
    { counted with parentNamespace := resolved, id := index2.procs.table.length + 1 }, index1,
    rfl, rfl, rfl, rfl, hcounted, ?_, hvars, rfl, rfl, rfl, rfl⟩
  rw [← htable]
  rfl

theorem argumentNames_congr {proc proc' : Proc} (hvars : index'.vars = index.vars)
    (harguments : proc'.arguments = proc.arguments) :
    argumentNames index' proc' = argumentNames index proc := by
  rw [argumentNames, argumentNames, hvars, harguments]

theorem map_registered_eq_iff (specs : List Specifier) :
    specs.map Specifier.registered = specs.map Specifier.name ↔
      ∀ spec ∈ specs, spec.isName = true → spec.text.bytes = spec.name := by
  rw [List.map_inj_left]
  refine forall₂_congr fun spec _ => ?_
  unfold Specifier.registered
  cases spec.isName with
  | true => simp
  | false => simp

/-- The proc that is registered for a `proc` command has the arguments that the text of the arguments
says exactly when there is not one specifier alone, the last one is not `args`, and each name without
a default is written as it is. -/
theorem registered_arguments_iff (hfile : context.file = makeSourceFile fileName contents)
    {parse : TclParse} {i j : Nat} {word : Word} {specs : List Specifier}
    (hi : i < parse.tokens.length)
    (hword : parseWord nested context parse.tokens (ParseCommand.fuel parse) i = .ok (word, j))
    (hspecs : ArgumentList interp context.file word specs) :
    ∃ args, ParseCommand.parseArgs interp nested context parse i = .ok (args, j) ∧
      ∀ index ns words index', words[2]? = some args → addProcToIndex index ns words = .ok index' →
        ∃ proc, index'.procs.table = index.procs.table ++ [proc] ∧
          (CountsArguments index' proc specs ↔ specs.length ≠ 1 ∧ endsInArgs specs = false ∧
            ∀ spec ∈ specs, spec.isName = true → spec.text.bytes = spec.name) := by
  obtain ⟨args, hargs, hone, hlist⟩ := parseArgs_specifiers hfile hi hword hspecs
  refine ⟨args, hargs, fun index ns words index' hwords hadd => ?_⟩
  obtain ⟨start, counted, registered, index1, hstart, hrequired, hoptional, hvariadic, hcounted, htable,
    hvars, harguments', hrequired', hoptional', hvariadic'⟩ := addProcToIndex_registers hwords hadd
  refine ⟨registered, htable, ?_⟩
  have hnames := argumentNames_congr hvars harguments'
  have hnil : ∀ index : Index, argumentNames index start = .ok [] := by
    intro index
    rw [argumentNames, hstart]
    rfl
  unfold addArgumentWord at hcounted
  by_cases hlength : specs.length = 1
  · -- the word is no list, and nothing is read off it
    rw [if_neg (hone hlength)] at hcounted
    cases hcounted
    refine iff_of_false (fun h => ?_) fun h => h.1 hlength
    have hempty := h.names
    rw [hnames, hnil] at hempty
    have hzero := congrArg List.length (Except.ok.inj hempty)
    rw [List.length_map, hlength] at hzero
    cases hzero
  · obtain ⟨htype, vec, hdata, hvec⟩ := hlist hlength
    rw [if_pos htype, hdata] at hcounted
    obtain ⟨h1, h2, h3, h4⟩ := addArguments_specifiers hvec
      (fun spec hspec => (hspecs.specifier spec hspec).2) (hnil index) hcounted
    rw [List.nil_append] at h1
    rw [hoptional, Nat.zero_add] at h2
    rw [hrequired, Nat.zero_add] at h3
    rw [hvariadic] at h4
    constructor
    · intro h
      have hargs := h.isVariadic
      rw [hvariadic', h4] at hargs
      have hmap := h.names
      rw [hnames, h1] at hmap
      exact ⟨hlength, hargs.symm, (map_registered_eq_iff specs).mp (Except.ok.inj hmap)⟩
    · rintro ⟨-, hargs, hwritten⟩
      refine ⟨?_, ?_, ?_, ?_⟩
      · rw [hnames, h1, (map_registered_eq_iff specs).mpr hwritten]
      · rw [hoptional', h2]
      · rw [hvariadic', h4, hargs]
      · rw [hrequired', h3, hargs]
        rfl

/-- A name alone. -/
theorem listElements_name {interp : TclInterp} {file : SourceFile} {list length : Nat}
    (hpos : 0 < length)
    (hname : interp.findElement (file.view list length) = some ⟨list, list + length, length⟩)
    (hend : interp.findElement (file.view (list + length) 0) =
      some ⟨list + length, list + length, 0⟩) :
    ListElements interp file list length [file.view list length] := by
  have hlast : ListElements interp file (list + length) (list + length - (list + length)) [] := by
    rw [Nat.sub_self]
    exact .last hend le_rfl le_rfl rfl
  exact .element hname le_rfl (Nat.lt_add_of_pos_right hpos) le_rfl (Nat.lt_add_of_pos_right hpos)
    le_rfl hlast

/-! ## A last argument `args` -/

/-- The file `proc f {a args} {}`. -/
def lastArgs : SourceFile := makeSourceFile [] (bytes "proc f {a args} {}")

def lastArgsParse : TclParse :=
  { commandStart := 0, commandSize := 18, commentSize := 0, numWords := 4, tokens :=
    [⟨.SIMPLE_WORD, 0, 4, 1⟩, ⟨.TEXT, 0, 4, 0⟩, ⟨.SIMPLE_WORD, 5, 1, 1⟩, ⟨.TEXT, 5, 1, 0⟩,
      ⟨.SIMPLE_WORD, 7, 8, 1⟩, ⟨.TEXT, 8, 6, 0⟩, ⟨.SIMPLE_WORD, 16, 2, 1⟩, ⟨.TEXT, 17, 0, 0⟩] }

/-- The Tcl library on that file. -/
def lastArgsInterp : TclInterp where
  parseCommand view := if view = lastArgs.view 0 18 then some lastArgsParse else none
  findElement view :=
    if view = lastArgs.view 8 6 then some { element := 8, next := 10, size := 1 }
    else if view = lastArgs.view 8 1 then some { element := 8, next := 9, size := 1 }
    else if view = lastArgs.view 10 4 then some { element := 10, next := 14, size := 4 }
    else if view.bytes = [] then some { element := view.data, next := view.data, size := 0 }
    else none

def lastArgsSpecs : List Specifier :=
  [{ text := lastArgs.view 8 1, elements := [lastArgs.view 8 1] },
    { text := lastArgs.view 10 4, elements := [lastArgs.view 10 4] }]

def lastArgsWords : List Word :=
  [textWord 0 "proc", textWord 5 "f",
    listWord 8 "a args" [textWord 8 "a", textWord 10 "args"], scriptWord 17 "" []]

def lastArgsTree : Script :=
  { location := lineLocation 0
    commands := [{ type := .PROC, words := lastArgsWords, ns := [] }] }

theorem lastArgs_parsed : parseScript lastArgsInterp { file := lastArgs, curNs := [] }
    (lastArgs.view 0 18) = .ok lastArgsTree :=
  rfl

theorem lastArgs_list : ArgumentList lastArgsInterp lastArgs (textWord 8 "a args") lastArgsSpecs := by
  have ha : ListElements lastArgsInterp lastArgs 8 1 [lastArgs.view 8 1] :=
    listElements_name (by decide) rfl rfl
  have hargs : ListElements lastArgsInterp lastArgs 10 4 [lastArgs.view 10 4] :=
    listElements_name (by decide) rfl rfl
  have hlist : ListElements lastArgsInterp lastArgs 8 6 [lastArgs.view 8 1, lastArgs.view 10 4] :=
    @ListElements.element _ _ 8 6 ⟨8, 10, 1⟩ _ rfl (by decide) (by decide) (by decide) (by decide)
      (by decide) hargs
  refine ⟨hlist, fun spec hspec => ?_⟩
  rcases List.mem_pair.mp hspec with rfl | rfl
  · exact ⟨ha, .inl rfl⟩
  · exact ⟨hargs, .inl rfl⟩

/-- The proc registered for that file. -/
def lastArgsProc : Proc :=
  { id := 1, name := bytes "f", arguments := [1, 2], isVariadic := false, requiredArgs := 2,
    optionalArgs := 0, parentNamespace := 1 }

/-- The proc is not variadic and requires an argument `args`. -/
theorem lastArgs_not_variadic :
    parseScript lastArgsInterp { file := lastArgs, curNs := [] } (lastArgs.view 0 18) =
      .ok lastArgsTree ∧
    ArgumentList lastArgsInterp lastArgs (textWord 8 "a args") lastArgsSpecs ∧
    ∃ index, addProcToIndex makeIndex 1 lastArgsWords = .ok index ∧
      index.procs.table = [lastArgsProc] ∧ lastArgsProc.isVariadic = false ∧
      lastArgsProc.requiredArgs = 2 ∧ ¬ CountsArguments index lastArgsProc lastArgsSpecs := by
  refine ⟨lastArgs_parsed, lastArgs_list, _, rfl, rfl, rfl, rfl, fun h => ?_⟩
  have hvariadic := h.isVariadic
  revert hvariadic
  decide +kernel

/-- The file `proc f {a b} {}`. -/
def plainArgs : SourceFile := makeSourceFile [] (bytes "proc f {a b} {}")

def plainArgsParse : TclParse :=
  { commandStart := 0, commandSize := 15, commentSize := 0, numWords := 4, tokens :=
    [⟨.SIMPLE_WORD, 0, 4, 1⟩, ⟨.TEXT, 0, 4, 0⟩, ⟨.SIMPLE_WORD, 5, 1, 1⟩, ⟨.TEXT, 5, 1, 0⟩,
      ⟨.SIMPLE_WORD, 7, 5, 1⟩, ⟨.TEXT, 8, 3, 0⟩, ⟨.SIMPLE_WORD, 13, 2, 1⟩, ⟨.TEXT, 14, 0, 0⟩] }

def plainArgsInterp : TclInterp where
  parseCommand view := if view = plainArgs.view 0 15 then some plainArgsParse else none
  findElement view :=
    if view = plainArgs.view 8 3 then some { element := 8, next := 10, size := 1 }
    else if view.bytes = [] then some { element := view.data, next := view.data, size := 0 }
    else some { element := view.data, next := view.last, size := view.bytes.length }

def plainArgsSpecs : List Specifier :=
  [{ text := plainArgs.view 8 1, elements := [plainArgs.view 8 1] },
    { text := plainArgs.view 10 1, elements := [plainArgs.view 10 1] }]

theorem plainArgs_list :
    ArgumentList plainArgsInterp plainArgs (textWord 8 "a b") plainArgsSpecs := by
  have ha : ListElements plainArgsInterp plainArgs 8 1 [plainArgs.view 8 1] :=
    listElements_name (by decide) rfl rfl
  have hb : ListElements plainArgsInterp plainArgs 10 1 [plainArgs.view 10 1] :=
    listElements_name (by decide) rfl rfl
  have hlist : ListElements plainArgsInterp plainArgs 8 3 [plainArgs.view 8 1, plainArgs.view 10 1] :=
    @ListElements.element _ _ 8 3 ⟨8, 10, 1⟩ _ rfl (by decide) (by decide) (by decide) (by decide)
      (by decide) hb
  refine ⟨hlist, fun spec hspec => ?_⟩
  rcases List.mem_pair.mp hspec with rfl | rfl
  · exact ⟨ha, .inl rfl⟩
  · exact ⟨hb, .inl rfl⟩

/-- For `proc f {a b} {}` the proc has the arguments that the text says. -/
theorem lastArgs_arguments_iff :
    (∃ args index proc,
      ParseCommand.parseArgs lastArgsInterp (parseScript lastArgsInterp)
        { file := lastArgs, curNs := [] } lastArgsParse 4 = .ok (args, 6) ∧
      addProcToIndex makeIndex 1 [textWord 0 "proc", textWord 5 "f", args, scriptWord 17 "" []] =
        .ok index ∧
      index.procs.table = [proc] ∧
      (CountsArguments index proc lastArgsSpecs ↔ lastArgsSpecs.length ≠ 1 ∧
        endsInArgs lastArgsSpecs = false ∧
        ∀ spec ∈ lastArgsSpecs, spec.isName = true → spec.text.bytes = spec.name)) ∧
    ∃ args index proc,
      ParseCommand.parseArgs plainArgsInterp (parseScript plainArgsInterp)
        { file := plainArgs, curNs := [] } plainArgsParse 4 = .ok (args, 6) ∧
      addProcToIndex makeIndex 1 [textWord 0 "proc", textWord 5 "f", args, scriptWord 14 "" []] =
        .ok index ∧
      index.procs.table = [proc] ∧ CountsArguments index proc plainArgsSpecs := by
  constructor
  · have hword : parseWord (parseScript lastArgsInterp) { file := lastArgs, curNs := [] }
        lastArgsParse.tokens (ParseCommand.fuel lastArgsParse) 4 = .ok (textWord 8 "a args", 6) := rfl
    obtain ⟨args, hargs, h⟩ := registered_arguments_iff rfl (by decide) hword lastArgs_list
    have hparsed : ParseCommand.parseArgs lastArgsInterp (parseScript lastArgsInterp)
        { file := lastArgs, curNs := [] } lastArgsParse 4 =
        .ok (listWord 8 "a args" [textWord 8 "a", textWord 10 "args"], 6) := rfl
    cases hparsed.symm.trans hargs
    obtain ⟨proc, htable, hiff⟩ := h makeIndex 1 lastArgsWords _ rfl rfl
    exact ⟨_, _, proc, hparsed, rfl, htable, hiff⟩
  · have hword : parseWord (parseScript plainArgsInterp) { file := plainArgs, curNs := [] }
        plainArgsParse.tokens (ParseCommand.fuel plainArgsParse) 4 = .ok (textWord 8 "a b", 6) := rfl
    obtain ⟨args, hargs, h⟩ := registered_arguments_iff rfl (by decide) hword plainArgs_list
    have hparsed : ParseCommand.parseArgs plainArgsInterp (parseScript plainArgsInterp)
        { file := plainArgs, curNs := [] } plainArgsParse 4 =
        .ok (listWord 8 "a b" [textWord 8 "a", textWord 10 "b"], 6) := rfl
    cases hparsed.symm.trans hargs
    obtain ⟨proc, htable, hiff⟩ := h makeIndex 1 [textWord 0 "proc", textWord 5 "f",
      listWord 8 "a b" [textWord 8 "a", textWord 10 "b"], scriptWord 14 "" []] _ rfl rfl
    exact ⟨_, _, proc, hparsed, rfl, htable, hiff.mpr (by decide)⟩

end TclAnalyzer
