import TclAnalyzer.Analyzer.Proofs.SplittingProofs

/-!
# `AbsPath` on names made of plain components

From the global namespace `AbsPath` puts the components of a relative name behind a separator; from
another one it puts the namespace part of the name right behind the current path, with no separator
between them.
-/

namespace TclAnalyzer

/-! ## Names put together -/

theorem Plain.append {components more : List Str} (h : Plain components) (h' : Plain more) :
    Plain (components ++ more) := by
  intro component hmem
  rcases List.mem_append.mp hmem with hmem | hmem
  · exact h component hmem
  · exact h' component hmem

theorem Plain.left {components more : List Str} (h : Plain (components ++ more)) : Plain components :=
  fun component hmem => h component (List.mem_append_left more hmem)

theorem separatorFree_of_not_mem {s : Str} (h : colon ∉ s) : SeparatorFree s := by
  induction s with
  | nil => exact .nil
  | cons c s ih =>
    refine List.isChain_cons.mpr ⟨?_, ih fun hmem => h (List.mem_cons_of_mem c hmem)⟩
    rintro d - ⟨rfl, -⟩
    exact h List.mem_cons_self

/-- A component with a colon in front of it has no separator. -/
theorem Plain.separatorFree {components : List Str} (h : Plain components) {component : Str}
    (hmem : component ∈ components) :
    SeparatorFree component ∧ SeparatorFree (colon :: component) := by
  obtain ⟨-, hcolon⟩ := h component hmem
  have hfree := separatorFree_of_not_mem hcolon
  refine ⟨hfree, separatorFree_colon.mpr ⟨fun hhead => ?_, hfree⟩⟩
  exact hcolon (List.mem_of_mem_head? hhead)

theorem Plain.readable {path : Path} (h : Plain path) : readable path := by
  refine ⟨fun last hlast => ?_, fun component hmem hlast => ?_⟩
  · obtain ⟨hne, hcolon⟩ := h last (List.mem_of_getLast? hlast)
    exact ⟨hne, fun hhead => hcolon (List.mem_of_mem_head? hhead)⟩
  · have hmem' : component ∈ path :=
      List.mem_of_mem_dropLast (List.mem_of_mem_dropLast hmem)
    exact (h component hmem').2 (List.mem_of_getLast? hlast)

/-- The string for a path of plain components is read as that path. -/
theorem Plain.names {path : Path} (h : Plain path) : Names (pathString path) path :=
  (names_pathString_iff fun _ hmem => (h.separatorFree hmem).1).mpr h.readable

theorem Plain.splitPath {path : Path} (h : Plain path) (hne : path ≠ []) :
    splitPath (separator.intercalate path) = path := by
  have hsplits : Splits path := by
    refine ⟨fun _ hmem => (h.separatorFree hmem).1, fun component hmem hlast => ?_⟩
    exact (h component (List.mem_of_mem_dropLast hmem)).2 (List.mem_of_getLast? hlast)
  have hread := splitPath_pathString hsplits hne
  rw [pathString_eq_intercalate hne] at hread
  exact hread

theorem intercalate_concat {init : List Str} (h : init ≠ []) (last : Str) :
    separator.intercalate (init ++ [last]) = separator.intercalate init ++ separator ++ last := by
  have hne : init ++ [last] ≠ [] := by simp
  have hconcat := pathString_eq_intercalate hne
  rw [pathString_append, pathString_eq_intercalate h, pathString_cons, pathString_nil,
    List.append_nil, List.append_assoc, List.append_cancel_left_eq] at hconcat
  rw [← hconcat, List.append_assoc]

theorem Plain.take_two_ne {components : List Str} (h : Plain components) (hne : components ≠ [])
    (rest : Str) : (separator.intercalate components ++ rest).take 2 ≠ separator := by
  obtain ⟨component, more, rfl⟩ := List.exists_cons_of_ne_nil hne
  obtain ⟨hcomponent, hcolon⟩ := h component List.mem_cons_self
  obtain ⟨c, tail, rfl⟩ := List.exists_cons_of_ne_nil hcomponent
  rw [List.intercalate_cons_cons_left]
  intro heq
  have hhead := congrArg List.head? heq
  rw [List.head?_take] at hhead
  simp [separator] at hhead
  exact hcolon (hhead ▸ List.mem_cons_self)

/-! ## `SplitName` on such names -/

theorem splitName_absolute {init : Path} {last : Str} (h : Plain (init ++ [last])) :
    splitName (nameOf true (init ++ [last])) =
      { ns := some (pathString init), name := last, absolute := true } := by
  have hfree := (h.separatorFree (List.mem_append_right init List.mem_cons_self)).2
  have hlast := (h last (List.mem_append_right init List.mem_cons_self)).1
  have hname : nameOf true (init ++ [last]) = pathString init ++ separator ++ last := by
    rw [nameOf, if_pos rfl, ← pathString_eq_intercalate (by simp), pathString_append]
    simp
  have habs : (pathString init ++ separator).take 2 = separator := by
    cases init with
    | nil => rfl
    | cons component init => rfl
  rw [hname, splitName_append hfree (.inr hlast), decide_eq_true habs]

theorem splitName_single {name : Str} (h : Plain [name]) :
    splitName (nameOf false [name]) = { ns := none, name, absolute := false } := by
  rw [nameOf, List.intercalate_singleton]
  exact splitName_free (h.separatorFree List.mem_cons_self).1 (h name List.mem_cons_self).1

theorem splitName_relative {init : Path} {last : Str} (h : Plain (init ++ [last])) (hne : init ≠ []) :
    splitName (nameOf false (init ++ [last])) =
      { ns := some (separator.intercalate init), name := last, absolute := false } := by
  have hfree := (h.separatorFree (List.mem_append_right init List.mem_cons_self)).2
  have hlast := (h last (List.mem_append_right init List.mem_cons_self)).1
  have hname : nameOf false (init ++ [last]) = separator.intercalate init ++ separator ++ last := by
    rw [nameOf, intercalate_concat hne]
    rfl
  rw [hname, splitName_append hfree (.inr hlast), decide_eq_false (h.left.take_two_ne hne separator)]

theorem nameOf_parts (h : Plain components) :
    (splitName (nameOf true components)).absolute = true ∧
      (splitName (nameOf true components)).parts = .ok components := by
  by_cases hne : components = []
  · subst hne
    exact ⟨rfl, rfl⟩
  · have hname : nameOf true components = pathString components :=
      (pathString_eq_intercalate hne).symm
    rw [hname]
    exact h.names

/-- The parts of a plain name are its components but the last. -/
theorem namespaceParts_nameOf {init : Path} {last : Str} (h : Plain (init ++ [last]))
    (absolute : Bool) : (splitName (nameOf absolute (init ++ [last]))).namespaceParts = .ok init ∧
      (splitName (nameOf absolute (init ++ [last]))).absolute = absolute ∧
      (splitName (nameOf absolute (init ++ [last]))).name = last := by
  cases absolute with
  | true =>
    obtain ⟨-, hall⟩ := nameOf_parts h
    obtain ⟨parts, hparts, hall⟩ := bind_eq_ok.mp hall
    rw [splitName_absolute h] at hparts hall ⊢
    have hne : last ≠ [] := (h last (List.mem_append_right init List.mem_cons_self)).1
    rw [if_neg hne] at hall
    rw [hparts, List.append_cancel_right (Except.ok.inj hall)]
    exact ⟨rfl, rfl, rfl⟩
  | false =>
    by_cases hne : init = []
    · subst hne
      rw [List.nil_append, splitName_single h]
      exact ⟨rfl, rfl, rfl⟩
    · rw [splitName_relative h hne]
      refine ⟨?_, rfl, rfl⟩
      show Except.ok (splitPath (separator.intercalate init)) = .ok init
      rw [h.left.splitPath hne]

/-! ## `AbsPath` -/

variable {cur init components outer inner : Path} {last : Str} {absolute : Bool}

/-- What `AbsPath` puts before the components: only the current path when there are several and the
current path is not empty. -/
def lead (current : Str) (absolute : Bool) (components : List Str) : Str :=
  if absolute then separator
  else if components.length = 1 then current ++ separator
  else if current = [] then separator else current

theorem enter_absolute (h : Plain (init ++ [last])) (current : Str) :
    enter current true (init ++ [last]) =
      { ns := some (pathString init), name := last, absolute := true } := by
  rw [enter, splitName_absolute h]
  rfl

theorem enter_single (h : Plain [last]) (current : Str) :
    enter current false [last] = { ns := some current, name := last, absolute := false } := by
  rw [enter, splitName_single h, QualifiedName.absPath, if_neg Bool.false_ne_true]
  by_cases hcurrent : current = []
  · rw [if_pos hcurrent, hcurrent]
  · rw [if_neg hcurrent]
    simp

/-- A name with a namespace part: behind a separator in the global namespace, and glued to the current
path elsewhere. -/
theorem enter_relative (h : Plain (init ++ [last])) (hne : init ≠ []) (current : Str) :
    enter current false (init ++ [last]) =
      { ns := some ((if current = [] then separator else current) ++ separator.intercalate init)
        name := last, absolute := false } := by
  rw [enter, splitName_relative h hne, QualifiedName.absPath, if_neg Bool.false_ne_true]
  by_cases hcurrent : current = []
  · rw [if_pos hcurrent, if_pos hcurrent]
  · rw [if_neg hcurrent, if_neg hcurrent]
    rfl

theorem enter_path (h : Plain components) (hne : components ≠ []) (current : Str) (absolute : Bool) :
    (enter current absolute components).path =
      lead current absolute components ++ separator.intercalate components := by
  rcases List.eq_nil_or_concat components with rfl | ⟨init, last, rfl⟩
  · exact absurd rfl hne
  rw [List.concat_eq_append] at h ⊢
  cases absolute with
  | true =>
    rw [enter_absolute h, lead, if_pos rfl, ← pathString_eq_intercalate (by simp), pathString_append,
      pathString_cons, pathString_nil, List.append_nil, ← List.append_assoc]
    rfl
  | false =>
    rw [lead, if_neg Bool.false_ne_true]
    by_cases hinit : init = []
    · subst hinit
      rw [List.nil_append] at h ⊢
      rw [enter_single h, if_pos List.length_singleton, List.intercalate_singleton]
      rfl
    · have hlength : (init ++ [last]).length ≠ 1 := by simpa using hinit
      rw [enter_relative h hinit, if_neg hlength, intercalate_concat hinit, ← List.append_assoc,
        ← List.append_assoc]
      rfl

/-- The last component of the current path and the first one of the name become one. -/
theorem pathString_glue (cur : Path) (innermost first : Str) (rest : List Str) :
    pathString (cur ++ [innermost]) ++ separator.intercalate (first :: rest) =
      pathString (cur ++ (innermost ++ first) :: rest) := by
  have hglue : separator.intercalate ((innermost ++ first) :: rest) =
      innermost ++ separator.intercalate (first :: rest) := by
    cases rest with
    | nil => simp
    | cons next rest => simp
  have hpath := pathString_eq_intercalate (List.cons_ne_nil (innermost ++ first) rest)
  rw [pathString_append, pathString_append, hpath, hglue]
  simp

theorem composes_iff (hcur : Plain cur) (h : Plain components) (hne : components ≠ []) :
    Composes cur absolute components ↔
      absolute = true ∨ components.length = 1 ∨ cur = [] := by
  have hpath := enter_path h hne (pathString cur) absolute
  rcases List.eq_nil_or_concat components with rfl | ⟨init, last, rfl⟩
  · exact absurd rfl hne
  rw [List.concat_eq_append] at h hpath ⊢
  unfold Composes
  dsimp only
  rw [hpath, lead]
  cases absolute with
  | true =>
    refine iff_of_true ?_ (.inl rfl)
    rw [if_pos rfl, if_pos rfl, ← pathString_eq_intercalate (by simp), enter_absolute h,
      List.dropLast_concat]
    exact ⟨h.names.2, h.left.names.2⟩
  | false =>
    rw [if_neg Bool.false_ne_true, if_neg Bool.false_ne_true]
    by_cases hinit : init = []
    · subst hinit
      rw [List.nil_append] at h ⊢
      refine iff_of_true ?_ (.inr (.inl rfl))
      have hstring : pathString cur ++ separator ++ separator.intercalate [last] =
          pathString (cur ++ [last]) := by simp
      rw [if_pos List.length_singleton, hstring, enter_single h, List.dropLast_concat]
      exact ⟨(hcur.append h).names.2, hcur.names.2⟩
    · have hlength : (init ++ [last]).length ≠ 1 := by simpa using hinit
      rw [if_neg hlength, enter_relative h hinit, ← List.append_assoc, List.dropLast_concat]
      rcases List.eq_nil_or_concat cur with rfl | ⟨around, innermost, rfl⟩
      · refine iff_of_true ?_ (.inr (.inr rfl))
        rw [pathString_nil, if_pos rfl, ← pathString_eq_intercalate (by simp)]
        rw [QualifiedName.namespacePath, Option.getD_some, ← pathString_eq_intercalate hinit]
        exact ⟨h.names.2, h.left.names.2⟩
      · -- one component less than there should be
        rw [List.concat_eq_append] at hcur ⊢
        refine iff_of_false ?_ (by simp [hinit])
        rintro ⟨hparts, -⟩
        have hstring : pathString (around ++ [innermost]) ≠ [] := by simp [separator]
        obtain ⟨first, rest, rfl⟩ := List.exists_cons_of_ne_nil hinit
        rw [if_neg hstring, List.cons_append, pathString_glue] at hparts
        have hglued : Plain (around ++ (innermost ++ first) :: (rest ++ [last])) := by
          intro component hmem
          rcases List.mem_append.mp hmem with hmem | hmem
          · exact hcur component (List.mem_append_left _ hmem)
          rcases List.mem_cons.mp hmem with rfl | hmem
          · obtain ⟨hinner, hcolon⟩ := hcur innermost (by simp)
            obtain ⟨-, hcolon'⟩ := h first (by simp)
            exact ⟨by simp [hinner], by simp [hcolon, hcolon']⟩
          · exact h component (List.mem_cons_of_mem first hmem)
        rw [hglued.names.2] at hparts
        have hlengths := congrArg List.length (Except.ok.inj hparts)
        simp at hlengths

/-! ## Entering one name in another -/

theorem intercalate_append (houter : outer ≠ []) (hinner : inner ≠ []) :
    separator.intercalate (outer ++ inner) =
      separator.intercalate outer ++ separator ++ separator.intercalate inner := by
  have hne : outer ++ inner ≠ [] := by simp [houter]
  have hall := pathString_eq_intercalate hne
  rw [pathString_append, pathString_eq_intercalate houter, pathString_eq_intercalate hinner,
    List.append_assoc, List.append_cancel_left_eq] at hall
  rw [← hall, List.append_assoc]

/-- A string behind another one in which a separator is put in between or not. -/
theorem append_separator_ne (s t : Str) : s ++ t ≠ s ++ separator ++ t := by
  intro heq
  have hlengths := congrArg List.length heq
  simp at hlengths

theorem entersBoth_iff (houter : Plain outer) (hne : outer ≠ []) (hinner : Plain inner)
    (hne' : inner ≠ []) : EntersBoth cur absolute outer inner ↔
      inner.length = 1 ∧ (absolute = true ∨ cur = [] ∨ 2 ≤ outer.length) := by
  have hone : 1 ≤ outer.length := List.length_pos_iff.mpr hne
  have hone' : 1 ≤ inner.length := List.length_pos_iff.mpr hne'
  have hmany : (outer ++ inner).length ≠ 1 := by
    rw [List.length_append]
    omega
  have hcur : pathString cur = [] ↔ cur = [] := by
    cases cur with
    | nil => simp
    | cons component cur => simp [separator]
  have hstart : lead (pathString cur) absolute outer ++ separator.intercalate outer ≠ [] := by
    obtain ⟨component, more, rfl⟩ := List.exists_cons_of_ne_nil hne
    obtain ⟨hcomponent, -⟩ := houter component List.mem_cons_self
    obtain ⟨c, tail, rfl⟩ := List.exists_cons_of_ne_nil hcomponent
    rw [List.intercalate_cons_cons_left]
    simp
  rw [EntersBoth, enter_path hinner hne', enter_path houter hne,
    enter_path (houter.append hinner) (by simp [hne]), intercalate_append hne hne']
  -- the second name follows the first one with a separator when it is a single component
  have hsecond :
      lead (lead (pathString cur) absolute outer ++ separator.intercalate outer) false inner =
      lead (pathString cur) absolute outer ++ separator.intercalate outer ++
        (if inner.length = 1 then separator else []) := by
    rw [lead, if_neg Bool.false_ne_true]
    by_cases hsingle : inner.length = 1
    · rw [if_pos hsingle, if_pos hsingle]
    · rw [if_neg hsingle, if_neg hsingle, if_neg hstart, List.append_nil]
  rw [hsecond]
  by_cases hlead : absolute = true ∨ cur = [] ∨ 2 ≤ outer.length
  · have hsame :
        lead (pathString cur) absolute (outer ++ inner) = lead (pathString cur) absolute outer := by
      unfold lead
      rw [if_neg hmany]
      rcases hlead with habs | hnil | htwo
      · rw [if_pos habs, if_pos habs]
      · simp only [hcur.mpr hnil, if_true, List.nil_append, ite_self]
      · have hseveral : outer.length ≠ 1 := by omega
        rw [if_neg hseveral]
    rw [hsame]
    by_cases hsingle : inner.length = 1
    · refine iff_of_true ?_ ⟨hsingle, hlead⟩
      rw [if_pos hsingle]
      simp
    · refine iff_of_false ?_ fun h => hsingle h.1
      rw [if_neg hsingle, List.append_nil, ← List.append_assoc, ← List.append_assoc]
      exact append_separator_ne _ _
  · -- the first component of the outer name is glued to the current path on one side only
    refine iff_of_false ?_ fun h => hlead h.2
    rw [not_or, not_or] at hlead
    obtain ⟨hrelative, hnot, hfew⟩ := hlead
    have hsingle : outer.length = 1 := by omega
    have hleft : lead (pathString cur) absolute outer = pathString cur ++ separator := by
      rw [lead, if_neg hrelative, if_pos hsingle]
    have hright : lead (pathString cur) absolute (outer ++ inner) = pathString cur := by
      rw [lead, if_neg hrelative, if_neg hmany, if_neg fun h => hnot (hcur.mp h)]
    rw [hleft, hright]
    intro heq
    rw [List.append_assoc, List.append_assoc, List.append_assoc, List.append_assoc,
      List.append_cancel_left_eq] at heq
    have htwo := congrArg (List.take 2) heq
    rw [List.take_append_of_le_length separator_length.ge] at htwo
    exact houter.take_two_ne hne _ htwo.symm

/-! ## The two ways to write the global namespace -/

theorem rootsAgree_iff (h : Plain components) (hne : components ≠ []) :
    RootsAgree absolute components ↔ absolute = true ∨ 2 ≤ components.length := by
  have hone : 1 ≤ components.length := List.length_pos_iff.mpr hne
  rw [RootsAgree, enter_path h hne, enter_path h hne]
  by_cases hsame : absolute = true ∨ 2 ≤ components.length
  · refine iff_of_true ?_ hsame
    have hlead : lead [] absolute components = lead separator absolute components := by
      unfold lead
      rcases hsame with habs | htwo
      · rw [if_pos habs, if_pos habs]
      · have hseveral : components.length ≠ 1 := by omega
        rw [if_neg hseveral, if_neg hseveral]
        rfl
    rw [hlead]
  · refine iff_of_false ?_ hsame
    rw [not_or] at hsame
    obtain ⟨hrelative, hfew⟩ := hsame
    have hsingle : components.length = 1 := by omega
    obtain ⟨name, rfl⟩ := List.length_eq_one_iff.mp hsingle
    have hempty : lead [] absolute [name] ++ separator.intercalate [name] = pathString [name] := by
      rw [lead, if_neg hrelative, if_pos hsingle]
      simp
    have hroot : lead separator absolute [name] ++ separator.intercalate [name] =
        pathString [[], name] := by
      rw [lead, if_neg hrelative, if_pos hsingle]
      simp
    have hnames : Names (pathString [[], name]) [[], name] := by
      refine (names_pathString_iff ?_).mpr ?_
      · intro component hmem
        rcases List.mem_cons.mp hmem with rfl | hmem
        · exact .nil
        · exact (h.separatorFree hmem).1
      · obtain ⟨hname, hcolon⟩ := h name List.mem_cons_self
        refine ⟨fun last hlast => ?_, by simp⟩
        cases hlast
        exact ⟨hname, fun hhead => hcolon (List.mem_of_mem_head? hhead)⟩
    rw [hempty, hroot, h.names.2, hnames.2]
    intro heq
    have hlengths := congrArg List.length (Except.ok.inj heq)
    simp at hlengths

/-- When the path of a name, seen from a current path, has the components it should have; when entering
a name in another one is entering both at once; and when it does not matter how the global namespace is
written. -/
theorem absPath_composes_iff (hcur : Plain cur) (h : Plain components) (hne : components ≠ [])
    (absolute : Bool) :
    (Composes cur absolute components ↔ absolute = true ∨ components.length = 1 ∨ cur = []) ∧
    (∀ inner, Plain inner → inner ≠ [] → (EntersBoth cur absolute components inner ↔
      inner.length = 1 ∧ (absolute = true ∨ cur = [] ∨ 2 ≤ components.length))) ∧
    (RootsAgree absolute components ↔ absolute = true ∨ 2 ≤ components.length) :=
  ⟨composes_iff hcur h hne, fun _ hinner hne' => entersBoth_iff h hne hinner hne',
    rootsAgree_iff h hne⟩

/-- `B::C` from `::A` is `::AB::C`; entering `B::C` in `A` is not entering `A::B::C`; and `f` from `::`
has an empty component. -/
theorem absPath_glues : Plain [bytes "A"] ∧ Plain [bytes "B", bytes "C"] ∧
    (enter (bytes "::A") false [bytes "B", bytes "C"]).path = bytes "::AB::C" ∧
    ¬ Composes [bytes "A"] false [bytes "B", bytes "C"] ∧
    ¬ EntersBoth [] false [bytes "A"] [bytes "B", bytes "C"] ∧
    ¬ RootsAgree false [bytes "f"] := by
  have hA : Plain [bytes "A"] := by decide +kernel
  have hBC : Plain [bytes "B", bytes "C"] := by decide +kernel
  have hf : Plain [bytes "f"] := by decide +kernel
  refine ⟨hA, hBC, by decide +kernel, ?_, ?_, ?_⟩
  · rw [composes_iff hA hBC (List.cons_ne_nil _ _)]
    simp
  · rw [entersBoth_iff hA (List.cons_ne_nil _ _) hBC (List.cons_ne_nil _ _)]
    simp
  · rw [rootsAgree_iff hf (List.cons_ne_nil _ _)]
    simp

/-- An absolute name composes. -/
theorem absPath_composes_glued :
    ((Composes [bytes "A"] false [bytes "B", bytes "C"] ↔
      false = true ∨ [bytes "B", bytes "C"].length = 1 ∨ [bytes "A"] = []) ∧
    (∀ inner, Plain inner → inner ≠ [] →
      (EntersBoth [bytes "A"] false [bytes "B", bytes "C"] inner ↔ inner.length = 1 ∧
        (false = true ∨ [bytes "A"] = [] ∨ 2 ≤ [bytes "B", bytes "C"].length))) ∧
    (RootsAgree false [bytes "B", bytes "C"] ↔
      false = true ∨ 2 ≤ [bytes "B", bytes "C"].length)) ∧
    Composes [bytes "A"] true [bytes "B", bytes "C"] ∧ RootsAgree true [bytes "B", bytes "C"] := by
  have hcur : Plain [bytes "A"] := by decide +kernel
  have hname : Plain [bytes "B", bytes "C"] := by decide +kernel
  obtain ⟨hcomposes, -, hroots⟩ := absPath_composes_iff hcur hname (List.cons_ne_nil _ _) true
  exact ⟨absPath_composes_iff hcur hname (List.cons_ne_nil _ _) false,
    hcomposes.mpr (.inl rfl), hroots.mpr (.inl rfl)⟩

end TclAnalyzer
