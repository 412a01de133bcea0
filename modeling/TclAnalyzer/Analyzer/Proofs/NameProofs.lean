import Mathlib.Data.List.Chain
import TclAnalyzer.Analyzer.NamespaceStrings

/-!
# Splitting and joining names

`SplitPath` undoes `pathString`, up to colons next to separators, and `SplitName` cuts a name at its
last separator.
-/

namespace TclAnalyzer

@[simp] theorem pathString_nil : pathString [] = [] := rfl

@[simp] theorem pathString_cons (component : Str) (path : Path) :
    pathString (component :: path) = separator ++ component ++ pathString path := rfl

@[simp] theorem pathString_append (path path' : Path) :
    pathString (path ++ path') = pathString path ++ pathString path' := by
  simp [pathString]

@[simp] theorem separator_length : separator.length = 2 := rfl

theorem separator_prefix_pathString {path : Path} (h : path ≠ []) :
    separator <+: pathString path := by
  cases path with
  | nil => exact absurd rfl h
  | cons component path =>
    rw [pathString_cons, List.append_assoc]
    exact List.prefix_append _ _

theorem pathString_eq_intercalate {path : Path} (h : path ≠ []) :
    pathString path = separator ++ separator.intercalate path := by
  induction path with
  | nil => exact absurd rfl h
  | cons component path ih =>
    cases path with
    | nil => simp
    | cons next path =>
      rw [pathString_cons, ih (List.cons_ne_nil _ _), List.intercalate_cons_cons]
      simp

/-! ## `SplitPath` -/

/-- Putting the components back together gives the path that was split. -/
theorem pathString_splitPathFrom (component s : Str) :
    pathString (splitPathFrom component s) = separator ++ component ++ s := by
  fun_induction splitPathFrom component s with
  | case1 component => simp
  | case2 component c => simp
  | case3 component c d rest h ih =>
    obtain ⟨rfl, rfl⟩ := h
    rw [pathString_cons, ih]
    simp [separator]
  | case4 component c d rest h ih =>
    rw [ih]
    simp

theorem pathString_splitPath (s : Str) : pathString (splitPath s) = separator ++ s := by
  have h := pathString_splitPathFrom [] s
  rwa [List.append_nil] at h

/-- The components of a path that was split: no separators in them, and only the last one may end
with a colon. -/
def Splits (path : Path) : Prop :=
  (∀ component ∈ path, SeparatorFree component) ∧
    ∀ component ∈ path.dropLast, component.getLast? ≠ some colon

theorem separatorFree_concat {s : Str} {c d : UInt8} (h : SeparatorFree (s ++ [c]))
    (hcd : ¬(c = colon ∧ d = colon)) : SeparatorFree (s ++ [c] ++ [d]) := by
  refine List.isChain_append.mpr ⟨h, .singleton d, fun x hx y hy => ?_⟩
  have hxc : x = c := by simpa using hx.symm
  have hyd : y = d := by simpa using hy.symm
  rw [hxc, hyd]
  exact hcd

theorem Splits.cons {component : Str} {path : Path} (hfree : SeparatorFree component)
    (hlast : component.getLast? ≠ some colon) (h : Splits path) (hne : path ≠ []) :
    Splits (component :: path) := by
  refine ⟨?_, ?_⟩
  · intro c hc
    rcases List.mem_cons.mp hc with rfl | hc
    · exact hfree
    · exact h.1 c hc
  · intro c hc
    rw [List.dropLast_cons_of_ne_nil hne] at hc
    rcases List.mem_cons.mp hc with rfl | hc
    · exact hlast
    · exact h.2 c hc

theorem splitPathFrom_ne_nil (component s : Str) : splitPathFrom component s ≠ [] := by
  fun_induction splitPathFrom component s with
  | case1 | case2 | case3 => exact List.cons_ne_nil _ _
  | case4 component c d rest h ih => exact ih

/-- The component read so far and the next byte have no separator in them. -/
theorem splits_splitPathFrom (component s : Str) (h : SeparatorFree (component ++ s.take 1)) :
    Splits (splitPathFrom component s) := by
  fun_induction splitPathFrom component s with
  | case1 component =>
    rw [List.take_nil, List.append_nil] at h
    exact ⟨by simpa using h, by simp⟩
  | case2 component c => exact ⟨by simpa using h, by simp⟩
  | case3 component c d rest hsep ih =>
    obtain ⟨rfl, rfl⟩ := hsep
    have hchain := List.isChain_append.mp h
    have hlast : component.getLast? ≠ some colon := by
      intro hlast
      exact hchain.2.2 colon hlast colon rfl ⟨rfl, rfl⟩
    have hrest : SeparatorFree ([] ++ rest.take 1) := by
      cases rest with
      | nil => exact .nil
      | cons e rest => exact .singleton e
    exact (ih hrest).cons hchain.1 hlast (splitPathFrom_ne_nil _ _)
  | case4 component c d rest hsep ih => exact ih (separatorFree_concat h hsep)

theorem splits_splitPath (s : Str) : Splits (splitPath s) := by
  refine splits_splitPathFrom [] s ?_
  cases s with
  | nil => exact .nil
  | cons c s => exact .singleton c

/-- Without a separator there is one component. -/
theorem splitPathFrom_of_free (component : Str) {s : Str} (h : SeparatorFree s) :
    splitPathFrom component s = [component ++ s] := by
  fun_induction splitPathFrom component s with
  | case1 component => simp
  | case2 component c => rfl
  | case3 component c d rest hsep ih => exact absurd hsep (List.isChain_cons_cons.mp h).1
  | case4 component c d rest hsep ih =>
    rw [ih (List.isChain_cons_cons.mp h).2]
    simp

/-- A component ends at the first separator, unless a colon stands before that. -/
theorem splitPathFrom_separator (component rest : Str) {s : Str} (h : SeparatorFree s)
    (hlast : s.getLast? ≠ some colon) :
    splitPathFrom component (s ++ separator ++ rest) = (component ++ s) :: splitPath rest := by
  induction s generalizing component with
  | nil => simp [splitPathFrom, separator, splitPath]
  | cons c s ih =>
    have hfree : SeparatorFree s := (List.isChain_cons.mp h).2
    have hstep : splitPathFrom component (c :: s ++ separator ++ rest) =
        splitPathFrom (component ++ [c]) (s ++ separator ++ rest) := by
      cases s with
      | nil =>
        have hc : c ≠ colon := by simpa using hlast
        simp [splitPathFrom, separator, hc]
      | cons d s =>
        have hcd := (List.isChain_cons_cons.mp h).1
        simp only [List.cons_append, splitPathFrom, if_neg hcd]
    have hlast' : s.getLast? ≠ some colon := by
      intro hs
      cases s with
      | nil => cases hs
      | cons d s => exact hlast (by rwa [List.getLast?_cons_cons])
    rw [hstep, ih _ hfree hlast', List.append_assoc, List.singleton_append]

/-- `SplitPath` reads back the components that it could have made. -/
theorem splitPath_pathString {path : Path} (h : Splits path) (hne : path ≠ []) :
    splitPath ((pathString path).drop 2) = path := by
  induction path with
  | nil => exact absurd rfl hne
  | cons component path ih =>
    have hdrop : (pathString (component :: path)).drop 2 = component ++ pathString path := by
      rw [pathString_cons, List.append_assoc]
      rfl
    have hfree := h.1 component List.mem_cons_self
    rw [hdrop]
    by_cases hpath : path = []
    · subst hpath
      rw [pathString_nil, List.append_nil]
      exact splitPathFrom_of_free [] hfree
    · have hdropLast : (component :: path).dropLast = component :: path.dropLast :=
        List.dropLast_cons_of_ne_nil hpath
      have hlast : component.getLast? ≠ some colon := h.2 component (by simp [hdropLast])
      have hrest : Splits path :=
        ⟨fun c hc => h.1 c (List.mem_cons_of_mem component hc),
          fun c hc => h.2 c (by simp [hdropLast, hc])⟩
      obtain ⟨rest, hrest'⟩ := separator_prefix_pathString hpath
      have hstring : pathString path = separator ++ (pathString path).drop 2 := by
        rw [← hrest']
        rfl
      rw [hstring, ← List.append_assoc, splitPath, splitPathFrom_separator [] _ hfree hlast,
        ih hrest hpath]
      rfl

/-! ## The last separator -/

theorem rfindSeparator_eq_none {s : Str} : rfindSeparator s = none ↔ SeparatorFree s := by
  fun_induction rfindSeparator s with
  | case1 => simp [SeparatorFree]
  | case2 c => simp [SeparatorFree]
  | case3 c d rest pos hpos ih =>
    have hnot : ¬SeparatorFree (d :: rest) := fun h => by simp [hpos] at ih; exact ih h
    have hnot' : ¬SeparatorFree (c :: d :: rest) := fun h => hnot (List.isChain_cons_cons.mp h).2
    simp [hnot']
  | case4 c d rest hnone hsep ih =>
    have hnot : ¬SeparatorFree (c :: d :: rest) := fun h => (List.isChain_cons_cons.mp h).1 hsep
    simp [hnot]
  | case5 c d rest hnone hsep ih =>
    have hfree : SeparatorFree (d :: rest) := ih.mp hnone
    have hfree' : SeparatorFree (c :: d :: rest) := List.isChain_cons_cons.mpr ⟨hsep, hfree⟩
    simp [hfree']

/-- The string is cut at the last separator: no separator starts after it. -/
theorem rfindSeparator_eq_some {s : Str} {pos : Nat} (h : rfindSeparator s = some pos) :
    s = s.take pos ++ separator ++ s.drop (pos + 2) ∧
      SeparatorFree (colon :: s.drop (pos + 2)) ∧ pos + 2 ≤ s.length := by
  fun_induction rfindSeparator s generalizing pos with
  | case1 => cases h
  | case2 c => cases h
  | case3 c d rest pos' hpos ih =>
    cases h
    obtain ⟨heq, hfree, hlen⟩ := ih hpos
    refine ⟨?_, hfree, ?_⟩
    · show c :: d :: rest = c :: (d :: rest).take pos' ++ separator ++ (d :: rest).drop (pos' + 2)
      rw [List.cons_append, List.cons_append, ← heq]
    · rw [List.length_cons]
      omega
  | case4 c d rest hnone hsep ih =>
    cases h
    obtain ⟨rfl, rfl⟩ := hsep
    have hfree := rfindSeparator_eq_none.mp hnone
    exact ⟨rfl, hfree, by simp⟩
  | case5 c d rest hnone hsep ih => cases h

theorem rfindSeparator_append (a b : Str) (h : SeparatorFree (colon :: b)) :
    rfindSeparator (a ++ separator ++ b) = some a.length := by
  induction a with
  | nil =>
    have hnone : rfindSeparator (colon :: b) = none := rfindSeparator_eq_none.mpr h
    simp [separator, rfindSeparator, hnone]
  | cons c a ih =>
    obtain ⟨d, rest, hd⟩ : ∃ d rest, a ++ separator ++ b = d :: rest := by
      cases a with
      | nil => exact ⟨colon, colon :: b, rfl⟩
      | cons d a => exact ⟨d, a ++ separator ++ b, rfl⟩
    rw [hd] at ih
    have hcons : c :: a ++ separator ++ b = c :: d :: rest := by
      rw [List.cons_append, List.cons_append, hd]
    rw [hcons, rfindSeparator, ih]
    rfl

/-! ## `SplitName` -/

theorem splitName_free {s : Str} (h : SeparatorFree s) (hne : s ≠ []) :
    splitName s = { ns := none, name := s, absolute := false } := by
  have hnone : rfindSeparator s = none := rfindSeparator_eq_none.mpr h
  simp [splitName, hne, hnone]

/-- A name with text before or after its last separator. -/
theorem splitName_append {ns name : Str} (h : SeparatorFree (colon :: name))
    (hne : ns ≠ [] ∨ name ≠ []) : splitName (ns ++ separator ++ name) =
      { ns := some ns, name, absolute := decide ((ns ++ separator).take 2 = separator) } := by
  have hpos := rfindSeparator_append ns name h
  have hlen : (ns ++ separator ++ name).length > 2 := by
    rcases hne with hne | hne
    · have := List.length_pos_iff.mpr hne
      simp only [List.length_append, separator_length]
      omega
    · have := List.length_pos_iff.mpr hne
      simp only [List.length_append, separator_length]
      omega
  have hnil : ns ++ separator ++ name ≠ [] := by
    intro hnil
    rw [hnil] at hlen
    simp at hlen
  have htake : (ns ++ separator ++ name).take ns.length = ns := by simp
  have hdrop : (ns ++ separator ++ name).drop (ns.length + 2) = name := by
    have hlen' : (ns ++ separator).length = ns.length + 2 := by simp
    rw [← hlen', List.drop_left]
  have htwo : (ns ++ separator ++ name).take 2 = (ns ++ separator).take 2 :=
    List.take_append_of_le_length (by simp)
  simp only [splitName, if_neg hnil, hpos, htake, hdrop, htwo, if_pos hlen]
  split <;> simp_all

/-- What `SplitName` makes of a string. -/
theorem splitName_cases (s : Str) :
    ((s = [] ∨ s = separator) ∧ splitName s = { ns := some [], name := [], absolute := true }) ∨
    (SeparatorFree s ∧ s ≠ [] ∧ splitName s = { ns := none, name := s, absolute := false }) ∨
    ∃ ns name, s = ns ++ separator ++ name ∧ SeparatorFree (colon :: name) ∧
      (ns ≠ [] ∨ name ≠ []) := by
  by_cases hnil : s = []
  · subst hnil
    exact Or.inl ⟨Or.inl rfl, rfl⟩
  · cases hpos : rfindSeparator s with
    | none =>
      have hfree := rfindSeparator_eq_none.mp hpos
      exact Or.inr (Or.inl ⟨hfree, hnil, splitName_free hfree hnil⟩)
    | some pos =>
      obtain ⟨heq, hfree, -⟩ := rfindSeparator_eq_some hpos
      by_cases hsep : s.take pos = [] ∧ s.drop (pos + 2) = []
      · have hs : s = separator := by
          rw [heq, hsep.1, hsep.2]
          rfl
        subst hs
        exact Or.inl ⟨Or.inr rfl, rfl⟩
      · refine Or.inr (Or.inr ⟨_, _, heq, hfree, ?_⟩)
        by_cases hns : s.take pos = []
        · exact Or.inr fun hname => hsep ⟨hns, hname⟩
        · exact Or.inl hns

/-- A name is put together again from its parts. -/
theorem splitName_path {s : Str} (h : s ≠ []) : (splitName s).path = s := by
  rcases splitName_cases s with ⟨rfl | rfl, hsplit⟩ | ⟨-, -, hsplit⟩ | ⟨ns, name, rfl, hfree, hne⟩
  · exact absurd rfl h
  · rfl
  · rw [hsplit]
    rfl
  · rw [splitName_append hfree hne]
    rfl

theorem namespaceParts_absolute {qn : QualifiedName} {ns : Str} {parts : List Str}
    (hns : qn.ns = some ns) (habs : qn.absolute = true) (hne : ns ≠ [])
    (h : qn.namespaceParts = .ok parts) : 2 ≤ ns.length ∧ parts = splitPath (ns.drop 2) := by
  simp only [QualifiedName.namespaceParts, hns, habs, true_and, if_pos hne] at h
  by_cases hlen : ns.length < 2
  · rw [if_pos hlen] at h
    cases h
  · rw [if_neg hlen] at h
    cases h
    exact ⟨by omega, rfl⟩

/-- The namespace of an absolute name, as a string and as a path. -/
theorem pathString_namespaceParts {s : Str} {parts : List Str} (habs : (splitName s).absolute = true)
    (h : (splitName s).namespaceParts = .ok parts) :
    pathString parts = (splitName s).namespacePath ∧ Splits parts := by
  have hempty : Splits [] := ⟨by simp, by simp⟩
  rcases splitName_cases s with ⟨-, hsplit⟩ | ⟨-, -, hsplit⟩ | ⟨ns, name, rfl, hfree, hne⟩
  · rw [hsplit] at h ⊢
    cases h
    exact ⟨rfl, hempty⟩
  · rw [hsplit] at habs
    cases habs
  · have hsplit := splitName_append hfree hne
    rw [hsplit] at habs h ⊢
    have htake : (ns ++ separator).take 2 = separator := of_decide_eq_true habs
    by_cases hns : ns = []
    · subst hns
      cases h
      exact ⟨rfl, hempty⟩
    · obtain ⟨hlen, rfl⟩ := namespaceParts_absolute rfl habs hns h
      have hgrows : ns.take 2 = separator := by
        rwa [List.take_append_of_le_length hlen] at htake
      refine ⟨?_, splits_splitPath _⟩
      rw [pathString_splitPath, ← hgrows]
      exact List.take_append_drop 2 ns

/-- The namespace of a relative name as a path. -/
theorem namespaceParts_relative {qn : QualifiedName} {parts : List Str} (habs : qn.absolute = false)
    (h : qn.namespaceParts = .ok parts) :
    (qn.ns = none ∧ parts = []) ∨ ∃ ns, qn.ns = some ns ∧ parts = splitPath ns := by
  cases hns : qn.ns with
  | none =>
    simp only [QualifiedName.namespaceParts, hns] at h
    cases h
    exact Or.inl ⟨rfl, rfl⟩
  | some ns =>
    simp only [QualifiedName.namespaceParts, hns, habs] at h
    cases h
    exact Or.inr ⟨ns, rfl, rfl⟩

/-- An absolute name is empty or starts with a separator. -/
theorem separator_prefix_of_absolute {s : Str} (h : (splitName s).absolute = true) :
    s = [] ∨ separator <+: s := by
  rcases splitName_cases s with ⟨rfl | rfl, -⟩ | ⟨-, -, hsplit⟩ | ⟨ns, name, rfl, hfree, hne⟩
  · exact Or.inl rfl
  · exact Or.inr List.prefix_rfl
  · rw [hsplit] at h
    cases h
  · rw [splitName_append hfree hne] at h
    have htake : (ns ++ separator).take 2 = separator := of_decide_eq_true h
    have hgrows : separator <+: ns ++ separator := by
      have := List.take_prefix 2 (ns ++ separator)
      rwa [htake] at this
    exact Or.inr (hgrows.trans (List.prefix_append _ _))

/-! ## Reading a path off its string -/

theorem Names.unique {s : Str} {path path' : Path} (h : Names s path) (h' : Names s path') :
    path = path' := by
  have heq := h.2.symm.trans h'.2
  cases heq
  rfl

theorem Names.separator_prefix {s : Str} {path : Path} (h : Names s path) :
    s = [] ∨ separator <+: s :=
  separator_prefix_of_absolute h.1

theorem names_nil : Names [] [] := ⟨rfl, rfl⟩

theorem names_separator : Names separator [] := ⟨rfl, rfl⟩

/-- How a path is read off a string with text around its last separator. -/
theorem names_append_iff {ns name : Str} (hfree : SeparatorFree (colon :: name))
    (hne : ns ≠ [] ∨ name ≠ []) {path : Path} :
    Names (ns ++ separator ++ name) path ↔ ∃ parts, pathString parts = ns ∧ Splits parts ∧
      path = if name = [] then parts else parts ++ [name] := by
  have hsplit := splitName_append hfree hne
  constructor
  · rintro ⟨habs, hparts⟩
    obtain ⟨parts, hns, hpath⟩ := bind_eq_ok.mp hparts
    obtain ⟨hstring, hsplits⟩ := pathString_namespaceParts habs hns
    rw [hsplit] at hstring hpath
    cases hpath
    exact ⟨parts, hstring, hsplits, rfl⟩
  · rintro ⟨parts, rfl, hsplits, rfl⟩
    have habs : (pathString parts ++ separator).take 2 = separator := by
      cases parts with
      | nil => rfl
      | cons component parts => rfl
    have hparts : (splitName (pathString parts ++ separator ++ name)).namespaceParts = .ok parts := by
      rw [hsplit]
      by_cases hnil : parts = []
      · subst hnil
        rfl
      · obtain ⟨rest, hrest⟩ := separator_prefix_pathString hnil
        have hlen : ¬(pathString parts).length < 2 := by
          rw [← hrest, List.length_append, separator_length]
          omega
        have hstring : pathString parts ≠ [] := by
          intro hstring
          rw [hstring] at hlen
          exact hlen (by decide)
        simp [QualifiedName.namespaceParts, habs, hstring, hlen,
          splitPath_pathString hsplits hnil]
    refine ⟨by rw [hsplit]; simpa using habs, ?_⟩
    rw [QualifiedName.parts, hparts, hsplit]
    rfl

/-- A string is at least as long as the one for the path it names. -/
theorem Names.pathString_prefix {s : Str} {path : Path} (h : Names s path) : pathString path <+: s := by
  rcases splitName_cases s with ⟨hs, -⟩ | ⟨-, -, hsplit⟩ | ⟨ns, name, rfl, hfree, hne⟩
  · have hpath : path = [] := by
      rcases hs with rfl | rfl
      · exact h.unique names_nil
      · exact h.unique names_separator
    rw [hpath]
    exact List.nil_prefix
  · rw [Names, hsplit] at h
    exact absurd h.1 (by simp)
  · obtain ⟨parts, rfl, -, rfl⟩ := (names_append_iff hfree hne).mp h
    by_cases hname : name = []
    · rw [if_pos hname, List.append_assoc]
      exact List.prefix_append _ _
    · refine ⟨[], ?_⟩
      rw [if_neg hname, pathString_append, pathString_cons, pathString_nil, List.append_nil,
        List.append_nil, List.append_assoc]

theorem separatorFree_colon {s : Str} :
    SeparatorFree (colon :: s) ↔ s.head? ≠ some colon ∧ SeparatorFree s := by
  rw [SeparatorFree, List.isChain_cons]
  refine and_congr_left fun _ => ⟨fun h hs => h colon hs ⟨rfl, rfl⟩, ?_⟩
  rintro h d hd ⟨-, rfl⟩
  exact h hd

/-- The string for a path is read as that path exactly when the path is readable. -/
theorem names_pathString_iff {path : Path} (hfree : ∀ component ∈ path, SeparatorFree component) :
    Names (pathString path) path ↔ readable path := by
  rcases List.eq_nil_or_concat path with rfl | ⟨init, last, rfl⟩
  · exact ⟨fun _ => ⟨by simp, by simp⟩, fun _ => names_nil⟩
  · rw [List.concat_eq_append] at hfree ⊢
    have hinit : ∀ component ∈ init, SeparatorFree component := fun c hc => hfree c (by simp [hc])
    have hlast : SeparatorFree last := hfree last (by simp)
    have hstring : pathString (init ++ [last]) = pathString init ++ separator ++ last := by
      simp
    have hreadable : readable (init ++ [last]) ↔
        (last ≠ [] ∧ last.head? ≠ some colon) ∧ Splits init := by
      simp only [readable, Splits, List.dropLast_concat, List.getLast?_concat, Option.mem_some]
      exact ⟨fun h => ⟨h.1 last rfl, hinit, h.2⟩, fun h => ⟨fun _ hl => hl ▸ h.1, h.2.2⟩⟩
    rw [hreadable, hstring]
    constructor
    · intro h
      rcases splitName_cases (pathString init ++ separator ++ last) with
        ⟨hs, -⟩ | ⟨-, -, hsplit⟩ | ⟨ns, name, heq, hname, hne⟩
      · have hpath : init ++ [last] = [] := by
          rcases hs with hs | hs <;> rw [hs] at h
          · exact h.unique names_nil
          · exact h.unique names_separator
        simp at hpath
      · rw [Names, hsplit] at h
        exact absurd h.1 (by simp)
      · rw [heq] at h
        obtain ⟨parts, rfl, hsplits, hpath⟩ := (names_append_iff hname hne).mp h
        by_cases hnil : name = []
        · -- the string for the path has no separator at its end
          rw [if_pos hnil] at hpath
          rw [← hstring, hpath, hnil] at heq
          have hlen := congrArg List.length heq
          simp at hlen
        · rw [if_neg hnil] at hpath
          obtain ⟨rfl, hlast'⟩ := List.append_inj' hpath rfl
          cases hlast'
          exact ⟨⟨hnil, (separatorFree_colon.mp hname).1⟩, hsplits⟩
    · rintro ⟨⟨hne, hcolon⟩, hsplits⟩
      have hsep : SeparatorFree (colon :: last) := separatorFree_colon.mpr ⟨hcolon, hlast⟩
      exact (names_append_iff hsep (Or.inr hne)).mpr ⟨init, rfl, hsplits, by rw [if_neg hne]⟩

/-! ## Names without parts -/

theorem separatorFree_iff {s : Str} : SeparatorFree s ↔ ¬ separator <:+: s := by
  rw [SeparatorFree, List.isChain_iff_forall_rel_of_append_cons_cons]
  constructor
  · rintro h ⟨before, after, rfl⟩
    exact h (by rw [separator, List.append_assoc]; rfl) ⟨rfl, rfl⟩
  · rintro h c d before after rfl ⟨rfl, rfl⟩
    exact h ⟨before, after, by rw [separator, List.append_assoc]; rfl⟩

theorem hasParts_iff {s : Str} : HasParts s ↔ ∃ parts, (splitName s).namespaceParts = .ok parts := by
  constructor
  · intro h
    rcases splitName_cases s with ⟨-, hsplit⟩ | ⟨-, -, hsplit⟩ | ⟨ns, name, rfl, hfree, hne⟩
    · exact ⟨[], by rw [hsplit]; rfl⟩
    · exact ⟨[], by rw [hsplit]; rfl⟩
    · rw [splitName_append hfree hne]
      unfold QualifiedName.namespaceParts
      dsimp only
      split_ifs with habs hshort
      · -- the string before the last separator is a single colon
        obtain ⟨c, rfl⟩ : ∃ c, ns = [c] := by
          refine List.length_eq_one_iff.mp ?_
          have hpos := List.length_pos_iff.mpr habs.2
          omega
        have hcolon : c = colon := (List.cons.inj (of_decide_eq_true habs.1)).1
        subst hcolon
        exact absurd (h name rfl) (separatorFree_iff.mp hfree)
      · exact ⟨_, rfl⟩
      · exact ⟨_, rfl⟩
      · exact ⟨_, rfl⟩
  · rintro ⟨parts, hparts⟩ rest rfl
    by_contra hfree
    have hne : [colon] ≠ [] ∨ rest ≠ [] := .inl (List.cons_ne_nil _ _)
    have hsplit := splitName_append (separatorFree_iff.mpr hfree) hne
    rw [show colon :: colon :: colon :: rest = [colon] ++ separator ++ rest from rfl, hsplit] at hparts
    cases hparts

/-- Strings of fewer than three bytes have parts whatever they are. -/
theorem forall_hasParts_iff {n : Nat} : (∀ s : Str, s.length = n → HasParts s) ↔ n < 3 := by
  constructor
  · intro h
    by_contra hlong
    have hzeros : ∀ m, SeparatorFree (List.replicate m (0 : UInt8)) := by
      intro m
      rw [separatorFree_iff]
      intro hinfix
      have hmem := hinfix.subset (List.mem_cons_self : colon ∈ separator)
      exact absurd (List.eq_of_mem_replicate hmem) (by decide)
    have hcolons := h (colon :: colon :: colon :: List.replicate (n - 3) 0) (by simp; omega) _ rfl
    refine separatorFree_iff.mp (separatorFree_colon.mpr ⟨?_, hzeros _⟩) hcolons
    intro hhead
    have hmem := List.mem_of_mem_head? hhead
    exact absurd (List.eq_of_mem_replicate hmem) (by decide)
  · rintro hshort s hlength rest rfl
    simp at hlength
    omega

/-! ## Nothing is lost -/

/-- A name is cut after its last separator. -/
theorem splitName_name_separatorFree (s : Str) : SeparatorFree (splitName s).name := by
  rcases splitName_cases s with ⟨-, hsplit⟩ | ⟨hfree, -, hsplit⟩ | ⟨ns, name, rfl, hfree, hne⟩
  · rw [hsplit]
    exact .nil
  · rw [hsplit]
    exact hfree
  · rw [splitName_append hfree hne]
    exact (separatorFree_colon.mp hfree).2

theorem splitName_absolute_iff {s : Str} (h : s ≠ []) :
    (splitName s).absolute = true ↔ separator <+: s := by
  refine ⟨fun habs => (separator_prefix_of_absolute habs).resolve_left h, fun hprefix => ?_⟩
  rcases splitName_cases s with ⟨-, hsplit⟩ | ⟨hfree, -, -⟩ | ⟨ns, name, rfl, hfree, hne⟩
  · rw [hsplit]
  · exact absurd hprefix.isInfix (separatorFree_iff.mp hfree)
  · have hgrows : ns ++ separator <+: ns ++ separator ++ name := List.prefix_append _ _
    have htwo : separator <+: ns ++ separator :=
      List.prefix_of_prefix_length_le hprefix hgrows (by simp)
    rw [splitName_append hfree hne]
    exact decide_eq_true (List.prefix_iff_eq_take.mp htwo).symm

theorem intercalate_splitPath (path : Str) : separator.intercalate (splitPath path) = path := by
  have hne : splitPath path ≠ [] := splitPathFrom_ne_nil [] path
  have hjoin := pathString_splitPath path
  rw [pathString_eq_intercalate hne] at hjoin
  exact List.append_cancel_left hjoin

/-- `SplitName` and `SplitPath` lose nothing: the two parts of a name and the components of a path give
it back when they are joined, the parts after a separator hold none, and the flag tells the names that
start with one. -/
theorem splitting_lossless {s : Str} (h : s ≠ []) (path : Str) :
    ((splitName s).path = s ∧ ¬ separator <:+: (splitName s).name ∧
      ((splitName s).absolute = true ↔ separator <+: s)) ∧
    separator.intercalate (splitPath path) = path ∧
      ∀ component ∈ splitPath path, ¬ separator <:+: component := by
  have hname := separatorFree_iff.mp (splitName_name_separatorFree s)
  refine ⟨⟨splitName_path h, hname, splitName_absolute_iff h⟩, intercalate_splitPath path, ?_⟩
  intro component hmem
  exact separatorFree_iff.mp ((splits_splitPath path).1 component hmem)

/-- Separators that overlap and a single one at either end. -/
theorem overlap_lossless :
    ((splitName (bytes ":::")).path = bytes ":::" ∧ ¬ separator <:+: (splitName (bytes ":::")).name ∧
      ((splitName (bytes ":::")).absolute = true ↔ separator <+: bytes ":::")) ∧
    separator.intercalate (splitPath (bytes "::a::")) = bytes "::a::" ∧
      ∀ component ∈ splitPath (bytes "::a::"), ¬ separator <:+: component :=
  splitting_lossless (by decide) (bytes "::a::")

end TclAnalyzer
