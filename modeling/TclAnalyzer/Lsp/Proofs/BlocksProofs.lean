import TclAnalyzer.Lsp.Blocks
import TclAnalyzer.Lsp.Proofs.FramingProofs

/-!
# Bodies are the content of their header blocks

The reader stands at the start of a header block whenever it starts to read lines. It takes a body
that does not follow the blank line of a block only where a bad length ends the loop over the lines
after a good one.
-/

namespace TclAnalyzer

variable {Json : Type} {lib : JsonLib Json} {str : Stream} {input rest after : Str}

/-! ## Lines -/

theorem lineBytes_append (lines others : List Str) :
    lineBytes (lines ++ others) = lineBytes lines ++ lineBytes others :=
  List.flatMap_append

theorem lineBytes_singleton (line : Str) : lineBytes [line] = line ++ [newline] :=
  List.flatMap_singleton _ line

theorem flatMap_bytes_lines (lines : List Str) :
    (lines.map Taken.line).flatMap Taken.bytes = lineBytes lines := by
  rw [List.flatMap_map]
  rfl

/-- The turn of the loop by the kind of the line. -/
theorem headerTurn_eq (contentLength : Nat) (line : Str) (h : ¬ BlankLine line) :
    headerTurn contentLength line =
      match lengthValue line with
      | none => some contentLength
      | some value => fromChars value := by
  unfold BlankLine at h
  unfold headerTurn lengthValue
  generalize line.rdropWhile (· = carriageReturn) = text at h
  dsimp only
  rw [if_neg h]
  by_cases hcolon : colon ∈ text
  · by_cases hname : (text.takeWhile (· ≠ colon)).map tolower = bytes "content-length"
    · rw [if_pos hcolon, if_neg (not_not.mpr hname), if_pos (And.intro hcolon hname)]
      split
      · rename_i hvalue
        rw [hvalue]
        rfl
      · rfl
    · rw [if_pos hcolon, if_pos hname, if_neg (fun h => hname h.2)]
  · rw [if_neg hcolon, if_neg (fun h => hcolon h.1)]

theorem lengthValue_of_blankLine {line : Str} (h : BlankLine line) : lengthValue line = none := by
  unfold BlankLine at h
  unfold lengthValue
  rw [h]
  exact if_neg (fun h => by cases h.1)

theorem headerTurn_blankLine (contentLength : Nat) {line : Str} (h : BlankLine line) :
    headerTurn contentLength line = none := by
  unfold BlankLine at h
  unfold headerTurn
  rw [h]
  rfl

theorem BadLength.not_blankLine {line : Str} (h : BadLength line) : ¬ BlankLine line := by
  obtain ⟨value, hvalue, -⟩ := h
  intro hblank
  rw [lengthValue_of_blankLine hblank] at hvalue
  cases hvalue

/-- A blank line and a bad length are the two ways out of the loop. -/
theorem headerTurn_last (contentLength : Nat) {line : Str} (h : BlankLine line ∨ BadLength line) :
    headerTurn contentLength line = none := by
  rcases h with hblank | hbad
  · exact headerTurn_blankLine contentLength hblank
  · rw [headerTurn_eq contentLength line hbad.not_blankLine]
    obtain ⟨value, hvalue, hnumber⟩ := hbad
    rw [hvalue]
    exact hnumber

theorem headerTurn_other (contentLength : Nat) {line : Str} (hblank : ¬ BlankLine line)
    (hvalue : lengthValue line = none) : headerTurn contentLength line = some contentLength := by
  rw [headerTurn_eq contentLength line hblank, hvalue]

theorem headerTurn_given (n : Nat) {line value : Str} {contentLength : Nat}
    (hvalue : lengthValue line = some value) (hnumber : fromChars value = some contentLength) :
    headerTurn n line = some contentLength := by
  have hblank : ¬ BlankLine line := by
    intro hblank
    rw [lengthValue_of_blankLine hblank] at hvalue
    cases hvalue
  rw [headerTurn_eq n line hblank, hvalue]
  exact hnumber

/-- A line ends the block, or it stands in the header. -/
theorem HeaderLines.line {lines : List Str} {n : Nat} (h : HeaderLines lines n) {line : Str}
    (hline : newline ∉ line) : (BlankLine line ∨ BadLength line) ∨
      ∃ contentLength, headerTurn n line = some contentLength ∧
        HeaderLines (lines ++ [line]) contentLength := by
  by_cases hblank : BlankLine line
  · exact .inl (.inl hblank)
  cases hvalue : lengthValue line with
  | none => exact .inr ⟨n, headerTurn_other n hblank hvalue, h.other hline hblank hvalue⟩
  | some value =>
    cases hnumber : fromChars value with
    | none => exact .inl (.inr ⟨value, hvalue, hnumber⟩)
    | some contentLength =>
      exact .inr ⟨contentLength, headerTurn_given n hvalue hnumber, h.length hline hvalue hnumber⟩

/-! ## The loop over the lines -/

theorem readHeadersTaken_line {line : Str} (h : str.rest = line ++ newline :: after)
    (hline : newline ∉ line) (fuel contentLength : Nat) : ∃ str', str'.rest = after ∧
      readHeadersTaken (fuel + 1) contentLength str =
        match headerTurn contentLength line with
        | none => ([.line line], .ok (some (contentLength, str')))
        | some contentLength =>
          (.line line :: (readHeadersTaken fuel contentLength str').1,
            (readHeadersTaken fuel contentLength str').2) := by
  obtain ⟨str1, hread, htake, hdrop⟩ := asyncReadUntil_line h hline
  refine ⟨{ str1 with buf := str1.buf.drop (line.length + 1) }, hdrop, ?_⟩
  rw [readHeadersTaken, hread]
  cases hturn : headerTurn contentLength line with
  | none => simp only [Nat.add_sub_cancel, htake, hturn]
  | some given => simp only [Nat.add_sub_cancel, htake, hturn]

theorem readHeadersTaken_end (h : newline ∉ str.rest) (fuel contentLength : Nat) :
    readHeadersTaken (fuel + 1) contentLength str = ([], .ok none) := by
  rw [readHeadersTaken, asyncReadUntil_end h]

/-- The lines of a header are taken, and the loop goes on with the length they give. -/
theorem readHeadersTaken_lines {lines : List Str} {n : Nat} (hlines : HeaderLines lines n)
    (h : str.rest = lineBytes lines ++ after) (fuel : Nat) : ∃ str', str'.rest = after ∧
      readHeadersTaken (fuel + lines.length) 0 str =
        (lines.map Taken.line ++ (readHeadersTaken fuel n str').1,
          (readHeadersTaken fuel n str').2) := by
  have hone : ∀ {lines : List Str} {n contentLength : Nat} {line : Str}, newline ∉ line →
      headerTurn n line = some contentLength →
      (∀ {after : Str} (fuel : Nat), str.rest = lineBytes lines ++ after → ∃ str',
        str'.rest = after ∧ readHeadersTaken (fuel + lines.length) 0 str =
          (lines.map Taken.line ++ (readHeadersTaken fuel n str').1,
            (readHeadersTaken fuel n str').2)) →
      ∀ {after : Str} (fuel : Nat), str.rest = lineBytes (lines ++ [line]) ++ after → ∃ str',
        str'.rest = after ∧ readHeadersTaken (fuel + (lines ++ [line]).length) 0 str =
          ((lines ++ [line]).map Taken.line ++ (readHeadersTaken fuel contentLength str').1,
            (readHeadersTaken fuel contentLength str').2) := by
    intro lines n contentLength line hline hturn ih after fuel h
    have hrest : str.rest = lineBytes lines ++ (line ++ newline :: after) := by
      rw [h, lineBytes_append, lineBytes_singleton]
      simp
    obtain ⟨str1, h1, hrun1⟩ := ih (fuel + 1) hrest
    obtain ⟨str2, h2, hrun2⟩ := readHeadersTaken_line h1 hline fuel n
    rw [hturn] at hrun2
    refine ⟨str2, h2, ?_⟩
    have hlen : fuel + (lines ++ [line]).length = fuel + 1 + lines.length := by
      rw [List.length_append, List.length_singleton]
      omega
    rw [hlen, hrun1, hrun2, List.map_append, List.map_singleton, List.append_assoc,
      List.singleton_append]
  induction hlines generalizing after fuel with
  | nil => exact ⟨str, by simpa [lineBytes] using h, rfl⟩
  | other hlines hline hblank hvalue ih =>
    exact hone hline (headerTurn_other _ hblank hvalue) (fun fuel h => ih h fuel) fuel h
  | length hlines hline hvalue hnumber ih =>
    exact hone hline (headerTurn_given _ hvalue hnumber) (fun fuel h => ih h fuel) fuel h

theorem length_lt_lineBytes (lines : List Str) : lines.length ≤ (lineBytes lines).length :=
  length_le_flatMap _ (fun line => by simp) lines

/-- A header block and the line that ends it are taken. -/
theorem readHeadersTaken_block {lines : List Str} {n : Nat} (hlines : HeaderLines lines n)
    {last : Str} (hline : newline ∉ last) (hlast : BlankLine last ∨ BadLength last)
    (h : str.rest = lineBytes (lines ++ [last]) ++ after) : ∃ str', str'.rest = after ∧
      readHeadersTaken (str.rest.length + 1) 0 str =
        ((lines ++ [last]).map Taken.line, .ok (some (n, str'))) := by
  have hrest : str.rest = lineBytes lines ++ (last ++ newline :: after) := by
    rw [h, lineBytes_append, lineBytes_singleton]
    simp
  obtain ⟨fuel, hfuel⟩ : ∃ fuel, str.rest.length + 1 = fuel + 1 + lines.length := by
    have hlen := length_lt_lineBytes lines
    refine ⟨str.rest.length - lines.length, ?_⟩
    rw [hrest, List.length_append]
    omega
  obtain ⟨str1, h1, hrun1⟩ := readHeadersTaken_lines hlines hrest (fuel + 1)
  obtain ⟨str2, h2, hrun2⟩ := readHeadersTaken_line h1 hline fuel n
  rw [headerTurn_last n hlast] at hrun2
  refine ⟨str2, h2, ?_⟩
  rw [hfuel, hrun1, hrun2, List.map_append]
  rfl

/-- A stream starts with a header: its lines go to the end of the input, or another line ends it. -/
theorem exists_headerLines (rest : Str) : ∃ lines n, HeaderLines lines n ∧
    ((∃ tail, newline ∉ tail ∧ rest = lineBytes lines ++ tail) ∨
      ∃ last after, newline ∉ last ∧ (BlankLine last ∨ BadLength last) ∧
        rest = lineBytes (lines ++ [last]) ++ after) := by
  -- the lines before are known to be of the header
  have hmore : ∀ (size : Nat) (more : Str), more.length < size → ∀ lines n, HeaderLines lines n →
      ∃ lines' n', HeaderLines lines' n' ∧
        ((∃ tail, newline ∉ tail ∧ lineBytes lines ++ more = lineBytes lines' ++ tail) ∨
          ∃ last after, newline ∉ last ∧ (BlankLine last ∨ BadLength last) ∧
            lineBytes lines ++ more = lineBytes (lines' ++ [last]) ++ after) := by
    intro size
    induction size with
    | zero => exact fun more h => absurd h (Nat.not_lt_zero _)
    | succ size ih =>
      intro more hsize lines n hlines
      by_cases hmem : newline ∈ more
      · obtain ⟨line, after, rfl, hline⟩ := List.eq_append_cons_of_mem hmem
        have hbytes : lineBytes lines ++ (line ++ newline :: after) =
            lineBytes (lines ++ [line]) ++ after := by
          rw [lineBytes_append, lineBytes_singleton]
          simp
        rcases hlines.line hline with hlast | ⟨contentLength, -, hnext⟩
        · exact ⟨lines, n, hlines, .inr ⟨line, after, hline, hlast, hbytes⟩⟩
        · have hlen : after.length < size := by
            rw [List.length_append, List.length_cons] at hsize
            omega
          rw [hbytes]
          exact ih after hlen _ _ hnext
      · exact ⟨lines, n, hlines, .inl ⟨more, hmem, rfl⟩⟩
  exact hmore (rest.length + 1) rest (Nat.lt_succ_self _) [] 0 .nil

/-! ## Header blocks and bodies -/

theorem readHeadersTaken_unended {lines : List Str} {n : Nat} (hlines : HeaderLines lines n)
    {tail : Str} (htail : newline ∉ tail) (h : str.rest = lineBytes lines ++ tail) :
    readHeadersTaken (str.rest.length + 1) 0 str = (lines.map Taken.line, .ok none) := by
  obtain ⟨fuel, hfuel⟩ : ∃ fuel, str.rest.length + 1 = fuel + 1 + lines.length := by
    have hlen := length_lt_lineBytes lines
    refine ⟨str.rest.length - lines.length, ?_⟩
    rw [h, List.length_append]
    omega
  obtain ⟨str1, h1, hrun1⟩ := readHeadersTaken_lines hlines h (fuel + 1)
  rw [hfuel, hrun1, readHeadersTaken_end (h1 ▸ htail), List.append_nil]

theorem asyncRead_short (buf : Str) {n : Nat} {chunks : List Str} (h : chunks.flatten.length < n) :
    asyncRead n buf chunks = none := by
  induction chunks generalizing buf n with
  | nil =>
    rw [asyncRead, if_neg]
    rintro rfl
    exact absurd h (Nat.not_lt_zero _)
  | cons chunk chunks ih =>
    rw [List.flatten_cons, List.length_append] at h
    rw [asyncRead, if_neg (by omega), if_pos (by omega)]
    exact ih _ (by omega)

theorem readContent_short {n : Nat} (h : str.rest.length < n) : readContent n str = none := by
  rw [Stream.rest, List.length_append] at h
  rw [readContent, if_pos (by omega)]
  exact asyncRead_short _ (by omega)

variable (lib) in
theorem readTakenFrom_unended {lines : List Str} {n : Nat} (hlines : HeaderLines lines n) {tail : Str}
    (htail : newline ∉ tail) (h : str.rest = lineBytes lines ++ tail) (fuel : Nat) :
    readTakenFrom lib (fuel + 1) str = (lines.map Taken.line, [], .ok ()) := by
  rw [readTakenFrom, readHeadersTaken_unended hlines htail h]

variable (lib) in
/-- A block without a length is skipped. -/
theorem readTakenFrom_noLength {lines : List Str} (hlines : HeaderLines lines 0) {last : Str}
    (hline : newline ∉ last) (hlast : BlankLine last ∨ BadLength last)
    (h : str.rest = lineBytes (lines ++ [last]) ++ after) (fuel : Nat) : ∃ str', str'.rest = after ∧
      readTakenFrom lib (fuel + 1) str =
        ((lines ++ [last]).map Taken.line ++ (readTakenFrom lib fuel str').1,
          (readTakenFrom lib fuel str').2) := by
  obtain ⟨str', h', hrun⟩ := readHeadersTaken_block hlines hline hlast h
  refine ⟨str', h', ?_⟩
  rw [readTakenFrom, hrun]
  rfl

variable (lib) in
/-- The input ends in a body. -/
theorem readTakenFrom_short {lines : List Str} {n : Nat} (hlines : HeaderLines lines n) {last : Str}
    (hline : newline ∉ last) (hlast : BlankLine last ∨ BadLength last)
    (h : str.rest = lineBytes (lines ++ [last]) ++ after) (hn : after.length < n) (fuel : Nat) :
    readTakenFrom lib (fuel + 1) str = ((lines ++ [last]).map Taken.line, [], .ok ()) := by
  obtain ⟨str', h', hrun⟩ := readHeadersTaken_block hlines hline hlast h
  have hne : n ≠ 0 := by omega
  have hshort : str'.rest.length < n := by rwa [h']
  rw [readTakenFrom, hrun]
  simp only [if_neg hne, readContent_short hshort]

variable (lib) in
/-- A body is taken, wherever the loop over the lines has ended. -/
theorem readTakenFrom_body {lines : List Str} {data : Str} (hlines : HeaderLines lines data.length)
    (hdata : data ≠ []) {last : Str} (hline : newline ∉ last) (hlast : BlankLine last ∨ BadLength last)
    (h : str.rest = lineBytes (lines ++ [last]) ++ (data ++ after)) (fuel : Nat) :
    ∃ str', str'.rest = after ∧ readTakenFrom lib (fuel + 1) str =
      match lib.parse data with
      | none => ((lines ++ [last]).map Taken.line ++ [.body data], [], .error .json)
      | some message =>
        ((lines ++ [last]).map Taken.line ++ .body data :: (readTakenFrom lib fuel str').1,
          message :: (readTakenFrom lib fuel str').2.1, (readTakenFrom lib fuel str').2.2) := by
  obtain ⟨str1, h1, hrun⟩ := readHeadersTaken_block hlines hline hlast h
  obtain ⟨str2, hcontent, htake, hrest⟩ := readContent_data h1
  have hne : data.length ≠ 0 := fun hzero => hdata (List.length_eq_zero_iff.mp hzero)
  refine ⟨_, hrest, ?_⟩
  rw [readTakenFrom, hrun]
  cases hparse : lib.parse data with
  | none => simp only [if_neg hne, hcontent, htake, hparse]
  | some message => simp only [if_neg hne, hcontent, htake, hparse]

/-! ## Where bodies stand -/

/-- A body is not among the lines at the start. -/
theorem exists_of_lines_append_eq {lines : List Str} {taken before after : List Taken} {data : Str}
    (h : lines.map Taken.line ++ taken = before ++ .body data :: after) :
    ∃ more, before = lines.map Taken.line ++ more ∧ taken = more ++ .body data :: after := by
  induction lines generalizing before with
  | nil => exact ⟨before, rfl, h⟩
  | cons line lines ih =>
    cases before with
    | nil => cases h
    | cons first before =>
      rw [List.map_cons, List.cons_append, List.cons_append, List.cons.injEq] at h
      obtain ⟨rfl, h⟩ := h
      obtain ⟨more, rfl, htaken⟩ := ih h
      exact ⟨more, rfl, htaken⟩

theorem FollowsBlock.append {before : List Taken} {data : Str} (h : FollowsBlock before data)
    (earlier : List Taken) : FollowsBlock (earlier ++ before) data := by
  obtain ⟨first, lines, blank, rfl, hlines, hblank⟩ := h
  exact ⟨earlier ++ first, lines, blank, by rw [List.append_assoc], hlines, hblank⟩

/-- All bodies of these pieces follow a block. -/
def AllFollow (taken : List Taken) : Prop :=
  ∀ before data after, taken = before ++ .body data :: after → FollowsBlock before data

theorem AllFollow.lines (lines : List Str) : AllFollow (lines.map Taken.line) := by
  intro before data after h
  rw [← List.append_nil (lines.map Taken.line)] at h
  obtain ⟨more, -, hnil⟩ := exists_of_lines_append_eq h
  cases more <;> cases hnil

theorem AllFollow.lines_append {taken : List Taken} (h : AllFollow taken) (lines : List Str) :
    AllFollow (lines.map Taken.line ++ taken) := by
  intro before data after heq
  obtain ⟨more, rfl, htaken⟩ := exists_of_lines_append_eq heq
  exact (h more data after htaken).append _

/-- A block and its body come before. -/
theorem AllFollow.block_append {taken : List Taken} (h : AllFollow taken) {lines : List Str}
    {data blank : Str} (hlines : HeaderLines lines data.length) (hblank : BlankLine blank) :
    AllFollow ((lines ++ [blank]).map Taken.line ++ .body data :: taken) := by
  intro before data' after heq
  obtain ⟨more, rfl, htaken⟩ := exists_of_lines_append_eq heq
  cases more with
  | nil =>
    rw [List.nil_append, List.cons.injEq, Taken.body.injEq] at htaken
    rw [← htaken.1, List.append_nil]
    exact ⟨[], lines, blank, rfl, hlines, hblank⟩
  | cons first more =>
    rw [List.cons_append, List.cons.injEq] at htaken
    obtain ⟨rfl, htaken⟩ := htaken
    have hmore := (h more data' after htaken).append ((lines ++ [blank]).map Taken.line ++ [.body data])
    rw [List.append_assoc, List.singleton_append] at hmore
    exact hmore

theorem BodiesPlaced.of_allFollow {taken : List Taken} (hbytes : taken.flatMap Taken.bytes <+: input)
    (h : AllFollow taken) : BodiesPlaced input taken where
  isPrefix := hbytes
  follows := h
  spared := by
    intro before bad lines data after htaken hbad
    have hsplit : taken = (before ++ .line bad :: lines.map Taken.line) ++ .body data :: after := by
      rw [htaken, List.append_assoc, List.cons_append]
    obtain ⟨earlier, block, blank, heq, -, hblank⟩ := h _ data after hsplit
    rw [List.map_append, List.map_singleton, ← List.append_assoc] at heq
    -- the last line is the blank one
    rcases List.eq_nil_or_concat lines with rfl | ⟨others, last, rfl⟩
    · obtain ⟨-, hlast⟩ := List.append_inj' heq rfl
      rw [List.map_nil, List.cons.injEq, Taken.line.injEq] at hlast
      exact absurd (hlast.1 ▸ hblank) hbad.not_blankLine
    · rw [List.concat_eq_append, List.map_append, List.map_singleton, ← List.cons_append,
        ← List.append_assoc] at heq
      obtain ⟨-, hlast⟩ := List.append_inj' heq rfl
      rw [List.cons.injEq, Taken.line.injEq] at hlast
      refine ⟨last, ?_, hlast.1 ▸ hblank⟩
      rw [List.concat_eq_append]
      exact List.mem_append_right _ List.mem_cons_self

/-- Without a late bad length all bodies are placed well. -/
theorem readTakenFrom_placed (hlate : ∀ rest, BlockStart lib input rest → ¬ LateBadLength rest)
    {fuel : Nat} (hfuel : str.rest.length < fuel) (hstart : BlockStart lib input str.rest) :
    (readTakenFrom lib fuel str).1.flatMap Taken.bytes <+: str.rest ∧
      AllFollow (readTakenFrom lib fuel str).1 := by
  induction fuel generalizing str with
  | zero => exact absurd hfuel (Nat.not_lt_zero _)
  | succ fuel ih =>
    obtain ⟨lines, n, hlines, ⟨tail, htail, hrest⟩ | ⟨last, after, hline, hlast, hrest⟩⟩ :=
      exists_headerLines str.rest
    · rw [readTakenFrom_unended lib hlines htail hrest, flatMap_bytes_lines, hrest]
      exact ⟨List.prefix_append _ _, AllFollow.lines lines⟩
    have hlen : after.length < str.rest.length := by
      rw [hrest, lineBytes_append, lineBytes_singleton]
      simp only [List.length_append, List.length_singleton]
      omega
    by_cases hzero : n = 0
    · subst hzero
      obtain ⟨str', h', hrun⟩ := readTakenFrom_noLength lib hlines hline hlast hrest fuel
      rw [hrest] at hstart
      obtain ⟨hbytes, hfollow⟩ := ih (show str'.rest.length < fuel by rw [h']; omega)
        (h'.symm ▸ BlockStart.noLength hstart hlines hline hlast)
      rw [hrun, List.flatMap_append, flatMap_bytes_lines, hrest]
      rw [h'] at hbytes
      exact ⟨(List.prefix_append_right_inj _).mpr hbytes, hfollow.lines_append _⟩
    by_cases hshort : after.length < n
    · rw [readTakenFrom_short lib hlines hline hlast hrest hshort, flatMap_bytes_lines, hrest]
      exact ⟨List.prefix_append _ _, AllFollow.lines _⟩
    -- a body is taken, so that the block has ended in a blank line
    have hblank : BlankLine last := by
      rcases hlast with hblank | hbad
      · exact hblank
      · exact absurd ⟨lines, n, last, after, hrest, hlines, hzero, hline, hbad, by omega⟩
          (hlate str.rest hstart)
    obtain ⟨data, after, rfl, rfl⟩ : ∃ data after', after = data ++ after' ∧ data.length = n :=
      ⟨after.take n, after.drop n, (List.take_append_drop n after).symm,
        List.length_take_of_le (by omega)⟩
    have hdata : data ≠ [] := fun hnil => hzero (List.length_eq_zero_iff.mpr hnil)
    obtain ⟨str', h', hrun⟩ := readTakenFrom_body lib hlines hdata hline hlast hrest fuel
    rw [List.length_append] at hlen
    rw [hrest] at hstart
    cases hparse : lib.parse data with
    | none =>
      rw [hparse] at hrun
      rw [hrun, hrest]
      constructor
      · rw [List.flatMap_append, flatMap_bytes_lines, List.flatMap_singleton, Taken.bytes,
          ← List.append_assoc]
        exact List.prefix_append _ _
      · exact (AllFollow.lines []).block_append hlines hblank
    | some message =>
      rw [hparse] at hrun
      obtain ⟨hbytes, hfollow⟩ := ih (show str'.rest.length < fuel by rw [h']; omega)
        (h'.symm ▸ BlockStart.content hstart hlines hline hblank hdata (by rw [hparse]; rfl))
      rw [h'] at hbytes
      rw [hrun, hrest]
      constructor
      · rw [List.flatMap_append, flatMap_bytes_lines, List.flatMap_cons, Taken.bytes]
        exact (List.prefix_append_right_inj _).mpr ((List.prefix_append_right_inj _).mpr hbytes)
      · exact hfollow.block_append hlines hblank

/-- Where a block starts the reader comes by. -/
theorem BlockStart.reached (hstart : BlockStart lib input rest) :
    ∀ {fuel : Nat} {str : Stream}, str.rest = input → input.length < fuel →
    ∃ before fuel' str', str'.rest = rest ∧ rest.length < fuel' ∧
      (readTakenFrom lib fuel str).1 = before ++ (readTakenFrom lib fuel' str').1 := by
  induction hstart with
  | start => exact fun {fuel str} hrest hfuel => ⟨[], fuel, str, hrest, hfuel, rfl⟩
  | @noLength lines last rest _ hlines hline hlast ih =>
    intro fuel str hrest hfuel
    obtain ⟨before, fuel', str', h', hfuel', htaken⟩ := ih hrest hfuel
    obtain ⟨fuel', rfl⟩ : ∃ k, fuel' = k + 1 := ⟨fuel' - 1, by omega⟩
    obtain ⟨str2, h2, hrun⟩ := readTakenFrom_noLength lib hlines hline hlast h' fuel'
    rw [hrun, ← List.append_assoc] at htaken
    refine ⟨_, fuel', str2, h2, ?_, htaken⟩
    rw [lineBytes_append, lineBytes_singleton] at hfuel'
    simp only [List.length_append, List.length_singleton] at hfuel'
    omega
  | @content lines blank data rest _ hlines hline hblank hdata hparse ih =>
    intro fuel str hrest hfuel
    obtain ⟨before, fuel', str', h', hfuel', htaken⟩ := ih hrest hfuel
    obtain ⟨fuel', rfl⟩ : ∃ k, fuel' = k + 1 := ⟨fuel' - 1, by omega⟩
    obtain ⟨str2, h2, hrun⟩ := readTakenFrom_body lib hlines hdata hline (.inl hblank) h' fuel'
    obtain ⟨message, hmessage⟩ := Option.isSome_iff_exists.mp hparse
    rw [hmessage] at hrun
    refine ⟨before ++ (lines ++ [blank]).map Taken.line ++ [.body data], fuel', str2, h2, ?_, ?_⟩
    · rw [lineBytes_append, lineBytes_singleton] at hfuel'
      simp only [List.length_append, List.length_singleton] at hfuel'
      omega
    · rw [htaken, hrun]
      simp only [List.append_assoc, List.singleton_append]

/-- After a late bad length a body is taken right after that line. -/
theorem readTakenFrom_late (lib : JsonLib Json) (h : LateBadLength str.rest) (fuel : Nat) :
    ∃ earlier bad data after, BadLength bad ∧
      (readTakenFrom lib (fuel + 1) str).1 = earlier ++ .line bad :: .body data :: after := by
  obtain ⟨lines, n, bad, after, hrest, hlines, hzero, hline, hbad, hlen⟩ := h
  obtain ⟨data, after, rfl, rfl⟩ : ∃ data after', after = data ++ after' ∧ data.length = n :=
    ⟨after.take n, after.drop n, (List.take_append_drop n after).symm, List.length_take_of_le hlen⟩
  have hdata : data ≠ [] := fun hnil => hzero (List.length_eq_zero_iff.mpr hnil)
  obtain ⟨str', -, hrun⟩ := readTakenFrom_body lib hlines hdata hline (.inr hbad) hrest fuel
  rw [List.map_append, List.map_singleton] at hrun
  cases hparse : lib.parse data with
  | none =>
    rw [hparse] at hrun
    exact ⟨lines.map Taken.line, bad, data, [], hbad, by rw [hrun]; simp⟩
  | some message =>
    rw [hparse] at hrun
    exact ⟨lines.map Taken.line, bad, data, (readTakenFrom lib fuel str').1, hbad, by rw [hrun]; simp⟩

theorem bodiesPlaced_iff (lib : JsonLib Json) (chunks : List Str) :
    BodiesPlaced chunks.flatten (readTaken lib chunks).1 ↔
      ∀ rest, BlockStart lib chunks.flatten rest → ¬ LateBadLength rest := by
  have hinput : ({ buf := [], chunks } : Stream).rest = chunks.flatten := List.nil_append _
  constructor
  · intro hplaced rest hstart hlate
    obtain ⟨before, fuel, str, hrest, hfuel, htaken⟩ :=
      hstart.reached hinput (Nat.lt_succ_self chunks.flatten.length)
    obtain ⟨fuel, rfl⟩ : ∃ k, fuel = k + 1 := ⟨fuel - 1, by omega⟩
    rw [← hrest] at hlate
    obtain ⟨earlier, bad, data, after, hbad, hrun⟩ := readTakenFrom_late lib hlate fuel
    have hbody : (readTaken lib chunks).1 =
        (before ++ earlier) ++ .line bad :: ([].map Taken.line ++ .body data :: after) := by
      rw [readTaken, htaken, hrun, List.append_assoc]
      rfl
    obtain ⟨blank, hmem, -⟩ := hplaced.spared _ bad [] data after hbody hbad
    cases hmem
  · intro hlate
    have hfuel : ({ buf := [], chunks } : Stream).rest.length < chunks.flatten.length + 1 := by
      rw [hinput]
      exact Nat.lt_succ_self _
    have hstart : BlockStart lib chunks.flatten ({ buf := [], chunks } : Stream).rest := by
      rw [hinput]
      exact .start
    obtain ⟨hbytes, hfollow⟩ := readTakenFrom_placed hlate hfuel hstart
    rw [hinput] at hbytes
    exact .of_allFollow hbytes hfollow

/-! ## The messages of the bodies -/

theorem readHeadersTaken_snd (fuel contentLength : Nat) (str : Stream) :
    (readHeadersTaken fuel contentLength str).2 = readHeaders fuel contentLength str := by
  induction fuel generalizing contentLength str with
  | zero => rfl
  | succ fuel ih =>
    rw [readHeadersTaken, readHeaders]
    cases asyncReadUntil str.buf str.chunks with
    | none => rfl
    | some read =>
      obtain ⟨bytesRead, str⟩ := read
      dsimp only
      cases headerTurn contentLength (str.buf.take (bytesRead - 1)) with
      | none => rfl
      | some contentLength => exact ih contentLength _

theorem readHeaders_rest_lt {fuel contentLength n : Nat} {str' : Stream}
    (h : readHeaders fuel contentLength str = .ok (some (n, str'))) :
    str'.rest.length < str.rest.length := by
  induction fuel generalizing contentLength str with
  | zero => cases h
  | succ fuel ih =>
    by_cases hmem : newline ∈ str.rest
    · obtain ⟨line, after, hrest, hline⟩ := List.eq_append_cons_of_mem hmem
      obtain ⟨str1, h1, hrun⟩ := readHeaders_line hrest hline fuel contentLength
      have hlt : str1.rest.length < str.rest.length := by
        rw [h1, hrest, List.length_append, List.length_cons]
        omega
      rw [hrun] at h
      cases hturn : headerTurn contentLength line with
      | none =>
        rw [hturn] at h
        cases h
        exact hlt
      | some contentLength' =>
        rw [hturn] at h
        exact (ih h).trans hlt
    · rw [readHeaders, asyncReadUntil_end hmem] at h
      cases h

theorem readContent_rest_le {n : Nat} {str' : Stream} (h : readContent n str = some str') :
    ({ str' with buf := str'.buf.drop n } : Stream).rest.length ≤ str.rest.length := by
  by_cases hlen : str.rest.length < n
  · rw [readContent_short hlen] at h
    cases h
  · have hsplit : str.rest = str.rest.take n ++ str.rest.drop n := (List.take_append_drop n _).symm
    obtain ⟨str1, hread, -, hrest⟩ := readContent_data hsplit
    rw [List.length_take_of_le (by omega)] at hread hrest
    rw [h] at hread
    cases hread
    rw [hrest, List.length_drop]
    omega

/-- What is yielded is what `read_message` yields. -/
theorem readTakenFrom_snd {fuel : Nat} (hfuel : str.rest.length < fuel) {fuel' : Nat}
    (hfuel' : str.rest.length < fuel') {fuelFrom : Nat} (hfrom : str.rest.length ≤ fuelFrom) :
    (readTakenFrom lib fuel str).2 =
      match readMessage none lib fuel' str with
      | .error fault => ([], .error fault)
      | .ok none => ([], .ok ())
      | .ok (some (message, str)) =>
        (message :: (readMessagesFrom none lib fuelFrom str).1, (readMessagesFrom none lib fuelFrom str).2) := by
  induction fuel generalizing str fuel' fuelFrom with
  | zero => exact absurd hfuel (Nat.not_lt_zero _)
  | succ fuel ih =>
    obtain ⟨fuel', rfl⟩ : ∃ k, fuel' = k + 1 := ⟨fuel' - 1, by omega⟩
    have hheaders := readHeadersTaken_snd (str.rest.length + 1) 0 str
    rw [readTakenFrom, readMessage, ← hheaders]
    rcases hread : readHeadersTaken (str.rest.length + 1) 0 str with ⟨lines, fault | _ | ⟨n, str1⟩⟩
    · rfl
    · rfl
    rw [hread] at hheaders
    have hlt := readHeaders_rest_lt hheaders.symm
    by_cases hzero : n = 0
    · simp only [ok_bind, if_pos hzero]
      exact ih (by omega) (by omega) (by omega)
    · simp only [ok_bind, if_neg hzero, prepare_none]
      cases hcontent : readContent n str1 with
      | none => rfl
      | some str2 =>
        have hle := readContent_rest_le hcontent
        dsimp only
        cases lib.parse (str2.buf.take n) with
        | none => rfl
        | some message =>
          obtain ⟨fuelFrom, rfl⟩ : ∃ k, fuelFrom = k + 1 := ⟨fuelFrom - 1, by omega⟩
          set str3 : Stream := { str2 with buf := str2.buf.drop n }
          have hmore : (readTakenFrom lib fuel str3).2 = readMessagesFrom none lib (fuelFrom + 1) str3 := by
            have hfrom' : str3.rest.length ≤ fuelFrom := by omega
            rewrite [ih (by omega) (Nat.lt_succ_self str3.rest.length) hfrom', readMessagesFrom]
            rcases readMessage none lib (str3.rest.length + 1) str3 with fault | _ | next
            · rfl
            · rfl
            · rfl
          simp only [pure_eq_ok, ← hmore]

/-- The run that notes what is taken is the run of `read_message`. -/
theorem readTaken_snd (lib : JsonLib Json) (chunks : List Str) :
    (readTaken lib chunks).2 = readMessages lib chunks := by
  have hinput : ({ buf := [], chunks } : Stream).rest = chunks.flatten := List.nil_append _
  have hfuel : ({ buf := [], chunks } : Stream).rest.length < chunks.flatten.length + 1 := by
    rw [hinput]
    exact Nat.lt_succ_self _
  have hfrom : ({ buf := [], chunks } : Stream).rest.length ≤ chunks.flatten.length :=
    Nat.le_of_lt_succ hfuel
  rewrite [readTaken, readTakenFrom_snd hfuel hfuel hfrom, readMessages, readMessagesWithin,
    readMessagesFrom, hinput]
  rcases readMessage none lib (chunks.flatten.length + 1) { buf := [], chunks } with fault | _ | next
  · rfl
  · rfl
  · rfl

/-- `read_message` takes bodies from where they belong, and no bytes of a block with a bad length,
exactly when no bad length comes late in a block, with enough bytes after it. -/
theorem readMessages_bodiesPlaced_iff (lib : JsonLib Json) (chunks : List Str) :
    (readTaken lib chunks).2 = readMessages lib chunks ∧
      (BodiesPlaced chunks.flatten (readTaken lib chunks).1 ↔
        ∀ rest, BlockStart lib chunks.flatten rest → ¬ LateBadLength rest) := by
  constructor
  · exact readTaken_snd lib chunks
  · exact bodiesPlaced_iff lib chunks

/-! ## A header that is taken as a body -/

/-- Two lengths in a header, the second one without a value. -/
def twoLengths : Str := bytes "Content-Length: 4\nContent-Length:\ntrue: header\n\n"

theorem twoLengths_taken : (readTaken boolLib [twoLengths]).1 =
    [.line (bytes "Content-Length: 4"), .line (bytes "Content-Length:"), .body (bytes "true"),
      .line (bytes ": header"), .line []] := by
  decide +kernel

/-- Part of the header is taken as a body. -/
theorem twoLengths_not_placed : ¬ BodiesPlaced twoLengths (readTaken boolLib [twoLengths]).1 := by
  intro h
  have hbad : BadLength (bytes "Content-Length:") := ⟨[], by decide +kernel, rfl⟩
  obtain ⟨blank, hmem, -⟩ :=
    h.spared [.line (bytes "Content-Length: 4")] _ [] _ _ twoLengths_taken hbad
  cases hmem

end TclAnalyzer
