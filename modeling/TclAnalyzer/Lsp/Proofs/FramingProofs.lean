import TclAnalyzer.Lsp.Proofs.CommsProofs

/-!
# Frames are read back

A frame, in whatever style, is a row of lines and the content. Each line is one turn of the loop over
the header lines, so that `read_message` takes the bytes of the frame and no others.
-/

namespace TclAnalyzer

variable {Json : Type} {lib : JsonLib Json} {str : Stream} {data after : Str}

/-! ## Header lines -/

theorem strip_lineEnd (text : Str) (lineEnd : LineEnd) :
    (text ++ lineEnd.beforeNewline).rdropWhile (· = carriageReturn) =
      text.rdropWhile (· = carriageReturn) := by
  cases lineEnd with
  | lf => rw [LineEnd.beforeNewline, List.append_nil]
  | crlf => exact List.rdropWhile_concat_pos _ _ _ (by simp)

theorem newline_notMem_beforeNewline (lineEnd : LineEnd) : newline ∉ lineEnd.beforeNewline := by
  cases lineEnd <;> decide

/-- A blank line ends the header. -/
theorem headerTurn_blank (contentLength : Nat) (lineEnd : LineEnd) :
    headerTurn contentLength lineEnd.beforeNewline = none := by
  have hstrip := strip_lineEnd [] lineEnd
  rw [List.nil_append, List.rdropWhile_nil] at hstrip
  simp only [headerTurn, hstrip, if_true]

/-- An extra line changes nothing. -/
theorem headerTurn_extra (contentLength : Nat) (line : ExtraLine) :
    headerTurn contentLength (line.text ++ line.lineEnd.beforeNewline) = some contentLength := by
  set text := line.text.rdropWhile (· = carriageReturn) with htext
  have hne : text ≠ [] := by
    rw [htext, Ne, List.rdropWhile_eq_nil_iff]
    intro hall
    obtain ⟨c, hc, hcr⟩ := line.notBlank
    exact hcr (by simpa using hall c hc)
  have hgrows : text <+: line.text := List.rdropWhile_prefix _ _
  have hname : colon ∈ text →
      (text.takeWhile (· ≠ colon)).map tolower ≠ bytes "content-length" := by
    intro hcolon
    obtain ⟨trailing, hline⟩ := hgrows
    have hsame : line.text.takeWhile (· ≠ colon) = text.takeWhile (· ≠ colon) := by
      rw [← hline, List.takeWhile_append, if_neg]
      intro hlen
      have hall := List.takeWhile_eq_self_iff.mp
        ((List.takeWhile_prefix (p := (· ≠ colon))).eq_of_length hlen)
      simpa using hall colon hcolon
    rw [← hsame]
    exact line.otherName (hline ▸ List.mem_append_left _ hcolon)
  simp only [headerTurn, strip_lineEnd, ← htext, if_neg hne]
  by_cases hcolon : colon ∈ text
  · rw [if_pos hcolon, if_pos (hname hcolon)]
  · rw [if_neg hcolon]

theorem LengthLine.notMem_name (line : LengthLine) {c : UInt8}
    (h : tolower c ∉ TclAnalyzer.bytes "content-length") : c ∉ line.name := by
  intro hc
  have hmem := List.mem_map_of_mem (f := tolower) hc
  rw [line.isName] at hmem
  exact h hmem

theorem ne_of_isdigit {c d : UInt8} (hc : isdigit c = true) (hd : isdigit d = false) : c ≠ d := by
  rintro rfl
  rw [hc] at hd
  cases hd

theorem isspace_of_isdigit {c : UInt8} (h : isdigit c = true) : isspace c = false := by
  have hdigit : 48 ≤ c.toNat := by
    have hle : 48 ≤ c ∧ c ≤ 57 := of_decide_eq_true h
    exact UInt8.le_iff_toNat_le.mp hle.1
  refine decide_eq_false ?_
  rintro (rfl | ⟨-, hle⟩)
  · exact absurd hdigit (by decide)
  · have hle' : c.toNat ≤ 13 := UInt8.le_iff_toNat_le.mp hle
    omega

/-- The line with the length sets `content_length`. -/
theorem headerTurn_length (contentLength : Nat) (line : LengthLine) {n : Nat} (hn : n < 2 ^ 64) :
    headerTurn contentLength
      (line.name ++ [colon] ++ line.space ++ decimal n ++ line.lineEnd.beforeNewline) = some n := by
  set text := line.name ++ [colon] ++ line.space ++ decimal n with htext
  have hdigits := isdigit_decimal n
  have hne : text ≠ [] := by
    rw [htext]
    simp
  have hstrip : text.rdropWhile (· = carriageReturn) = text := by
    refine List.rdropWhile_eq_self_iff.mpr fun hl => ?_
    have hlast : text.getLast hl = (decimal n).getLast (decimal_ne_nil n) :=
      List.getLast_append_of_ne_nil hl (decimal_ne_nil n)
    rw [hlast]
    have hdigit := hdigits _ (List.getLast_mem (decimal_ne_nil n))
    simpa using ne_of_isdigit hdigit (d := carriageReturn) (by decide)
  have hname : ∀ c ∈ line.name, decide (c ≠ colon) = true := by
    intro c hc
    refine decide_eq_true ?_
    rintro rfl
    exact line.notMem_name (by decide +kernel) hc
  have hsplit : text = line.name ++ colon :: (line.space ++ decimal n) := by
    simp [htext]
  have hcolon : colon ∈ text := by
    rw [hsplit]
    simp
  have htake : text.takeWhile (· ≠ colon) = line.name := by
    rw [hsplit, List.takeWhile_append_of_pos hname]
    simp
  have hdrop : (text.dropWhile (· ≠ colon)).drop 1 = line.space ++ decimal n := by
    rw [hsplit, List.dropWhile_append_of_pos hname]
    simp
  have hvalue : (line.space ++ decimal n).dropWhile isspace = decimal n := by
    rw [List.dropWhile_append_of_pos fun c hc => (line.isSpace c hc).1]
    cases hdecimal : decimal n with
    | nil => rfl
    | cons c rest =>
      have hdigit : isdigit c = true := hdigits c (by simp [hdecimal])
      rw [List.dropWhile_cons_of_neg (by simp [isspace_of_isdigit hdigit])]
  simp only [headerTurn, strip_lineEnd, hstrip, if_neg hne, if_pos hcolon, htake, line.isName,
    ne_eq, not_true_eq_false, if_false, hdrop, hvalue, decimal_ne_nil, fromChars_decimal hn]

/-! ## The header of a frame -/

/-- A line of the header takes one turn of the loop. -/
theorem readHeaders_line {line : Str} (h : str.rest = line ++ newline :: after)
    (hline : newline ∉ line) (fuel contentLength : Nat) : ∃ str', str'.rest = after ∧
      readHeaders (fuel + 1) contentLength str =
        match headerTurn contentLength line with
        | none => .ok (some (contentLength, str'))
        | some contentLength => readHeaders fuel contentLength str' := by
  obtain ⟨str1, hread, htake, hdrop⟩ := asyncReadUntil_line h hline
  refine ⟨{ str1 with buf := str1.buf.drop (line.length + 1) }, hdrop, ?_⟩
  rw [readHeaders, hread]
  simp only [Nat.add_sub_cancel, htake]
  rfl

/-- The extra lines of a header are skipped. -/
theorem readHeaders_extra (lines : List ExtraLine) {str : Stream}
    (h : str.rest = lines.flatMap ExtraLine.bytes ++ after) (fuel contentLength : Nat) :
    ∃ str', str'.rest = after ∧
      readHeaders (fuel + lines.length) contentLength str = readHeaders fuel contentLength str' := by
  induction lines generalizing str with
  | nil => exact ⟨str, by simpa using h, rfl⟩
  | cons line lines ih =>
    have hrest : str.rest = line.text ++ line.lineEnd.beforeNewline ++
        newline :: (lines.flatMap ExtraLine.bytes ++ after) := by
      rw [h]
      simp [ExtraLine.bytes, LineEnd.bytes]
    have hline : newline ∉ line.text ++ line.lineEnd.beforeNewline := by
      rw [List.mem_append]
      exact not_or.mpr ⟨line.oneLine, newline_notMem_beforeNewline _⟩
    obtain ⟨str1, h1, hstep⟩ := readHeaders_line hrest hline (fuel + lines.length) contentLength
    obtain ⟨str', h', hrun⟩ := ih h1
    rw [headerTurn_extra] at hstep
    exact ⟨str', h', hstep.trans hrun⟩

theorem length_le_flatMap {α : Type} (f : α → Str) (h : ∀ a, f a ≠ []) (l : List α) :
    l.length ≤ (l.flatMap f).length := by
  induction l with
  | nil => simp
  | cons a l ih =>
    have ha := List.length_pos_iff.mpr (h a)
    rw [List.flatMap_cons, List.length_append, List.length_cons]
    omega

theorem LineEnd.bytes_ne_nil (lineEnd : LineEnd) : lineEnd.bytes ≠ [] := by
  simp [LineEnd.bytes]

theorem ExtraLine.bytes_ne_nil (line : ExtraLine) : line.bytes ≠ [] := by
  simp [ExtraLine.bytes, LineEnd.bytes]

/-- The header of a frame gives the length of the content, and what is left is the content. -/
theorem readHeaders_block (style : FrameStyle) (h : str.rest = style.block data ++ after)
    (hsize : data.length < 2 ^ 64) {fuel : Nat} (hfuel : str.rest.length < fuel) :
    ∃ str', str'.rest = data ++ after ∧
      readHeaders fuel 0 str = .ok (some (data.length, str')) := by
  have hbefore := length_le_flatMap _ ExtraLine.bytes_ne_nil style.before
  have hafter := length_le_flatMap _ ExtraLine.bytes_ne_nil style.after
  obtain ⟨k, rfl⟩ : ∃ k, fuel = k + 1 + style.after.length + 1 + style.before.length := by
    have hlen : style.before.length + style.after.length + 2 ≤ str.rest.length := by
      rw [h]
      simp only [FrameStyle.block, List.length_append, LengthLine.bytes, LineEnd.bytes,
        List.length_singleton]
      omega
    exact ⟨fuel - (1 + style.after.length + 1 + style.before.length), by omega⟩
  have h0 : str.rest = style.before.flatMap ExtraLine.bytes ++
      (style.lengthLine.bytes data.length ++ (style.after.flatMap ExtraLine.bytes ++
        (style.blank.bytes ++ (data ++ after)))) := by
    rw [h]
    simp [FrameStyle.block]
  obtain ⟨str1, h1, hrun1⟩ :=
    readHeaders_extra style.before h0 (k + 1 + style.after.length + 1) 0
  -- the line with the length
  have hname : newline ∉ style.lengthLine.name := style.lengthLine.notMem_name (by decide +kernel)
  have hspace : newline ∉ style.lengthLine.space := fun hmem =>
    (style.lengthLine.isSpace newline hmem).2 rfl
  have hdigits : newline ∉ decimal data.length := fun hmem =>
    ne_of_isdigit (isdigit_decimal data.length newline hmem) (by decide) rfl
  have hline : newline ∉ style.lengthLine.name ++ [colon] ++ style.lengthLine.space ++
      decimal data.length ++ style.lengthLine.lineEnd.beforeNewline := by
    have hcolon : newline ≠ colon := by decide
    simp [hname, hspace, hdigits, newline_notMem_beforeNewline, hcolon]
  have h1' : str1.rest = style.lengthLine.name ++ [colon] ++ style.lengthLine.space ++
      decimal data.length ++ style.lengthLine.lineEnd.beforeNewline ++
        newline :: (style.after.flatMap ExtraLine.bytes ++ (style.blank.bytes ++ (data ++ after))) := by
    rw [h1]
    simp [LengthLine.bytes, LineEnd.bytes]
  obtain ⟨str2, h2, hrun2⟩ := readHeaders_line h1' hline (k + 1 + style.after.length) 0
  rw [headerTurn_length 0 style.lengthLine hsize] at hrun2
  obtain ⟨str3, h3, hrun3⟩ := readHeaders_extra style.after h2 (k + 1) data.length
  -- the blank line
  have h3' : str3.rest = style.blank.beforeNewline ++ newline :: (data ++ after) := by
    rw [h3]
    simp [LineEnd.bytes]
  obtain ⟨str4, h4, hrun4⟩ :=
    readHeaders_line h3' (newline_notMem_beforeNewline style.blank) k data.length
  rw [headerTurn_blank] at hrun4
  exact ⟨str4, h4, hrun1.trans (hrun2.trans (hrun3.trans hrun4))⟩

/-! ## Messages -/

/-- A frame is read as its message, and nothing else is taken off the stream. -/
theorem readMessage_frame (hlib : lib.Lawful) (message : Json) (style : FrameStyle)
    (blanks : List LineEnd) {str : Stream}
    (h : str.rest = blanks.flatMap LineEnd.bytes ++ (style.block (lib.dump message) ++ after))
    {fuel : Nat} (hfuel : blanks.length < fuel) : ∃ str', str'.rest = after ∧
      readMessage none lib fuel str = .ok (some (message, str')) := by
  induction blanks generalizing str fuel with
  | nil =>
    obtain ⟨fuel, rfl⟩ : ∃ k, fuel = k + 1 := ⟨fuel - 1, by simp at hfuel; omega⟩
    have hne : (lib.dump message).length ≠ 0 := by
      intro hzero
      have hparse := hlib.parse_dump message
      rw [List.length_eq_zero_iff.mp hzero, hlib.parse_nil] at hparse
      cases hparse
    obtain ⟨str1, h1, hheaders⟩ := readHeaders_block style h (hlib.dump_size message)
      (Nat.lt_succ_self str.rest.length)
    obtain ⟨str2, hcontent, hdata, hrest⟩ := readContent_data h1
    refine ⟨_, hrest, ?_⟩
    rw [readMessage, hheaders]
    simp only [ok_bind, if_neg hne, hcontent, hdata, hlib.parse_dump]
    rfl
  | cons blank blanks ih =>
    obtain ⟨fuel, rfl⟩ : ∃ k, fuel = k + 1 := ⟨fuel - 1, by simp at hfuel; omega⟩
    have hfuel' : blanks.length < fuel := by
      rw [List.length_cons] at hfuel
      omega
    have hline : str.rest = blank.beforeNewline ++ newline ::
        (blanks.flatMap LineEnd.bytes ++ (style.block (lib.dump message) ++ after)) := by
      rw [h]
      simp [LineEnd.bytes]
    obtain ⟨str1, h1, hheaders⟩ := readHeaders_line hline (newline_notMem_beforeNewline blank)
      str.rest.length 0
    rw [headerTurn_blank] at hheaders
    obtain ⟨str', h', hrun⟩ := ih h1 hfuel'
    refine ⟨str', h', ?_⟩
    rw [readMessage, hheaders]
    simp only [ok_bind, if_true]
    exact hrun

/-- At the end of the input `read_message` returns. -/
theorem readMessage_end (h : str.rest = []) (fuel : Nat) :
    readMessage none lib (fuel + 1) str = .ok none := by
  have hread : asyncReadUntil str.buf str.chunks = none := by
    refine asyncReadUntil_end ?_
    rw [show str.buf ++ str.chunks.flatten = [] from h]
    simp
  rw [readMessage, readHeaders, hread]
  rfl

theorem readMessagesFrom_frames (hlib : lib.Lawful) (messages : List (FrameStyle × Json))
    {str : Stream} (h : str.rest = styledFrames lib messages) {fuel : Nat}
    (hfuel : messages.length < fuel) :
    readMessagesFrom none lib fuel str = (messages.map Prod.snd, .ok ()) := by
  induction messages generalizing str fuel with
  | nil =>
    obtain ⟨fuel, rfl⟩ : ∃ k, fuel = k + 1 := ⟨fuel - 1, by simp at hfuel; omega⟩
    rw [readMessagesFrom, readMessage_end h]
    rfl
  | cons first messages ih =>
    obtain ⟨style, message⟩ := first
    obtain ⟨fuel, rfl⟩ : ∃ k, fuel = k + 1 := ⟨fuel - 1, by simp at hfuel; omega⟩
    have hfuel' : messages.length < fuel := by
      rw [List.length_cons] at hfuel
      omega
    have hrest : str.rest = style.blanks.flatMap LineEnd.bytes ++
        (style.block (lib.dump message) ++ styledFrames lib messages) := by
      rw [h, styledFrames, List.flatMap_cons, FrameStyle.frame, List.append_assoc]
      rfl
    have hblanks : style.blanks.length < str.rest.length + 1 := by
      have hlen := length_le_flatMap _ LineEnd.bytes_ne_nil style.blanks
      rw [hrest, List.length_append]
      omega
    obtain ⟨str', h', hrun⟩ := readMessage_frame hlib message style style.blanks hrest hblanks
    rw [readMessagesFrom, hrun]
    simp only [ih h' hfuel', List.map_cons]

theorem FrameStyle.frame_ne_nil (style : FrameStyle) (data : Str) : style.frame data ≠ [] := by
  simp [FrameStyle.frame, FrameStyle.block, LengthLine.bytes]

/-- The frames of `send_message` are of one of the styles. -/
theorem sent_frame_eq (data : Str) : FrameStyle.sent.frame data = frame data := by
  have hend : LineEnd.crlf.bytes ++ LineEnd.crlf.bytes = bytes "\r\n\r\n" := by
    decide +kernel
  have hname : bytes "Content-Length" ++ [colon] ++ bytes " " = bytes "Content-Length: " := by
    decide +kernel
  simp only [FrameStyle.frame, FrameStyle.block, FrameStyle.sent, LengthLine.bytes, List.flatMap_nil,
    List.nil_append, frame, ← hend, ← hname, List.append_assoc]

theorem styledFrames_sent (messages : List Json) :
    styledFrames lib (messages.map fun message => (FrameStyle.sent, message)) =
      frames lib messages := by
  simp only [styledFrames, frames, List.flatMap_map, sent_frame_eq]

/-- Decoding undoes encoding: what `send_message` writes is read back, and so are frames of any
style, however the stream is cut into chunks. -/
theorem readMessages_decodes (hlib : lib.Lawful) :
    (∀ (messages : List Json) (chunks : List Str), chunks.flatten = frames lib messages →
      readMessages lib chunks = (messages, .ok ())) ∧
    ∀ (messages : List (FrameStyle × Json)) (chunks : List Str),
      chunks.flatten = styledFrames lib messages →
      readMessages lib chunks = (messages.map Prod.snd, .ok ()) := by
  have hstyled : ∀ (messages : List (FrameStyle × Json)) (chunks : List Str),
      chunks.flatten = styledFrames lib messages →
      readMessages lib chunks = (messages.map Prod.snd, .ok ()) := by
    intro messages chunks h
    refine readMessagesFrom_frames hlib messages ?_ ?_
    · rw [Stream.rest, List.nil_append]
      exact h
    · have hlen := length_le_flatMap (fun m : FrameStyle × Json => m.1.frame (lib.dump m.2))
        (fun m => m.1.frame_ne_nil _) messages
      rw [h, styledFrames]
      omega
  refine ⟨fun messages chunks h => ?_, hstyled⟩
  rw [hstyled _ chunks (h.trans (styledFrames_sent messages).symm), List.map_map]
  congr 1
  exact List.map_id messages

/-! ## An input with frames of two styles -/

/-- The JSON library on `true` and `false`. -/
def boolLib : JsonLib Bool where
  dump message := if message then bytes "true" else bytes "false"
  parse s :=
    if s = bytes "true" then some true else if s = bytes "false" then some false else none

theorem boolLib_lawful : boolLib.Lawful where
  parse_dump := by decide +kernel
  parse_nil := by decide +kernel
  dump_size := by decide +kernel

/-- Two blank lines, then a header of three lines that end in a single newline, with the length on
the second one. -/
def looseStyle : FrameStyle where
  blanks := [.lf, .crlf]
  before := [{ text := bytes "No header", lineEnd := .lf, oneLine := by decide +kernel,
               notBlank := by decide +kernel, otherName := by decide +kernel }]
  lengthLine := { name := bytes "content-LENGTH", space := bytes "\t ", lineEnd := .lf,
                  isName := by decide +kernel, isSpace := by decide +kernel }
  after := [{ text := bytes "Content-Type: text", lineEnd := .crlf, oneLine := by decide +kernel,
              notBlank := by decide +kernel, otherName := by decide +kernel }]
  blank := .lf

theorem readMessages_loose : readMessages boolLib
    [bytes "\n\r", bytes "\nNo header\ncontent-LENGTH:\t 4\nContent-Type: text\r\n\ntr",
      bytes "ueContent-Length: 5\r\n\r\nfalse"] = ([true, false], .ok ()) :=
  (readMessages_decodes boolLib_lawful).2 [(looseStyle, true), (.sent, false)] _ (by decide +kernel)

end TclAnalyzer
