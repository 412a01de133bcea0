import TclAnalyzer.Lsp.Proofs.BlocksProofs

/-!
# `read_message` decodes its input

What is yielded depends on the bytes alone and not on the reads they arrive in, and bytes that have not
arrived yet change nothing of it.
-/

namespace TclAnalyzer

variable {Json : Type} {lib : JsonLib Json} {limit : Option Nat} {input rest : Str} {str : Stream}
  {messages messages' : List Json} {ended ended' : Except Fault Unit}

theorem lineBytes_pos (lines : List Str) (last : Str) : 0 < (lineBytes (lines ++ [last])).length := by
  rw [lineBytes_append, lineBytes_singleton, List.length_append, List.length_append]
  exact Nat.lt_add_left _ (Nat.succ_pos _)

/-! ## The run -/

/-- The header of a block is read up to the end of the input or up to the line that ends it. -/
theorem readHeaders_cases (str : Stream) :
    (readHeaders (str.rest.length + 1) 0 str = .ok none ∧
      ∃ lines n tail, HeaderLines lines n ∧ newline ∉ tail ∧ str.rest = lineBytes lines ++ tail) ∨
    ∃ n str' lines last, readHeaders (str.rest.length + 1) 0 str = .ok (some (n, str')) ∧
      HeaderLines lines n ∧ newline ∉ last ∧ (BlankLine last ∨ BadLength last) ∧
      str.rest = lineBytes (lines ++ [last]) ++ str'.rest := by
  obtain ⟨lines, n, hlines, ⟨tail, htail, hrest⟩ | ⟨last, after, hline, hlast, hrest⟩⟩ :=
    exists_headerLines str.rest
  · have hrun := readHeadersTaken_unended hlines htail hrest
    refine Or.inl ⟨?_, lines, n, tail, hlines, htail, hrest⟩
    rw [← readHeadersTaken_snd, hrun]
  · obtain ⟨str', hafter, hrun⟩ := readHeadersTaken_block hlines hline hlast hrest
    refine Or.inr ⟨n, str', lines, last, ?_, hlines, hline, hlast, hafter ▸ hrest⟩
    rw [← readHeadersTaken_snd, hrun]

/-- The body is short or it is read. -/
theorem readContent_cases (n : Nat) (str : Stream) :
    (readContent n str = none ∧ str.rest.length < n) ∨
    ∃ str' data, readContent n str = some str' ∧ str'.buf.take n = data ∧ data.length = n ∧
      str.rest = data ++ ({ str' with buf := str'.buf.drop n } : Stream).rest := by
  by_cases hlen : str.rest.length < n
  · exact Or.inl ⟨readContent_short hlen, hlen⟩
  · have hsize : (str.rest.take n).length = n := List.length_take_of_le (by omega)
    obtain ⟨str', hread, hbuf, hrest⟩ :=
      readContent_data (List.take_append_drop n str.rest).symm
    rw [hsize] at hread hbuf hrest
    refine Or.inr ⟨str', _, hread, hbuf, hsize, ?_⟩
    rw [hrest, List.take_append_drop]

theorem prepare_cases (limit : Option Nat) (str : Stream) (n : Nat) :
    (str.prepare limit n = .error .lengthError ∧ ∃ size, limit = some size ∧ size < str.buf.length + n) ∨
    str.prepare limit n = .ok () ∧ ∀ size, limit = some size → n ≤ size := by
  cases limit with
  | none => exact Or.inr ⟨rfl, fun _ h => nomatch h⟩
  | some size =>
    by_cases hlong : size < str.buf.length + n
    · left
      refine ⟨?_, size, rfl, hlong⟩
      simp [Stream.prepare, hlong]
    · right
      refine ⟨by simp [Stream.prepare, hlong], ?_⟩
      rintro _ ⟨⟩
      omega

/-- Where the input stands after one message. -/
structure Decodes.Next (limit : Option Nat) (lib : JsonLib Json) (input : Str) (message : Json)
    (rest : Str) : Prop where
  shorter : rest.length < input.length
  decodes : ∀ messages ended, Decodes limit lib rest messages ended →
    Decodes limit lib input (message :: messages) ended

/-- Up to the next message the reader decodes its input. -/
theorem readMessage_decodes (limit : Option Nat) (lib : JsonLib Json) {fuel : Nat}
    (hfuel : str.rest.length < fuel) :
    (∃ fault, readMessage limit lib fuel str = .error fault ∧
      Decodes limit lib str.rest [] (.error fault)) ∨
    (readMessage limit lib fuel str = .ok none ∧ Decodes limit lib str.rest [] (.ok ())) ∨
    ∃ message str', readMessage limit lib fuel str = .ok (some (message, str')) ∧
      Decodes.Next limit lib str.rest message str'.rest := by
  induction fuel generalizing str with
  | zero => exact absurd hfuel (Nat.not_lt_zero _)
  | succ fuel ih =>
    rw [readMessage]
    rcases readHeaders_cases str with ⟨hheaders, lines, n, tail, hlines, htail, hrest⟩ |
      ⟨n, str1, lines, last, hheaders, hlines, hline, hlast, hrest⟩
    · right; left
      rw [hheaders, hrest]
      exact ⟨rfl, .unended hlines htail⟩
    rw [hheaders]
    simp only [ok_bind]
    have hpos := lineBytes_pos lines last
    have hlen : str.rest.length = (lineBytes (lines ++ [last])).length + str1.rest.length := by
      rw [hrest, List.length_append]
    by_cases hzero : n = 0
    · subst hzero
      rw [if_pos rfl, hrest]
      rcases ih (by omega : str1.rest.length < fuel) with ⟨fault, hrun, h⟩ | ⟨hrun, h⟩ |
        ⟨message, str2, hrun, hnext⟩
      · exact Or.inl ⟨fault, hrun, .noLength hlines hline hlast h⟩
      · exact Or.inr (Or.inl ⟨hrun, .noLength hlines hline hlast h⟩)
      · refine Or.inr (Or.inr ⟨message, str2, hrun, ?_, fun messages ended h => ?_⟩)
        · rw [List.length_append]
          exact Nat.lt_add_left _ hnext.shorter
        · exact .noLength hlines hline hlast (hnext.decodes messages ended h)
    rw [if_neg hzero]
    rcases prepare_cases limit str1 n with ⟨hprepare, size, hsize, hlong⟩ | ⟨hprepare, hfits⟩
    · left
      rw [hprepare, hrest]
      refine ⟨.lengthError, rfl, .tooLong hlines hline hlast hzero hsize ?_ hlong⟩
      rw [Stream.rest, List.length_append]
      exact Nat.le_add_right _ _
    rw [hprepare, ok_bind]
    rcases readContent_cases n str1 with ⟨hcontent, hshort⟩ |
      ⟨str2, data, hcontent, hbuf, rfl, hbody⟩
    · right; left
      rw [hcontent, hrest]
      exact ⟨rfl, .short hlines hline hlast hshort hfits⟩
    have hdata : data ≠ [] := fun hnil => hzero (by rw [hnil]; rfl)
    rw [hcontent, hrest, hbody]
    dsimp only
    rw [hbuf]
    cases hparse : lib.parse data with
    | none =>
      left
      exact ⟨.json, rfl, .unparsable hlines hline hlast hdata hfits hparse⟩
    | some message =>
      refine Or.inr (Or.inr ⟨message, _, rfl, ?_, fun messages ended h => ?_⟩)
      · rw [List.length_append, List.length_append]
        omega
      · exact .message hlines hline hlast hdata hfits hparse h

theorem readMessagesFrom_decodes (limit : Option Nat) (lib : JsonLib Json) {fuel : Nat}
    (hfuel : str.rest.length < fuel) :
    Decodes limit lib str.rest (readMessagesFrom limit lib fuel str).1
      (readMessagesFrom limit lib fuel str).2 := by
  induction fuel generalizing str with
  | zero => exact absurd hfuel (Nat.not_lt_zero _)
  | succ fuel ih =>
    rw [readMessagesFrom]
    rcases readMessage_decodes limit lib (Nat.lt_succ_self str.rest.length) with
      ⟨fault, hrun, h⟩ | ⟨hrun, h⟩ | ⟨message, str', hrun, hnext⟩
    · rw [hrun]
      exact h
    · rw [hrun]
      exact h
    · rw [hrun]
      have hshorter := hnext.shorter
      exact hnext.decodes _ _ (ih (by omega))

theorem readMessagesWithin_decodes (limit : Option Nat) (lib : JsonLib Json) (chunks : List Str) :
    Decodes limit lib chunks.flatten (readMessagesWithin limit lib chunks).1
      (readMessagesWithin limit lib chunks).2 := by
  have hinput : ({ buf := [], chunks } : Stream).rest = chunks.flatten := List.nil_append _
  have h := readMessagesFrom_decodes limit lib
    (Nat.lt_succ_self ({ buf := [], chunks } : Stream).rest.length)
  rwa [hinput] at h

/-! ## One way to decode -/

/-- Without a limit there is one way to read an input. -/
theorem Decodes.run (h : Decodes none lib input messages ended) : ∀ {str : Stream} {fuel : Nat},
    str.rest = input → input.length < fuel → (readTakenFrom lib fuel str).2 = (messages, ended) := by
  induction h with
  | unended hlines htail =>
    intro str fuel hrest hfuel
    obtain ⟨fuel, rfl⟩ : ∃ k, fuel = k + 1 := ⟨fuel - 1, by omega⟩
    rw [readTakenFrom_unended lib hlines htail hrest]
  | @noLength lines last rest messages ended hlines hline hlast _ ih =>
    intro str fuel hrest hfuel
    obtain ⟨fuel, rfl⟩ : ∃ k, fuel = k + 1 := ⟨fuel - 1, by omega⟩
    obtain ⟨str', hrest', hrun⟩ := readTakenFrom_noLength lib hlines hline hlast hrest fuel
    have hpos := lineBytes_pos lines last
    rw [List.length_append] at hfuel
    rw [hrun]
    exact ih hrest' (by omega)
  | tooLong _ _ _ _ hsize => cases hsize
  | short hlines hline hlast hlen =>
    intro str fuel hrest hfuel
    obtain ⟨fuel, rfl⟩ : ∃ k, fuel = k + 1 := ⟨fuel - 1, by omega⟩
    rw [readTakenFrom_short lib hlines hline hlast hrest hlen]
  | unparsable hlines hline hlast hdata _ hparse =>
    intro str fuel hrest hfuel
    obtain ⟨fuel, rfl⟩ : ∃ k, fuel = k + 1 := ⟨fuel - 1, by omega⟩
    obtain ⟨str', -, hrun⟩ := readTakenFrom_body lib hlines hdata hline hlast hrest fuel
    rw [hrun, hparse]
  | @message lines last data rest message messages ended hlines hline hlast hdata _ hparse _ ih =>
    intro str fuel hrest hfuel
    obtain ⟨fuel, rfl⟩ : ∃ k, fuel = k + 1 := ⟨fuel - 1, by omega⟩
    obtain ⟨str', hrest', hrun⟩ := readTakenFrom_body lib hlines hdata hline hlast hrest fuel
    have hpos := lineBytes_pos lines last
    rw [List.length_append, List.length_append] at hfuel
    have hmore := ih hrest' (by omega : rest.length < fuel)
    rw [hrun, hparse, hmore]

theorem Decodes.readMessages (h : Decodes none lib input messages ended) {chunks : List Str}
    (hchunks : chunks.flatten = input) : readMessages lib chunks = (messages, ended) := by
  rw [← readTaken_snd, readTaken, hchunks]
  exact h.run (List.nil_append _ |>.trans hchunks) (Nat.lt_succ_self _)

/-- Where the buffer was not too small it plays no part. -/
theorem Decodes.unlimited (h : Decodes limit lib input messages ended)
    (hended : ended ≠ .error .lengthError) : Decodes none lib input messages ended := by
  have hnone : ∀ n size : Nat, none = some size → n ≤ size := fun _ _ h => nomatch h
  induction h with
  | unended hlines htail => exact .unended hlines htail
  | noLength hlines hline hlast _ ih => exact .noLength hlines hline hlast (ih hended)
  | tooLong => exact absurd rfl hended
  | short hlines hline hlast hlen => exact .short hlines hline hlast hlen (hnone _)
  | unparsable hlines hline hlast hdata _ hparse =>
    exact .unparsable hlines hline hlast hdata (hnone _) hparse
  | message hlines hline hlast hdata _ hparse _ ih =>
    exact .message hlines hline hlast hdata (hnone _) hparse (ih hended)

/-- What the reader yields can be read off the bytes, in whatever reads they arrive. How a reader ends
can depend on the reads only where a length is so near to the size of the buffer that the bytes in it
count. -/
theorem readMessagesWithin_yields (limit : Option Nat) (lib : JsonLib Json) (chunks : List Str) :
    Decodes limit lib chunks.flatten (readMessagesWithin limit lib chunks).1
      (readMessagesWithin limit lib chunks).2 ∧
    ∀ messages ended, Decodes limit lib chunks.flatten messages ended →
      ended ≠ .error .lengthError → (readMessagesWithin limit lib chunks).2 ≠ .error .lengthError →
      readMessagesWithin limit lib chunks = (messages, ended) := by
  have hdecodes := readMessagesWithin_decodes limit lib chunks
  refine ⟨hdecodes, fun messages ended h hended hread => ?_⟩
  have hone := (h.unlimited hended).readMessages rfl
  exact ((hdecodes.unlimited hread).readMessages rfl).symm.trans hone

/-! ## More input -/

/-- Every input can be read off in blocks. -/
theorem exists_decodes (limit : Option Nat) (lib : JsonLib Json) (input : Str) :
    ∃ messages ended, Decodes limit lib input messages ended := by
  have hdecodes := readMessagesWithin_decodes limit lib [input]
  rw [List.flatten_singleton] at hdecodes
  exact ⟨_, _, hdecodes⟩

/-- What follows adds messages behind those that are there, and none after an exception. -/
theorem Decodes.more (h : Decodes limit lib input messages ended) (more : Str) :
    ∃ others ended', Decodes limit lib (input ++ more) (messages ++ others) ended' ∧
      (ended ≠ .ok () → others = [] ∧ ended' = ended) := by
  induction h with
  | @unended lines n tail hlines htail =>
    obtain ⟨messages, ended, h⟩ := exists_decodes limit lib (lineBytes lines ++ tail ++ more)
    exact ⟨messages, ended, h, fun hne => absurd rfl hne⟩
  | noLength hlines hline hlast _ ih =>
    obtain ⟨others, ended', h, hended⟩ := ih
    refine ⟨others, ended', ?_, hended⟩
    rw [List.append_assoc]
    exact .noLength hlines hline hlast h
  | tooLong hlines hline hlast hne hsize hbuffered hlong =>
    refine ⟨[], .error .lengthError, ?_, fun _ => ⟨rfl, rfl⟩⟩
    rw [List.append_assoc]
    refine .tooLong hlines hline hlast hne hsize (hbuffered.trans ?_) hlong
    rw [List.length_append]
    exact Nat.le_add_right _ _
  | @short lines n last rest =>
    obtain ⟨messages, ended, h⟩ :=
      exists_decodes limit lib (lineBytes (lines ++ [last]) ++ rest ++ more)
    exact ⟨messages, ended, h, fun hne => absurd rfl hne⟩
  | unparsable hlines hline hlast hdata hfits hparse =>
    refine ⟨[], .error .json, ?_, fun _ => ⟨rfl, rfl⟩⟩
    rw [List.append_assoc, List.append_assoc]
    exact .unparsable hlines hline hlast hdata hfits hparse
  | message hlines hline hlast hdata hfits hparse _ ih =>
    obtain ⟨others, ended', h, hended⟩ := ih
    refine ⟨others, ended', ?_, hended⟩
    rw [List.append_assoc, List.append_assoc]
    exact .message hlines hline hlast hdata hfits hparse h

/-- No message waits for bytes behind it: on an input that goes on, `read_message` yields first what it
yields on the input so far, and an exception stays the last that happens. -/
theorem readMessages_more (lib : JsonLib Json) (chunks more : List Str) :
    (readMessages lib chunks).1 <+: (readMessages lib (chunks ++ more)).1 ∧
      ((readMessages lib chunks).2 ≠ .ok () →
        readMessages lib (chunks ++ more) = readMessages lib chunks) := by
  obtain ⟨others, ended, h, hended⟩ := (readMessagesWithin_decodes none lib chunks).more more.flatten
  have hall : readMessages lib (chunks ++ more) = _ := h.readMessages List.flatten_append
  constructor
  · rw [hall]
    exact List.prefix_append _ _
  · intro hne
    obtain ⟨rfl, rfl⟩ := hended hne
    rw [hall, List.append_nil]
    rfl

end TclAnalyzer
