import Mathlib.Tactic.IntervalCases
import TclAnalyzer.Lsp.Framing

/-!
# Reading messages back

The reader is followed on the bytes that are left, so that the chunks they arrive in do not matter.
Every frame of a message, however it is styled, then takes its own bytes and yields the message.
-/

namespace TclAnalyzer

/-! ## Decimal numbers -/

theorem digitChar_toNat {d : Nat} (h : d < 10) : (Nat.digitChar d).toNat = 48 + d := by
  interval_cases d <;> rfl

theorem decimal_digit {n : Nat} (h : n < 10) : decimal n = [UInt8.ofNat (48 + n)] := by
  rw [decimal, Nat.toDigits_of_lt_base h, List.map_singleton, digitChar_toNat h]

/-- The last digit comes last. -/
theorem decimal_step {n : Nat} (h : 10 ≤ n) :
    decimal n = decimal (n / 10) ++ [UInt8.ofNat (48 + n % 10)] := by
  have hdigit : n % 10 < 10 := Nat.mod_lt n (by decide)
  rw [decimal, Nat.toDigits_of_base_le (by decide) h, List.map_append, List.map_singleton,
    digitChar_toNat hdigit]
  rfl

theorem digit_toNat {d : Nat} (h : d < 10) : (UInt8.ofNat (48 + d)).toNat = 48 + d := by
  rw [UInt8.toNat_ofNat']
  omega

theorem isdigit_digit {d : Nat} (h : d < 10) : isdigit (UInt8.ofNat (48 + d)) = true := by
  interval_cases d <;> rfl

/-- `operator<<` writes digits only. -/
theorem isdigit_decimal (n : Nat) : ∀ c ∈ decimal n, isdigit c = true := by
  induction n using Nat.strong_induction_on with
  | _ n ih =>
    by_cases h : n < 10
    · rw [decimal_digit h]
      intro c hc
      rw [List.mem_singleton.mp hc]
      exact isdigit_digit h
    · rw [decimal_step (by omega)]
      intro c hc
      rcases List.mem_append.mp hc with hc | hc
      · exact ih (n / 10) (by omega) c hc
      · rw [List.mem_singleton.mp hc]
        exact isdigit_digit (Nat.mod_lt n (by decide))

theorem decimal_ne_nil (n : Nat) : decimal n ≠ [] := by
  by_cases h : n < 10
  · rw [decimal_digit h]
    simp
  · rw [decimal_step (by omega)]
    simp

/-- A run of digits is read from left to right. -/
theorem digitsValue_append {s : Str} (h : ∀ c ∈ s, isdigit c = true) (value : Nat) (t : Str) :
    digitsValue value (s ++ t) = digitsValue (digitsValue value s) t := by
  induction s generalizing value with
  | nil => rfl
  | cons c s ih =>
    have hc := h c List.mem_cons_self
    simp only [List.cons_append, digitsValue, hc, if_true]
    exact ih (fun d hd => h d (List.mem_cons_of_mem c hd)) _

/-- The value of the digits of a number is the number. The induction is on the number, by its last
digit. -/
theorem digitsValue_decimal (n : Nat) : digitsValue 0 (decimal n) = n := by
  induction n using Nat.strong_induction_on with
  | _ n ih =>
    by_cases h : n < 10
    · rw [decimal_digit h]
      simp only [digitsValue, isdigit_digit h, if_true, digit_toNat h]
      omega
    · have hdigit : n % 10 < 10 := Nat.mod_lt n (by decide)
      rw [decimal_step (by omega), digitsValue_append (isdigit_decimal _), ih (n / 10) (by omega)]
      simp only [digitsValue, isdigit_digit hdigit, if_true, digit_toNat hdigit]
      omega

/-- `from_chars` reads what `operator<<` has written. -/
theorem fromChars_decimal {n : Nat} (h : n < 2 ^ 64) : fromChars (decimal n) = some n := by
  cases hdecimal : decimal n with
  | nil => exact absurd hdecimal (decimal_ne_nil n)
  | cons c s =>
    have hc : isdigit c = true := isdigit_decimal n c (by simp [hdecimal])
    have hvalue : digitsValue 0 (c :: s) = n := by
      rw [← hdecimal]
      exact digitsValue_decimal n
    simp only [fromChars, List.head?_cons, Option.any_some, hc, if_true, hvalue, h]

/-! ## Reading a line and reading the content -/

/-- The line up to the next newline is in the buffer, wherever the chunks end. -/
theorem asyncReadUntil_line {buf line after : Str} {chunks : List Str}
    (h : buf ++ chunks.flatten = line ++ newline :: after) (hline : newline ∉ line) :
    ∃ str, asyncReadUntil buf chunks = some (line.length + 1, str) ∧
      str.buf.take line.length = line ∧ str.buf.drop (line.length + 1) ++ str.chunks.flatten = after := by
  have hfound : ∀ (buf : Str) (chunks : List Str), buf ++ chunks.flatten = line ++ newline :: after →
      newline ∈ buf → buf.idxOf newline = line.length ∧ buf.take line.length = line ∧
        buf.drop (line.length + 1) ++ chunks.flatten = after := by
    intro buf chunks heq hmem
    have hidx : buf.idxOf newline = line.length := by
      have hbuf : (buf ++ chunks.flatten).idxOf newline = buf.idxOf newline :=
        List.idxOf_append_of_mem hmem
      rw [← hbuf, heq, List.idxOf_append_of_notMem hline, List.idxOf_cons_self, Nat.add_zero]
    have hlen : line.length + 1 ≤ buf.length := by
      have := List.idxOf_lt_length_of_mem hmem
      omega
    have htake : (buf ++ chunks.flatten).take line.length = buf.take line.length :=
      List.take_append_of_le_length (by omega)
    refine ⟨hidx, ?_, ?_⟩
    · rw [← htake, heq, List.take_left]
    · rw [← List.drop_append_of_le_length hlen, heq, ← List.singleton_append, ← List.append_assoc]
      exact List.drop_left' (by simp)
  induction chunks generalizing buf with
  | nil =>
    have hmem : newline ∈ buf := by
      rw [List.flatten_nil, List.append_nil] at h
      simp [h]
    obtain ⟨hidx, htake, hdrop⟩ := hfound buf [] h hmem
    exact ⟨⟨buf, []⟩, by simp [asyncReadUntil, hmem, hidx], htake, hdrop⟩
  | cons chunk chunks ih =>
    by_cases hmem : newline ∈ buf
    · obtain ⟨hidx, htake, hdrop⟩ := hfound buf (chunk :: chunks) h hmem
      exact ⟨⟨buf, chunk :: chunks⟩, by simp [asyncReadUntil, hmem, hidx], htake, hdrop⟩
    · have happend : buf ++ chunk ++ chunks.flatten = line ++ newline :: after := by
        rw [← h, List.flatten_cons, List.append_assoc]
      obtain ⟨str, hread, hrest⟩ := ih happend
      exact ⟨str, by rw [asyncReadUntil, if_neg hmem, hread], hrest⟩

/-- Without another newline the read ends with the end of the file. -/
theorem asyncReadUntil_end {buf : Str} {chunks : List Str}
    (h : newline ∉ buf ++ chunks.flatten) : asyncReadUntil buf chunks = none := by
  induction chunks generalizing buf with
  | nil =>
    have hmem : newline ∉ buf := fun hmem => h (List.mem_append_left _ hmem)
    rw [asyncReadUntil, if_neg hmem]
  | cons chunk chunks ih =>
    have hmem : newline ∉ buf := fun hmem => h (List.mem_append_left _ hmem)
    rw [asyncReadUntil, if_neg hmem]
    refine ih fun hmem => h ?_
    rwa [List.flatten_cons, ← List.append_assoc]

theorem prefix_of_append_eq {a b c d : Str} (h : a ++ b = c ++ d) (hle : a.length ≤ c.length) :
    a <+: c :=
  List.prefix_of_prefix_length_le (h ▸ List.prefix_append a b) (List.prefix_append c d) hle

/-- A read of exactly `n` bytes gets them, wherever the chunks end. -/
theorem asyncRead_exactly (buf : Str) {n : Nat} {data after : Str} {chunks : List Str}
    (h : chunks.flatten = data ++ after) (hn : data.length = n) :
    ∃ str, asyncRead n buf chunks = some str ∧ str.buf = buf ++ data ∧ str.chunks.flatten = after := by
  induction chunks generalizing buf n data with
  | nil =>
    obtain ⟨rfl, rfl⟩ : data = [] ∧ after = [] := by simpa using h.symm
    have hzero : n = 0 := by simpa using hn.symm
    exact ⟨⟨buf, []⟩, by rw [asyncRead, if_pos hzero], by simp, rfl⟩
  | cons chunk chunks ih =>
    rw [asyncRead]
    by_cases hzero : n = 0
    · have hdata : data = [] := List.length_eq_zero_iff.mp (hn.trans hzero)
      rw [if_pos hzero]
      exact ⟨_, rfl, by simp [hdata], by simpa [hdata] using h⟩
    · rw [if_neg hzero]
      rw [List.flatten_cons] at h
      by_cases hle : chunk.length ≤ n
      · rw [if_pos hle]
        obtain ⟨data', rfl⟩ : chunk <+: data := prefix_of_append_eq h (by omega)
        rw [List.append_assoc, List.append_cancel_left_eq] at h
        rw [List.length_append] at hn
        obtain ⟨str, hread, hbuf, hrest⟩ := ih (buf ++ chunk) (n := n - chunk.length) h (by omega)
        exact ⟨str, hread, by rw [hbuf, List.append_assoc], hrest⟩
      · rw [if_neg hle]
        obtain ⟨after', hchunk⟩ : data <+: chunk := prefix_of_append_eq h.symm (by omega)
        subst hchunk
        rw [List.append_assoc, List.append_cancel_left_eq] at h
        exact ⟨_, rfl, by simp [← hn], by simpa [← hn] using h⟩

@[simp] theorem prepare_none (str : Stream) (n : Nat) : str.prepare none n = .ok () := rfl

/-- The content of a frame is in the buffer after `readContent`, whether it was there before or
not. -/
theorem readContent_data {str : Stream} {data after : Str} (h : str.rest = data ++ after) :
    ∃ str', readContent data.length str = some str' ∧ str'.buf.take data.length = data ∧
      ({ str' with buf := str'.buf.drop data.length } : Stream).rest = after := by
  unfold Stream.rest at h
  unfold readContent
  by_cases hlen : str.buf.length < data.length
  · rw [if_pos hlen]
    obtain ⟨data', rfl⟩ : str.buf <+: data := prefix_of_append_eq h (by omega)
    rw [List.append_assoc, List.append_cancel_left_eq] at h
    obtain ⟨str', hread, hbuf, hrest⟩ :=
      asyncRead_exactly str.buf (n := (str.buf ++ data').length - str.buf.length) h (by simp)
    refine ⟨str', hread, ?_, ?_⟩
    · rw [hbuf, List.take_length]
    · simp [Stream.rest, hbuf, hrest]
  · rw [if_neg hlen]
    obtain ⟨more, hbuf⟩ : data <+: str.buf := prefix_of_append_eq h.symm (by omega)
    refine ⟨str, rfl, ?_, ?_⟩
    · rw [← hbuf, List.take_left]
    · rw [← hbuf, List.append_assoc, List.append_cancel_left_eq] at h
      simp [Stream.rest, ← hbuf, h]

end TclAnalyzer
