import TclAnalyzer.Data.Runs
import TclAnalyzer.Lsp.Proofs.FramingProofs

/-!
# Writes that overlap

All calls of `send_message` share one buffer, and a write takes its bytes off it only when it is
complete. A message that is sent before that is written together with what is in the buffer still, so
that more bytes go out than the frames have.
-/

namespace TclAnalyzer

variable {Json : Type} {lib : JsonLib Json} {events : List (SendEvent Json)} {s s' : Output}
  {event : SendEvent Json}

/-- The bytes that the initiated writes have still to write. -/
def Output.pending (s : Output) : Str := s.writes.flatMap Write.data

/-- The state while no two writes overlap: all is written, or the last message sent is in the buffer
and its write is the only one. -/
inductive InOrder (lib : JsonLib Json) (events : List (SendEvent Json)) (s : Output) : Prop
  | idle : s.writes = [] → s.buf = [] → s.out = frames lib (sentMessages events) →
      completions events = (sentMessages events).length → InOrder lib events s
  | writing (message : Json) (data : Str) :
      s.writes = [{ data, size := (frame (lib.dump message)).length }] →
      s.buf = frame (lib.dump message) → s.out ++ data = frames lib (sentMessages events) →
      completions events + 1 = (sentMessages events).length → InOrder lib events s

/-! ## Events -/

theorem sentMessages_concat (events : List (SendEvent Json)) (event : SendEvent Json) :
    sentMessages (events ++ [event]) =
      sentMessages events ++ (match event with | .send message => [message] | _ => []) := by
  cases event <;> simp [sentMessages]

theorem completions_concat (events : List (SendEvent Json)) (event : SendEvent Json) :
    completions (events ++ [event]) =
      completions events + (match event with | .completed => 1 | _ => 0) := by
  cases event <;> simp [completions]

theorem frames_concat (messages : List Json) (message : Json) :
    frames lib (messages ++ [message]) = frames lib messages ++ frame (lib.dump message) := by
  simp [frames]

theorem frame_ne_nil (data : Str) : frame data ≠ [] := by
  have hname : bytes "Content-Length: " ≠ [] := by decide +kernel
  simp [frame, hname]

theorem serial_nil : Serial ([] : List (SendEvent Json)) := by
  intro before message after h
  simp at h

/-- One more event keeps the messages apart when it does not send one too early. -/
theorem serial_concat_iff : Serial (events ++ [event]) ↔ Serial events ∧
    ∀ message, event = .send message → completions events = (sentMessages events).length := by
  constructor
  · intro h
    refine ⟨fun before message after heq => ?_, fun message heq => ?_⟩
    · exact h before message (after ++ [event]) (by rw [heq]; simp)
    · exact h events message [] (by rw [heq])
  · rintro ⟨h, hlast⟩ before message after heq
    rcases List.eq_nil_or_concat after with rfl | ⟨after', last, rfl⟩
    · obtain ⟨rfl, hevent⟩ := List.append_inj' heq rfl
      exact hlast message (by simpa using hevent)
    · rw [List.concat_eq_append, ← List.cons_append, ← List.append_assoc] at heq
      exact h before message after' (List.append_inj' heq rfl).1

/-! ## Steps -/

/-- What is written and what will be written grows by at least the frame of a message that is sent,
and by more than that when the buffer is not empty. -/
theorem SendStep.total_length (h : SendStep lib s event s') :
    (s'.out ++ s'.pending).length = (s.out ++ s.pending).length +
      (match event with
        | .send message => s.buf.length + (frame (lib.dump message)).length
        | _ => 0) := by
  cases h with
  | send message =>
    simp only [Output.pending, List.flatMap_append, List.flatMap_singleton, List.length_append]
    omega
  | wrote before after size chunk data hwrites =>
    simp only [Output.pending, hwrites, List.flatMap_append, List.flatMap_cons, List.length_append]
    omega
  | completed before after size hwrites =>
    simp [Output.pending, hwrites]

theorem only_write {before after : List Write} {w w' : Write} (h : [w] = before ++ w' :: after) :
    before = [] ∧ w' = w ∧ after = [] := by
  rcases List.append_eq_singleton_iff.mp h.symm with ⟨hbefore, hafter⟩ | ⟨-, hafter⟩
  · rw [List.cons.injEq] at hafter
    exact ⟨hbefore, hafter⟩
  · cases hafter

/-- A step that keeps the messages apart. -/
theorem InOrder.step (h : InOrder lib events s) (hstep : SendStep lib s event s')
    (hserial : ∀ message, event = .send message →
      completions events = (sentMessages events).length) : InOrder lib (events ++ [event]) s' := by
  cases hstep with
  | send message =>
    have hdone := hserial message rfl
    cases h with
    | idle hwrites hbuf hout hcount =>
      refine .writing message (frame (lib.dump message)) ?_ ?_ ?_ ?_
      · simp [hwrites, hbuf]
      · simp [hbuf]
      · rw [sentMessages_concat, frames_concat, hout]
      · rw [sentMessages_concat, completions_concat, List.length_append, hcount]
        rfl
    | writing _ _ _ _ _ hcount =>
      rw [hdone] at hcount
      omega
  | wrote before after size chunk data hwrites =>
    cases h with
    | idle hnone =>
      rw [hnone] at hwrites
      simp at hwrites
    | writing message data' hone hbuf hout hcount =>
      obtain ⟨rfl, hwrite, rfl⟩ := only_write (hone.symm.trans hwrites)
      cases hwrite
      refine .writing message data rfl hbuf ?_ ?_
      · rw [sentMessages_concat, List.append_nil, ← hout, List.append_assoc]
      · rw [sentMessages_concat, completions_concat, List.append_nil]
        exact hcount
  | completed before after size hwrites =>
    cases h with
    | idle hnone =>
      rw [hnone] at hwrites
      simp at hwrites
    | writing message data' hone hbuf hout hcount =>
      obtain ⟨rfl, hwrite, rfl⟩ := only_write (hone.symm.trans hwrites)
      cases hwrite
      refine .idle rfl ?_ ?_ ?_
      · simp [hbuf]
      · rw [List.append_nil] at hout
        rw [sentMessages_concat, hout, List.append_nil]
      · rw [sentMessages_concat, completions_concat, List.append_nil]
        exact hcount

/-- While a message is in the buffer it is not empty. -/
theorem InOrder.buf_ne_nil (h : InOrder lib events s)
    (hcount : completions events ≠ (sentMessages events).length) : s.buf ≠ [] := by
  cases h with
  | idle _ _ _ hdone => exact absurd hdone hcount
  | writing message _ _ hbuf =>
    rw [hbuf]
    exact frame_ne_nil _

/-- What goes out, now or later, are the frames of the messages sent. -/
theorem InOrder.out_pending (h : InOrder lib events s) :
    s.out ++ s.pending = frames lib (sentMessages events) := by
  cases h with
  | idle hwrites _ hout => simp [Output.pending, hwrites, hout]
  | writing message data hwrites _ hout => simp [Output.pending, hwrites, hout]

/-! ## Runs -/

/-- Without overlap the frames go out in order; with overlap there is too much to write. -/
theorem run_outcome (h : Run (SendStep lib) .idle events s) :
    (Serial events → InOrder lib events s) ∧
      (¬Serial events → (frames lib (sentMessages events)).length < (s.out ++ s.pending).length) := by
  induction h with
  | nil => exact ⟨fun _ => .idle rfl rfl rfl rfl, fun h => absurd serial_nil h⟩
  | @snoc events s event s' _ hstep ih =>
    obtain ⟨hinorder, hlong⟩ := ih
    have htotal := hstep.total_length
    refine ⟨fun hserial => ?_, fun hserial => ?_⟩
    · obtain ⟨hbefore, hlast⟩ := serial_concat_iff.mp hserial
      exact (hinorder hbefore).step hstep hlast
    · by_cases hbefore : Serial events
      · -- this event is the first message that is sent too early
        have hlast : ¬∀ message, event = .send message →
            completions events = (sentMessages events).length := fun hlast =>
          hserial (serial_concat_iff.mpr ⟨hbefore, hlast⟩)
        obtain ⟨message, hmessage⟩ := not_forall.mp hlast
        obtain ⟨rfl, hcount⟩ := Classical.not_imp.mp hmessage
        have hbuf := List.length_pos_iff.mpr ((hinorder hbefore).buf_ne_nil hcount)
        have hsent := congrArg List.length (hinorder hbefore).out_pending
        rw [sentMessages_concat, frames_concat, List.length_append, ← hsent, htotal]
        dsimp only
        omega
      · have hbefore' := hlong hbefore
        rw [sentMessages_concat, htotal]
        cases event with
        | send message =>
          rw [frames_concat, List.length_append]
          dsimp only
          omega
        | wrote | completed =>
          rw [List.append_nil]
          exact hbefore'

/-- Without overlap the bytes written are at all times the start of the frames, in order. -/
theorem serial_out_grows (h : Run (SendStep lib) .idle events s) (hserial : Serial events) :
    s.out <+: frames lib (sentMessages events) := by
  rw [← ((run_outcome h).1 hserial).out_pending]
  exact List.prefix_append _ _

/-- In every run the output is made of whole frames, one for each message, exactly when no message is
sent while the write of another one is not complete: at its end if all writes are complete then, and
up to there the output is the start of such frames. -/
theorem output_frames_iff (h : Run (SendStep lib) .idle events s) :
    (Serial events → s.out <+: frames lib (sentMessages events)) ∧
    (s.writes = [] →
      ((∃ order, order.Perm (sentMessages events) ∧ s.out = frames lib order) ↔ Serial events)) := by
  refine ⟨serial_out_grows h, fun hdone => ?_⟩
  have hpending : s.out ++ s.pending = s.out := by
    rw [Output.pending, hdone, List.flatMap_nil, List.append_nil]
  constructor
  · rintro ⟨order, hperm, hout⟩
    by_contra hserial
    have hlong := (run_outcome h).2 hserial
    have hlength : (frames lib order).length = (frames lib (sentMessages events)).length :=
      (hperm.flatMap_right _).length_eq
    rw [hpending, hout, hlength] at hlong
    exact absurd hlong (lt_irrefl _)
  · intro hserial
    have hout := ((run_outcome h).1 hserial).out_pending
    rw [hpending] at hout
    exact ⟨_, .refl _, hout⟩

/-! ## One message -/

/-- The message is written before another one is sent. -/
def alone (lib : JsonLib Json) (message : Json) : List (SendEvent Json) :=
  [.send message, .wrote (frame (lib.dump message)), .completed]

theorem alone_run (lib : JsonLib Json) (message : Json) : Run (SendStep lib) .idle (alone lib message)
    { buf := [], writes := [], out := frame (lib.dump message) } := by
  set f := frame (lib.dump message)
  have h1 : SendStep lib .idle (.send message)
      { buf := f, writes := [⟨f, f.length⟩], out := [] } := .send _ _
  have h2 : SendStep lib { buf := f, writes := [⟨f ++ [], f.length⟩], out := [] } (.wrote f) _ :=
    .wrote _ [] [] f.length f [] rfl
  have h3 : SendStep lib { buf := f, writes := [⟨[], f.length⟩], out := f } .completed _ :=
    .completed _ [] [] f.length rfl
  rw [List.append_nil] at h2
  rw [List.drop_length] at h3
  exact .cons h1 (.cons h2 (.single h3))

theorem alone_serial (lib : JsonLib Json) (message : Json) : Serial (alone lib message) := by
  have hfirst : Serial ([] ++ [SendEvent.send message]) :=
    serial_concat_iff.mpr ⟨serial_nil, fun _ _ => rfl⟩
  have hsecond : Serial ([SendEvent.send message] ++ [.wrote (frame (lib.dump message))]) :=
    serial_concat_iff.mpr ⟨hfirst, by simp⟩
  have hall : Serial ([SendEvent.send message, .wrote (frame (lib.dump message))] ++ [.completed]) :=
    serial_concat_iff.mpr ⟨hsecond, by simp⟩
  exact hall

/-! ## Two messages at once -/

/-- `false` is sent while no byte of `true` has been written yet. -/
def overlapping : List (SendEvent Bool) :=
  [.send true, .send false, .wrote (frame (bytes "true")), .completed,
    .wrote (frame (bytes "true") ++ frame (bytes "false")), .completed]

/-- The second write is of both frames. -/
theorem overlapping_run : ∃ s, Run (SendStep boolLib) .idle overlapping s ∧ s.writes = [] ∧
    s.out = frame (bytes "true") ++ frame (bytes "true") ++ frame (bytes "false") := by
  set f1 := frame (bytes "true")
  set f2 := frame (bytes "false")
  have h1 : SendStep boolLib .idle (.send true)
      { buf := f1, writes := [⟨f1, f1.length⟩], out := [] } := .send _ true
  have h2 : SendStep boolLib { buf := f1, writes := [⟨f1, f1.length⟩], out := [] } (.send false)
      { buf := f1 ++ f2, writes := [⟨f1, f1.length⟩, ⟨f1 ++ f2, (f1 ++ f2).length⟩], out := [] } :=
    .send _ false
  have h3 : SendStep boolLib
      { buf := f1 ++ f2, writes := [⟨f1 ++ [], f1.length⟩, ⟨f1 ++ f2, (f1 ++ f2).length⟩], out := [] }
      (.wrote f1) _ := .wrote _ [] [_] f1.length f1 [] rfl
  have h4 : SendStep boolLib
      { buf := f1 ++ f2, writes := [⟨[], f1.length⟩, ⟨f1 ++ f2, (f1 ++ f2).length⟩], out := f1 }
      .completed _ := .completed _ [] [_] f1.length rfl
  have h5 : SendStep boolLib
      { buf := (f1 ++ f2).drop f1.length, writes := [⟨f1 ++ f2 ++ [], (f1 ++ f2).length⟩], out := f1 }
      (.wrote (f1 ++ f2)) _ := .wrote _ [] [] (f1 ++ f2).length (f1 ++ f2) [] rfl
  have h6 : SendStep boolLib
      { buf := (f1 ++ f2).drop f1.length, writes := [⟨[], (f1 ++ f2).length⟩],
        out := f1 ++ (f1 ++ f2) }
      .completed _ := .completed _ [] [] (f1 ++ f2).length rfl
  rw [List.append_nil] at h3 h5
  refine ⟨_, .cons h1 (.cons h2 (.cons h3 (.cons h4 (.cons h5 (.single h6))))), rfl, ?_⟩
  rw [List.append_assoc]

/-- The frame of `true` goes out twice. -/
theorem overlapping_not_frames : ∃ s, Run (SendStep boolLib) .idle overlapping s ∧ s.writes = [] ∧
    ¬∃ order, order.Perm (sentMessages overlapping) ∧ s.out = frames boolLib order := by
  obtain ⟨s, hrun, hdone, hout⟩ := overlapping_run
  refine ⟨s, hrun, hdone, ?_⟩
  rintro ⟨order, hperm, heq⟩
  have hlength : (frames boolLib order).length = (frames boolLib [true, false]).length :=
    (hperm.flatMap_right _).length_eq
  rw [← heq, hout] at hlength
  exact absurd hlength (by decide +kernel)

/-- A message that is sent alone goes out as its frame. -/
theorem overlapping_frames_iff :
    (∃ s : Output, s.writes = [] ∧
      (Serial overlapping → s.out <+: frames boolLib (sentMessages overlapping)) ∧
      (s.writes = [] → ((∃ order, order.Perm (sentMessages overlapping) ∧
        s.out = frames boolLib order) ↔ Serial overlapping))) ∧
    ∃ s : Output, Run (SendStep boolLib) .idle (alone boolLib true) s ∧
      ∃ order, order.Perm (sentMessages (alone boolLib true)) ∧ s.out = frames boolLib order := by
  constructor
  · obtain ⟨s, hrun, hdone, -⟩ := overlapping_run
    exact ⟨s, hdone, output_frames_iff hrun⟩
  · have hrun := alone_run boolLib true
    exact ⟨_, hrun, ((output_frames_iff hrun).2 rfl).mpr (alone_serial boolLib true)⟩

end TclAnalyzer
