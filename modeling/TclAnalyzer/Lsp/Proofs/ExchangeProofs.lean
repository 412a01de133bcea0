import TclAnalyzer.Lsp.Exchange
import TclAnalyzer.Lsp.Proofs.EncodingProofs
import TclAnalyzer.Lsp.Proofs.FramingProofs
import TclAnalyzer.Lsp.Proofs.SendProofs

/-!
# What comes back to a client

The layers put together: framing and decoding, the conversions, the loop as a run of the server, and
the frames that are sent.
-/

namespace TclAnalyzer

variable {interp : TclInterp} {W : Type} {lib : JsonLib W} {view : W → Json}

/-! ## Bytes -/

theorem readMessages_styled (hlib : lib.Lawful) {sent : List (FrameStyle × W)} {chunks : List Str}
    (h : chunks.flatten = styledFrames lib sent) :
    readMessages lib chunks = (sent.map Prod.snd, .ok ()) := by
  have hlen := length_le_flatMap (fun m : FrameStyle × W => m.1.frame (lib.dump m.2))
    (fun m => m.1.frame_ne_nil _) sent
  refine readMessagesFrom_frames hlib sent ?_ ?_
  · rw [Stream.rest, List.nil_append]
    exact h
  · rw [h, styledFrames]
    omega

/-- What was sent one after the other is read back. -/
theorem readMessages_sent (hlib : lib.Lawful) {sends : List (SendEvent W)} {out : Output}
    (h : Run (SendStep lib) .idle sends out) (hserial : Serial sends) (hcomplete : out.writes = [])
    {chunks : List Str} (hchunks : chunks.flatten = out.out) :
    readMessages lib chunks = (sentMessages sends, .ok ()) := by
  have hout := ((run_outcome h).1 hserial).out_pending
  rw [Output.pending, hcomplete, List.flatMap_nil, List.append_nil, ← hchunks,
    ← styledFrames_sent] at hout
  rw [readMessages_styled hlib hout, List.map_map]
  congr 1
  exact List.map_id' _

/-! ## Messages -/

theorem Message.Encodes.toMessage {m : Message} {j : Json} (h : m.Encodes j) (hfits : m.Fits)
    (n : Nat) : j.toMessage n = some (m.renumber n) := by
  obtain ⟨includeDeclaration, rfl⟩ := h
  rw [message_arrives, (reduced_eq_iff _).mpr ((fits_renumber m n).mpr hfits)]

theorem toMessages_encoded {js : List Json} {messages : List Message}
    (h : List.Forall₂ (fun j m => m.Encodes j) js messages) (hfits : ∀ m ∈ messages, m.Fits) :
    toMessages js = messages.zipIdx.map fun p => p.1.renumber p.2 := by
  -- The numbers start anywhere, for the induction.
  have hfrom : ∀ start, (js.zipIdx start).filterMap (fun p => p.1.toMessage p.2) =
      (messages.zipIdx start).map fun p => p.1.renumber p.2 := by
    induction h with
    | nil => exact fun _ => rfl
    | cons hj _ ih =>
      obtain ⟨hm, hms⟩ := List.forall_mem_cons.mp hfits
      intro start
      rw [List.zipIdx_cons, List.zipIdx_cons, List.filterMap_cons, List.map_cons,
        ← ih hms (start + 1)]
      simp only [hj.toMessage hm start]
  exact hfrom 0

/-- What the loop has received is the start of what the client wrote. -/
theorem Exchange.receivedJson_encoded (x : Exchange interp lib view) (hlib : lib.Lawful) :
    List.Forall₂ (fun j m => m.Encodes j) (receivedJson x.history)
      (x.messages.take (receivedJson x.history).length) := by
  have htaken := x.taken
  rw [readMessages_styled hlib x.written, List.map_map] at htaken
  have hall : List.Forall₂ (fun j m => Message.Encodes m j) (x.sent.map (view ∘ Prod.snd))
      x.messages := List.forall₂_map_left_iff.mpr x.encoded
  have htake := List.forall₂_take (receivedJson x.history).length hall
  rwa [← List.prefix_iff_eq_take.mp htaken] at htake

theorem Exchange.toMessages_eq (x : Exchange interp lib view) (hlib : lib.Lawful) :
    toMessages (receivedJson x.history) = x.numbered.take (receivedJson x.history).length := by
  have hencoded := x.receivedJson_encoded hlib
  set k := (receivedJson x.history).length
  rw [toMessages_encoded hencoded fun m hm => x.fits m (List.mem_of_mem_take hm)]
  unfold Exchange.numbered
  rw [← List.map_take]
  congr 1
  refine List.ext_getElem? fun n => ?_
  rw [List.getElem?_zipIdx, List.getElem?_take, List.getElem?_take, List.getElem?_zipIdx]
  split_ifs <;> rfl

theorem Message.Encodes.method {m : Message} {j : Json} (h : m.Encodes j) :
    ∃ method, j.find (bytes "method") = some (.string method) ∧
      method ≠ bytes "initialize" ∧ method ≠ bytes "shutdown" := by
  obtain ⟨includeDeclaration, rfl⟩ := h
  cases m with
  | request r =>
    refine ⟨r.method.name, rfl, ?_, ?_⟩
    · cases r.method <;> decide
    · cases r.method <;> decide
  | _ => exact ⟨_, rfl, by decide, by decide⟩

/-- A request stands among the messages at its number. -/
theorem Exchange.numbered_request (x : Exchange interp lib view) {request : Request}
    (h : .request request ∈ x.numbered) : ∃ r, x.messages[request.id]? = some (.request r) ∧
      request = { r with id := request.id } := by
  obtain ⟨⟨m, n⟩, hmem, hm⟩ := List.mem_map.mp h
  have hn := List.mem_zipIdx_iff_getElem?.mp hmem
  cases m with
  | request r =>
    cases hm
    exact ⟨r, hn, rfl⟩
  | _ => cases hm

/-- Each JSON value that was received is a message of the client. -/
theorem Exchange.exists_message (x : Exchange interp lib view) (hlib : lib.Lawful) {n : Nat} {j : Json}
    (hj : (receivedJson x.history)[n]? = some j) : ∃ m, x.messages[n]? = some m ∧ m.Encodes j := by
  obtain ⟨hn, rfl⟩ := List.getElem?_eq_some_iff.mp hj
  have hencoded := x.receivedJson_encoded hlib
  have hm : n < (x.messages.take (receivedJson x.history).length).length := hencoded.length_eq ▸ hn
  refine ⟨_, ?_, hencoded.get hn hm⟩
  rw [List.get_eq_getElem, List.getElem_take, List.getElem?_eq_getElem]

/-! ## Responses -/

/-- A reply is to a request that was received. -/
theorem received_of_reply {events : List ServerEvent} {s : Server} {request : Request} {tree : Tree}
    {reply : Reply} (h : Run (ServerStep interp) .initial events s)
    (hreply : .reply request tree reply ∈ events) : .request request ∈ receivedMessages events := by
  obtain ⟨before, after, rfl⟩ := List.append_of_mem hreply
  obtain ⟨t, u, hbefore, hstep, -⟩ := h.split_cons
  obtain ⟨mid, between, rfl, -⟩ := cursor_of_reply hbefore hstep
  have hreceived := received_of_cursor hbefore (List.mem_append_right mid List.mem_cons_self)
  exact mem_receivedMessages.mpr (List.mem_append_left _ hreceived)

/-- Whatever a client sends, in whatever way the bytes are framed and cut on both pipes, the server
receives its messages in order, and the client gets back, in order, exactly the responses of that run
of the server, each with the id of its request and what was read for the names of its files. -/
theorem exchange_responds (x : Exchange interp lib view) (hlib : lib.Lawful) :
    ∃ events responses, x.Responds events responses := by
  obtain ⟨events, responses, htracks⟩ := run_tracks x.dispatched
  have hmessages := x.toMessages_eq hlib
  have hreceived : receivedMessages events <+: x.numbered := by
    have h := htracks.received
    rw [hmessages] at h
    exact h.trans (List.take_prefix _ _)
  refine ⟨events, responses, htracks.run, hreceived, fun hgoes => ?_, ?_, htracks.inOrder, ?_⟩
  · rw [htracks.goesOn hgoes, hmessages]
  · refine ⟨_, readMessages_sent hlib x.sending x.serial x.complete x.delivered, ?_⟩
    rw [x.handed, htracks.out]
  · intro n frame
    rw [htracks.answers]
    constructor
    · rintro ⟨message, hmessage, hanswer⟩
      obtain ⟨m, hm, hencodes⟩ := x.exists_message hlib hmessage
      obtain ⟨method, hmethod, hnotInit, hshutdown⟩ := hencodes.method
      obtain ⟨request, tree, reply, id, hreply, rfl, hid, rfl⟩ :=
        (answers_reply_iff hmethod hnotInit hshutdown).mp hanswer
      obtain ⟨r, hr, hrequest⟩ :=
        x.numbered_request (hreceived.mem (received_of_reply htracks.run hreply))
      cases hm.symm.trans hr
      obtain ⟨includeDeclaration, rfl⟩ := hencodes
      cases hid
      exact ⟨r, tree, reply, hr, hrequest ▸ hreply, rfl⟩
    · rintro ⟨r, tree, reply, hr, hreply, rfl⟩
      have hn := htracks.below _ _ _ hreply
      have hj := List.getElem?_eq_getElem hn
      obtain ⟨m, hm, includeDeclaration, hencoded⟩ := x.exists_message hlib hj
      cases hr.symm.trans hm
      rw [hencoded] at hj
      exact ⟨_, hj, .reply { r with id := n } tree reply (.unsigned r.id) hreply rfl rfl⟩

/-! ## A request before the document is parsed -/

/-- Two messages of a client and a frame of the server. -/
inductive Sample where
  | opened | asked | refused
  deriving DecidableEq

def Sample.text : Sample → Str
  | .opened =>
    bytes "\x7b\"jsonrpc\":\"2.0\",\"method\":\"textDocument/didOpen\",\"params\":\x7b" ++
      bytes "\"textDocument\":\x7b\"languageId\":\"tcl\",\"text\":\"f\",\"uri\":\"u\"," ++
      bytes "\"version\":1\x7d\x7d\x7d"
  | .asked =>
    bytes "\x7b\"id\":1,\"jsonrpc\":\"2.0\",\"method\":\"textDocument/definition\"," ++
      bytes "\"params\":\x7b\"position\":\x7b\"character\":0,\"line\":0\x7d," ++
      bytes "\"textDocument\":\x7b\"uri\":\"u\"\x7d\x7d\x7d"
  | .refused =>
    bytes "\x7b\"id\":1,\"jsonrpc\":\"2.0\",\"result\":\x7b\"code\":101,\"data\":null," ++
      bytes "\"message\":\"Invalid position\"\x7d\x7d"

def Sample.toJson : Sample → Json
  | .opened => (Message.didOpen (openF 1 "f")).toJson false
  | .asked => (Message.request definitionOfF).toJson false
  | .refused => responseMessage (.unsigned 1) (Reply.reject 101 (bytes "Invalid position")).toJson

/-- The JSON library on these. -/
def sampleLib : JsonLib Sample where
  dump := Sample.text
  parse s := [Sample.opened, .asked, .refused].find? fun sample => sample.text = s

theorem sampleLib_lawful : sampleLib.Lawful where
  parse_dump sample := by cases sample <;> decide
  parse_nil := by decide
  dump_size sample := by cases sample <;> decide +kernel

def sampleLoop : Dispatcher :=
  let d := Dispatcher.initial.turn .initial default Sample.opened.toJson
  d.turn d.server default Sample.asked.toJson

theorem sampleLoop_run : Run (DispatchStep oneWordInterp) .initial
    [.receive Sample.opened.toJson [], .receive Sample.asked.toJson []] sampleLoop :=
  .cons (.receive _ _ [] _ default rfl .nil (by simp))
    (.single (.receive _ _ [] _ default rfl .nil (by simp)))

def sampleFrame : Str := frame Sample.refused.text

def sampleSent : List (FrameStyle × Sample) := [(.sent, .opened), (.sent, .asked)]

theorem sampleSent_written : [styledFrames sampleLib sampleSent].flatten =
    styledFrames sampleLib sampleSent := List.flatten_singleton

/-- A request that is asked right after its document was opened, before any `Reparse`. -/
def sampleExchange : Exchange oneWordInterp sampleLib Sample.toJson where
  messages := [.didOpen (openF 1 "f"), .request definitionOfF]
  fits := by
    intro m hm
    rcases List.mem_pair.mp hm with rfl | rfl
    · exact ⟨by decide, by decide⟩
    · exact ⟨by decide, by decide⟩
  sent := sampleSent
  encoded := .cons ⟨false, rfl⟩ (.cons ⟨false, rfl⟩ .nil)
  input := [styledFrames sampleLib sampleSent]
  written := sampleSent_written
  history := [.receive Sample.opened.toJson [], .receive Sample.asked.toJson []]
  loop := sampleLoop
  dispatched := sampleLoop_run
  taken := by
    rw [readMessages_styled sampleLib_lawful sampleSent_written]
    exact List.prefix_rfl
  sends := alone sampleLib .refused
  out := { buf := [], writes := [], out := sampleFrame }
  sending := alone_run sampleLib .refused
  handed := rfl
  serial := alone_serial sampleLib .refused
  complete := rfl
  output := [sampleFrame]
  delivered := by simp

theorem sampleExchange_responds : ∃ events responses, sampleExchange.Responds events responses :=
  exchange_responds sampleExchange sampleLib_lawful

end TclAnalyzer
