import Mathlib.Data.List.Sort
import TclAnalyzer.Lsp.Proofs.LoopProofs
import TclAnalyzer.Lsp.Wire

/-!
# The loop over the messages refines the server

Each turn of the loop is a run of the server that receives the message of the JSON message, if there is
one, and a frame is sent exactly where that run has a reply. From the turns the same follows for runs
of the loop, whatever the threads do in between.
-/

namespace TclAnalyzer

variable {interp : TclInterp} {event : ServerEvent} {events between : List ServerEvent}
  {s s' later : Server} {d d' : Dispatcher} {message id : Json} {remains : Remains}
  {history : List DispatchEvent} {method : Str} {n : Nat}

/-! ## Conversion -/

theorem params_eq_some {α : Type} {get : Json → Except Fault α} {a : α} :
    message.params get = some a ↔ (message.at (bytes "params") >>= get) = .ok a := by
  unfold Json.params
  cases message.at (bytes "params") >>= get with
  | ok b => simp [Except.toOption]
  | error fault => simp [Except.toOption]

theorem params_eq_none {α : Type} {get : Json → Except Fault α} :
    message.params get = none ↔ ∃ fault, (message.at (bytes "params") >>= get) = .error fault := by
  unfold Json.params
  cases message.at (bytes "params") >>= get with
  | ok b => simp [Except.toOption]
  | error fault => simp [Except.toOption]

theorem toMessage_exit (hmethod : message.find (bytes "method") = some (.string (bytes "exit"))) :
    message.toMessage n = some .exit := by
  unfold Json.toMessage
  simp only [hmethod]
  rw [if_pos trivial]

theorem toMessage_didOpen
    (hmethod : message.find (bytes "method") = some (.string (bytes "textDocument/didOpen"))) :
    message.toMessage n = (message.params didOpenParams).map .didOpen := by
  unfold Json.toMessage
  simp only [hmethod]
  rw [if_neg (by decide), if_pos trivial]

theorem toMessage_didChange
    (hmethod : message.find (bytes "method") = some (.string (bytes "textDocument/didChange"))) :
    message.toMessage n = (message.params didChangeParams).map fun (uri, version, contentChanges) =>
      .didChange uri version contentChanges := by
  unfold Json.toMessage
  simp only [hmethod]
  rw [if_neg (by decide), if_neg (by decide), if_pos trivial]

theorem toMessage_didClose
    (hmethod : message.find (bytes "method") = some (.string (bytes "textDocument/didClose"))) :
    message.toMessage n = (message.params didCloseParams).map .didClose := by
  unfold Json.toMessage
  simp only [hmethod]
  rw [if_neg (by decide), if_neg (by decide), if_neg (by decide),
    if_pos trivial]

theorem toMessage_request {method : RequestMethod}
    (hmethod : message.find (bytes "method") = some (.string method.name)) :
    message.toMessage n = (message.params method.params).map fun (uri, position) =>
      .request { method, id := n, uri, position } := by
  unfold Json.toMessage
  simp only [hmethod]
  cases method with
  | references =>
    rw [if_neg (by decide), if_neg (by decide), if_neg (by decide),
      if_neg (by decide)]
    exact if_pos rfl
  | definition =>
    rw [if_neg (by decide), if_neg (by decide), if_neg (by decide),
      if_neg (by decide), if_neg (by decide)]
    exact if_pos rfl

/-- The other methods are not messages of the server. -/
theorem toMessage_other (hmethod : message.find (bytes "method") = some (.string method))
    (h : ∀ other ∈ ["exit", "textDocument/didOpen", "textDocument/didChange",
      "textDocument/didClose", "textDocument/references", "textDocument/definition"],
      method ≠ bytes other) : message.toMessage n = none := by
  unfold Json.toMessage
  simp only [hmethod]
  rw [if_neg (h _ (by simp)), if_neg (h _ (by simp)), if_neg (h _ (by simp)), if_neg (h _ (by simp)),
    if_neg (show method ≠ RequestMethod.references.name from h _ (by simp)),
    if_neg (show method ≠ RequestMethod.definition.name from h _ (by simp))]

/-! ## Handlers -/

/-- An error of a spawned handler leaves the rest as it is. -/
theorem spawn_error (d : Dispatcher) (fault : Fault) :
    (d.spawn (.error fault)).server = d.server ∧ (d.spawn (.error fault)).out = d.out ∧
      ((d.spawn (.error fault)).status.goesOn = true → fault.isException = true) := by
  unfold Dispatcher.spawn
  dsimp only
  by_cases hexception : fault.isException = true
  · rw [if_pos hexception]
    exact ⟨rfl, rfl, fun _ => hexception⟩
  · rw [if_neg hexception]
    exact ⟨rfl, rfl, fun h => nomatch h⟩

/-- `on_textdocument_didopen` converts its parameters, and nothing else of it fails. -/
theorem didOpen_cases (d : Dispatcher) (message : Json) :
    (∃ item, message.params didOpenParams = some item ∧
      onTextdocumentDidopen d message = .ok { d with server := d.server.receive (.didOpen item) }) ∨
    message.params didOpenParams = none ∧
      ∃ fault, onTextdocumentDidopen d message = .error fault := by
  have hhandler : onTextdocumentDidopen d message = (message.at (bytes "params") >>= didOpenParams) >>=
      fun item => .ok { d with server := onDidOpen d.server item } := (bind_assoc _ _ _).symm
  rw [hhandler]
  unfold Json.params
  cases hparams : message.at (bytes "params") >>= didOpenParams with
  | ok item => exact Or.inl ⟨item, rfl, rfl⟩
  | error fault => exact Or.inr ⟨rfl, fault, rfl⟩

/-- `on_textdocument_didchange` throws, besides, where the document is not known, and changes nothing
then. Where it writes a text that is read, it has no defined effect. -/
theorem didChange_cases (d : Dispatcher) (message : Json) :
    (∃ uri version contentChanges,
      message.params didChangeParams = some (uri, version, contentChanges) ∧
      (onTextdocumentDidchange d message =
          .ok { d with server := d.server.receive (.didChange uri version contentChanges) } ∨
        ∃ fault, onTextdocumentDidchange d message = .error fault ∧
          (fault.isException = true →
            d.server.receive (.didChange uri version contentChanges) = d.server))) ∨
    message.params didChangeParams = none ∧
      ∃ fault, onTextdocumentDidchange d message = .error fault := by
  have hhandler : onTextdocumentDidchange d message =
      (message.at (bytes "params") >>= didChangeParams) >>= fun (uri, version, contentChanges) => do
        if d.server.races uri version contentChanges then throw .undefined
        return { d with server := ← onDidChange d.server uri version contentChanges } :=
    (bind_assoc _ _ _).symm
  rw [hhandler]
  unfold Json.params
  cases hparams : message.at (bytes "params") >>= didChangeParams with
  | error fault => exact Or.inr ⟨rfl, fault, rfl⟩
  | ok params =>
    left
    obtain ⟨uri, version, contentChanges⟩ := params
    refine ⟨uri, version, contentChanges, rfl, ?_⟩
    rw [ok_bind]
    dsimp only
    by_cases hraces : d.server.races uri version contentChanges = true
    · rw [if_pos hraces]
      exact Or.inr ⟨.undefined, rfl, fun hexception => nomatch hexception⟩
    · rw [if_neg hraces]
      cases hchange : onDidChange d.server uri version contentChanges with
      | ok server =>
        left
        simp only [Server.receive, hchange]
        rfl
      | error fault =>
        right
        refine ⟨fault, rfl, fun _ => ?_⟩
        simp only [Server.receive, hchange]

/-- `on_textdocument_didclose` is not spawned: where it throws the loop is left, and where it waits for
the lock the loop waits. -/
theorem call_didClose (d : Dispatcher) (message : Json) :
    (∃ uri, message.params didCloseParams = some uri ∧ d.server.replying = 0 ∧
      d.call (onTextdocumentDidclose d message) =
        { d with server := d.server.receive (.didClose uri) } ∧
      d.server.SameLoop (d.server.receive (.didClose uri))) ∨
    ((d.call (onTextdocumentDidclose d message)).status.goesOn = false ∧
      (d.call (onTextdocumentDidclose d message)).server = d.server ∧
      (d.call (onTextdocumentDidclose d message)).out = d.out) := by
  cases hresult : onTextdocumentDidclose d message with
  | ok d' =>
    rcases didClose_notifies hresult with ⟨-, rfl⟩ | ⟨⟨notification, -, hserver, hsame⟩, -⟩
    · exact Or.inr ⟨rfl, rfl, rfl⟩
    unfold onTextdocumentDidclose at hresult
    obtain ⟨params, hparams, h⟩ := bind_eq_ok.mp hresult
    obtain ⟨uri, huri, h⟩ := bind_eq_ok.mp h
    by_cases hreplying : d.server.replying ≠ 0
    · rw [if_pos hreplying] at h
      cases h
      exact Or.inr ⟨rfl, rfl, rfl⟩
    left
    rw [if_neg hreplying] at h
    obtain ⟨server, hclose, h⟩ := bind_eq_ok.mp h
    cases h
    have hreceive : d.server.receive (.didClose uri) = server := by
      simp only [Server.receive, hclose]
    refine ⟨uri, params_eq_some.mpr (bind_eq_ok.mpr ⟨params, hparams, huri⟩), not_not.mp hreplying,
      ?_, ?_⟩
    · rw [hreceive]
      rfl
    · rw [hreceive]
      exact hsame
  | error fault =>
    right
    refine ⟨?_, rfl, rfl⟩
    show (if fault.isException then LoopStatus.left else LoopStatus.aborted).goesOn = false
    split
    · rfl
    · rfl

/-! ## Requests -/

theorem receivedMessages_concat (events : List ServerEvent) (event : ServerEvent) :
    receivedMessages (events ++ [event]) =
      receivedMessages events ++ (match event with | .receive message => [message] | _ => []) := by
  unfold receivedMessages
  rw [List.filterMap_append]
  cases event <;> rfl

/-- The threads reply to nothing. -/
theorem background_events (h : ∀ event ∈ between, event.isBackground = true) :
    receivedMessages between = [] ∧
      ∀ request tree reply, .reply request tree reply ∉ between := by
  constructor
  · refine List.filterMap_eq_nil_iff.mpr fun event hevent => ?_
    have hbackground := h event hevent
    cases event with
    | receive => cases hbackground
    | _ => rfl
  · exact fun request tree reply hmem => nomatch h _ hmem

/-- What a handler of a request does until it replies. -/
theorem waits_events (request : Request) (tree : Tree)
    (hbetween : ∀ event ∈ between, event.isBackground = true) :
    receivedMessages (.receive (.request request) :: .cursor request tree :: between) =
        [.request request] ∧
      ∀ request' tree' reply, .reply request' tree' reply ∉
        (.receive (.request request) :: .cursor request tree :: between : List ServerEvent) := by
  obtain ⟨hnone, hnoReply⟩ := background_events hbetween
  constructor
  · show Message.request request :: receivedMessages between = _
    rw [hnone]
  · intro request' tree' reply hmem
    simp only [List.mem_cons, reduceCtorEq, false_or] at hmem
    exact hnoReply _ _ _ hmem

/-- A handler of a request that finds no cursor. -/
theorem request_dropped {request : Request} {fault : Fault} (hidle : s.Idle)
    (hlookup : getLookup s request = .error fault) (hexception : fault.isException = true) :
    ServerStep interp { s with requests := [request] } (.dropped request) s := by
  have hserver : ({ s with requests := [] ++ [] } : Server) = s := by
    rw [List.append_nil, ← hidle.requests]
  have hstep : ServerStep interp { s with requests := [request] } (.dropped request) _ :=
    .noCursor _ [] [] request fault hidle.blocked rfl hlookup hexception
  rwa [hserver] at hstep

/-- A handler of a request that has its cursor and does not reply. -/
theorem request_unanswered {lookup : Lookup} {fault : Fault} (hidle : s.Idle)
    (hanswer : lookup.answer s remains = .error fault) (hexception : fault.isException = true) :
    ServerStep interp { s with requests := [], cursors := [lookup] } (.dropped lookup.request) s := by
  have hserver : ({ s with requests := [], cursors := [] ++ [] } : Server) = s := by
    rw [List.append_nil, ← hidle.requests, ← hidle.cursors]
  exact hserver ▸ .noReply _ [] [] lookup remains fault hidle.blocked rfl hanswer hexception

/-! ## Turns -/

/-- A turn of the loop, on message number `n`: the events of the server in it, and the frames sent. -/
structure Turned (interp : TclInterp) (d d' : Dispatcher) (n : Nat) (message : Json)
    (events : List ServerEvent) (frames : List Json) : Prop where
  run : Run (ServerStep interp) d.server events d'.server
  idle : d'.server.Idle
  received : receivedMessages events <+: (message.toMessage n).toList
  goesOn : d'.status.goesOn = true → receivedMessages events = (message.toMessage n).toList
  out : d'.out = d.out ++ frames
  once : frames.length ≤ 1
  own : ∀ request tree reply, .reply request tree reply ∈ events → request.id = n
  answers : ∀ frame, frame ∈ frames ↔ Answers events n message frame

/-- The answer to a message of another method than `initialize` and `shutdown` is a reply. -/
theorem answers_reply_iff {frame : Json}
    (hmethod : message.find (bytes "method") = some (.string method))
    (hnotInit : method ≠ bytes "initialize") (hshutdown : method ≠ bytes "shutdown") :
    Answers events n message frame ↔ ∃ request tree reply id, .reply request tree reply ∈ events ∧
      request.id = n ∧ message.find (bytes "id") = some id ∧
      frame = responseMessage id reply.toJson := by
  constructor
  · intro h
    cases h with
    | capabilities id hfind =>
      exact absurd (Json.string.inj (Option.some.inj (hmethod.symm.trans hfind))) hnotInit
    | shutdown id hfind =>
      exact absurd (Json.string.inj (Option.some.inj (hmethod.symm.trans hfind))) hshutdown
    | reply request tree reply id hreply hn hid => exact ⟨request, tree, reply, id, hreply, hn, hid, rfl⟩
  · rintro ⟨request, tree, reply, id, hreply, hn, hid, rfl⟩
    exact .reply request tree reply id hreply hn hid

/-- A turn in which only the threads do something. -/
theorem turned_quiet (hidle : d.server.Idle) (hrun : Run (ServerStep interp) d.server between later)
    (hbetween : ∀ event ∈ between, event.isBackground = true) (hserver : d'.server = later)
    (hout : d'.out = d.out) (hgoes : d'.status.goesOn = true → message.toMessage n = none)
    (hanswers : ∀ frame, ¬Answers between n message frame) :
    Turned interp d d' n message between [] := by
  obtain ⟨hnone, hnoReply⟩ := background_events hbetween
  have hlater := hidle.of_sameLoop (between_loop hrun hbetween)
  constructor
  · rwa [hserver]
  · rwa [hserver]
  · rw [hnone]
    exact List.nil_prefix
  · intro hstatus
    rw [hnone, hgoes hstatus]
    rfl
  · rw [hout, List.append_nil]
  · simp
  · exact fun request tree reply hmem => absurd hmem (hnoReply request tree reply)
  · intro frame
    simp [hanswers frame]

/-- A turn in which the server gets a notification. -/
theorem turned_notified {notification : Message} (hidle : d.server.Idle)
    (hrun : Run (ServerStep interp) d.server between later)
    (hbetween : ∀ event ∈ between, event.isBackground = true)
    (hlocks : notification.locks = true → later.replying = 0)
    (hsame : later.SameLoop (later.receive notification))
    (hmessage : message.toMessage n = some notification)
    (hmethod : message.find (bytes "method") = some (.string method))
    (hnotInit : method ≠ bytes "initialize") (hshutdown : method ≠ bytes "shutdown")
    (hserver : d'.server = later.receive notification) (hout : d'.out = d.out) :
    Turned interp d d' n message (between ++ [.receive notification]) [] := by
  obtain ⟨hnone, hnoReply⟩ := background_events hbetween
  have hlater := hidle.of_sameLoop (between_loop hrun hbetween)
  have hreceived : receivedMessages (between ++ [.receive notification]) =
      (message.toMessage n).toList := by
    rw [hmessage]
    show List.filterMap _ _ = _
    rw [List.filterMap_append]
    exact congrArg (· ++ [notification]) hnone
  have hreply : ∀ request tree reply,
      ServerEvent.reply request tree reply ∉ between ++ [.receive notification] := by
    intro request tree reply hmem
    rcases List.mem_append.mp hmem with hmem | hmem
    · exact hnoReply request tree reply hmem
    · cases List.mem_singleton.mp hmem
  constructor
  · rw [hserver]
    exact hrun.snoc (.receive later notification hlater.listening hlocks)
  · rw [hserver]
    exact hlater.of_sameLoop hsame
  · rw [hreceived]
  · exact fun _ => hreceived
  · rw [hout, List.append_nil]
  · simp
  · exact fun request tree reply hmem => absurd hmem (hreply request tree reply)
  · intro frame
    rw [answers_reply_iff hmethod hnotInit hshutdown]
    constructor
    · simp
    · rintro ⟨request, tree, reply, id, hmem, -⟩
      exact absurd hmem (hreply request tree reply)

theorem find_of_index {key : Str} {v : Json} (h : message.index key = .ok v) :
    message.find key = some v := by
  unfold Json.index at h
  split at h
  · split at h
    · rename_i v' hlookup
      cases h
      exact hlookup
    · cases h
  · cases h

theorem not_answers_between {frame : Json} (hbetween : ∀ event ∈ between, event.isBackground = true)
    (hmethod : ∀ other ∈ ["initialize", "shutdown"],
      message.find (bytes "method") ≠ some (.string (bytes other))) :
    ¬Answers between n message frame := by
  intro h
  cases h with
  | capabilities id hfind => exact hmethod _ (by simp) hfind
  | shutdown id hfind => exact hmethod _ (by simp) hfind
  | reply request tree reply id hreply =>
    exact (background_events hbetween).2 request tree reply hreply

/-- A turn that only sends a frame. -/
theorem turned_sends {frame : Json} (hidle : d.server.Idle)
    (hrun : Run (ServerStep interp) d.server between later)
    (hbetween : ∀ event ∈ between, event.isBackground = true)
    (hmessage : message.toMessage n = none)
    (hanswers : ∀ frame', Answers between n message frame' ↔ frame' = frame)
    (hserver : d'.server = later) (hout : d'.out = d.out ++ [frame]) :
    Turned interp d d' n message between [frame] := by
  obtain ⟨hnone, hnoReply⟩ := background_events hbetween
  have hlater := hidle.of_sameLoop (between_loop hrun hbetween)
  have hreceived : receivedMessages between = (message.toMessage n).toList := by
    rw [hnone, hmessage]
    rfl
  constructor
  · rwa [hserver]
  · rwa [hserver]
  · rw [hreceived]
  · exact fun _ => hreceived
  · exact hout
  · simp
  · exact fun request tree reply hmem => absurd hmem (hnoReply request tree reply)
  · intro frame'
    rw [hanswers, List.mem_singleton]

theorem turned_initialize (hidle : d.server.Idle)
    (hrun : Run (ServerStep interp) d.server between later)
    (hbetween : ∀ event ∈ between, event.isBackground = true)
    (hmethod : message.find (bytes "method") = some (.string (bytes "initialize"))) :
    ∃ frames, Turned interp d (d.turn later remains message) n message between frames := by
  have hmessage : message.toMessage n = none := toMessage_other hmethod (by decide)
  have hcases : ∀ frame, Answers between n message frame ↔ ∃ id,
      message.find (bytes "id") = some id ∧ InitializeShape message ∧
        frame = responseMessage id (.object [(bytes "capabilities", capabilities)]) := by
    intro frame
    constructor
    · intro h
      cases h with
      | capabilities id _ hid hshape => exact ⟨id, hid, hshape, rfl⟩
      | shutdown id hfind =>
        exact absurd (Json.string.inj (Option.some.inj (hmethod.symm.trans hfind))) (by decide)
      | reply request tree reply id hreply =>
        exact absurd hreply ((background_events hbetween).2 request tree reply)
    · rintro ⟨id, hid, hshape, rfl⟩
      exact .capabilities id hmethod hid hshape
  rw [turn_initialize_eq hmethod]
  cases hresult : handleInitialize { d with server := later } message with
  | ok d' =>
    obtain ⟨id, hid⟩ : ∃ id, message.find (bytes "id") = some id := by
      unfold handleInitialize at hresult
      obtain ⟨params, -, h⟩ := bind_eq_ok.mp hresult
      obtain ⟨options, -, h⟩ := bind_eq_ok.mp h
      obtain ⟨paths, -, h⟩ := bind_eq_ok.mp h
      obtain ⟨root, -, h⟩ := bind_eq_ok.mp h
      obtain ⟨id, hid, -⟩ := bind_eq_ok.mp h
      exact ⟨id, find_of_index hid⟩
    obtain ⟨hshape, rfl⟩ := handleInitialize_ok hid hresult
    refine ⟨_, turned_sends hidle hrun hbetween hmessage (fun frame => ?_) rfl rfl⟩
    rw [hcases]
    constructor
    · rintro ⟨id', hid', -, rfl⟩
      rw [Option.some.inj (hid.symm.trans hid')]
    · rintro rfl
      exact ⟨id, hid, hshape, rfl⟩
  | error fault =>
    obtain ⟨hserver, hout, -⟩ := spawn_error { d with server := later } fault
    refine ⟨[], turned_quiet hidle hrun hbetween hserver hout (fun _ => hmessage) fun frame h => ?_⟩
    obtain ⟨id, hid, hshape, -⟩ := (hcases frame).mp h
    rw [handleInitialize_of_shape hid hshape] at hresult
    cases hresult

theorem turn_shutdown_eq (hmethod : message.find (bytes "method") = some (.string (bytes "shutdown"))) :
    d.turn later remains message = Dispatcher.call { d with server := later }
      (message.index (bytes "id") >>= fun id =>
        .ok { Dispatcher.send { d with server := later } (responseMessage id .null) with
          status := .sending }) := by
  unfold Dispatcher.turn
  simp only [hmethod]
  rw [if_neg (by decide), if_pos trivial]
  rfl

theorem turned_shutdown (hidle : d.server.Idle)
    (hrun : Run (ServerStep interp) d.server between later)
    (hbetween : ∀ event ∈ between, event.isBackground = true)
    (hmethod : message.find (bytes "method") = some (.string (bytes "shutdown"))) :
    ∃ frames, Turned interp d (d.turn later remains message) n message between frames := by
  have hmessage : message.toMessage n = none := toMessage_other hmethod (by decide)
  have hcases : ∀ frame, Answers between n message frame ↔ ∃ id,
      message.find (bytes "id") = some id ∧ frame = responseMessage id .null := by
    intro frame
    constructor
    · intro h
      cases h with
      | capabilities id hfind =>
        exact absurd (Json.string.inj (Option.some.inj (hmethod.symm.trans hfind))) (by decide)
      | shutdown id _ hid => exact ⟨id, hid, rfl⟩
      | reply request tree reply id hreply =>
        exact absurd hreply ((background_events hbetween).2 request tree reply)
    · rintro ⟨id, hid, rfl⟩
      exact .shutdown id hmethod hid
  rw [turn_shutdown_eq hmethod]
  cases hresult : message.index (bytes "id") with
  | ok id =>
    have hid := find_of_index hresult
    refine ⟨_, turned_sends hidle hrun hbetween hmessage (fun frame => ?_) rfl rfl⟩
    rw [hcases]
    constructor
    · rintro ⟨id', hid', rfl⟩
      rw [Option.some.inj (hid.symm.trans hid')]
    · rintro rfl
      exact ⟨id, hid, rfl⟩
  | error fault =>
    refine ⟨[], turned_quiet hidle hrun hbetween rfl rfl (fun _ => hmessage) fun frame h => ?_⟩
    obtain ⟨id, hid, -⟩ := (hcases frame).mp h
    rw [Json.index_eq_ok hid] at hresult
    cases hresult

/-! ## Turns on notifications -/

/-- A message of another method gets no answer from what the threads do. -/
theorem not_answers_other {frame : Json} (hbetween : ∀ event ∈ between, event.isBackground = true)
    (hmethod : message.find (bytes "method") = some (.string method))
    (hnotInit : method ≠ bytes "initialize") (hshutdown : method ≠ bytes "shutdown") :
    ¬Answers between n message frame := by
  refine not_answers_between hbetween fun other hmem heq => ?_
  have hother := Json.string.inj (Option.some.inj (hmethod.symm.trans heq))
  simp only [List.mem_cons, List.not_mem_nil, or_false] at hmem
  rcases hmem with rfl | rfl
  · exact hnotInit hother
  · exact hshutdown hother

theorem turned_didOpen (hidle : d.server.Idle) (hrun : Run (ServerStep interp) d.server between later)
    (hbetween : ∀ event ∈ between, event.isBackground = true)
    (hmethod : message.find (bytes "method") = some (.string (bytes "textDocument/didOpen"))) :
    ∃ events frames, Turned interp d (Dispatcher.spawn { d with server := later }
      (onTextdocumentDidopen { d with server := later } message)) n message events frames := by
  have hnotInit : bytes "textDocument/didOpen" ≠ bytes "initialize" := by decide
  have hshutdown : bytes "textDocument/didOpen" ≠ bytes "shutdown" := by decide
  rcases didOpen_cases { d with server := later } message with
    ⟨item, hparams, hresult⟩ | ⟨hparams, fault, hresult⟩
  · have hmessage : message.toMessage n = some (.didOpen item) := by
      rw [toMessage_didOpen hmethod, hparams]
      rfl
    rw [hresult]
    exact ⟨_, _, turned_notified hidle hrun hbetween (by simp [Message.locks])
      (didOpen_sameLoop later item) hmessage hmethod hnotInit hshutdown rfl rfl⟩
  · have hmessage : message.toMessage n = none := by
      rw [toMessage_didOpen hmethod, hparams]
      rfl
    rw [hresult]
    obtain ⟨hserver, hout, -⟩ := spawn_error { d with server := later } fault
    exact ⟨_, _, turned_quiet hidle hrun hbetween hserver hout (fun _ => hmessage)
      fun frame => not_answers_other hbetween hmethod hnotInit hshutdown⟩

/-- A change of a text that is read at the same time has no defined effect, and is not followed. -/
theorem turned_didChange (hidle : d.server.Idle)
    (hrun : Run (ServerStep interp) d.server between later)
    (hbetween : ∀ event ∈ between, event.isBackground = true)
    (hmethod : message.find (bytes "method") = some (.string (bytes "textDocument/didChange"))) :
    ∃ events frames, Turned interp d (Dispatcher.spawn { d with server := later }
      (onTextdocumentDidchange { d with server := later } message)) n message events frames := by
  have hnotInit : bytes "textDocument/didChange" ≠ bytes "initialize" := by decide
  have hshutdown : bytes "textDocument/didChange" ≠ bytes "shutdown" := by decide
  have hnoAnswer : ∀ frame, ¬Answers between n message frame :=
    fun frame => not_answers_other hbetween hmethod hnotInit hshutdown
  rcases didChange_cases { d with server := later } message with
    ⟨uri, version, contentChanges, hparams, hresult⟩ | ⟨hparams, fault, hresult⟩
  · have hmessage : message.toMessage n = some (.didChange uri version contentChanges) := by
      rw [toMessage_didChange hmethod, hparams]
      rfl
    have hsame := didChange_sameLoop later uri version contentChanges
    rcases hresult with hresult | ⟨fault, hresult, hunchanged⟩
    · rw [hresult]
      exact ⟨_, _, turned_notified hidle hrun hbetween (by simp [Message.locks]) hsame hmessage
        hmethod hnotInit hshutdown rfl rfl⟩
    · rw [hresult]
      obtain ⟨hserver, hout, hstatus⟩ := spawn_error { d with server := later } fault
      by_cases hexception : fault.isException = true
      · exact ⟨_, _, turned_notified hidle hrun hbetween (by simp [Message.locks]) hsame hmessage
          hmethod hnotInit hshutdown (hserver.trans (hunchanged hexception).symm) hout⟩
      · exact ⟨_, _, turned_quiet hidle hrun hbetween hserver hout
          (fun hgoes => absurd (hstatus hgoes) hexception) hnoAnswer⟩
  · have hmessage : message.toMessage n = none := by
      rw [toMessage_didChange hmethod, hparams]
      rfl
    rw [hresult]
    obtain ⟨hserver, hout, -⟩ := spawn_error { d with server := later } fault
    exact ⟨_, _, turned_quiet hidle hrun hbetween hserver hout (fun _ => hmessage) hnoAnswer⟩

theorem turned_didClose (hidle : d.server.Idle) (hrun : Run (ServerStep interp) d.server between later)
    (hbetween : ∀ event ∈ between, event.isBackground = true)
    (hmethod : message.find (bytes "method") = some (.string (bytes "textDocument/didClose"))) :
    ∃ events frames, Turned interp d (Dispatcher.call { d with server := later }
      (onTextdocumentDidclose { d with server := later } message)) n message events frames := by
  have hnotInit : bytes "textDocument/didClose" ≠ bytes "initialize" := by decide
  have hshutdown : bytes "textDocument/didClose" ≠ bytes "shutdown" := by decide
  rcases call_didClose { d with server := later } message with
    ⟨uri, hparams, hreplying, hcall, hsame⟩ | ⟨hstatus, hserver, hout⟩
  · have hmessage : message.toMessage n = some (.didClose uri) := by
      rw [toMessage_didClose hmethod, hparams]
      rfl
    rw [hcall]
    exact ⟨_, _, turned_notified hidle hrun hbetween (fun _ => hreplying) hsame hmessage hmethod
      hnotInit hshutdown rfl rfl⟩
  · exact ⟨_, _, turned_quiet hidle hrun hbetween hserver hout
      (fun hgoes => absurd (hstatus.symm.trans hgoes) Bool.false_ne_true)
      fun frame => not_answers_other hbetween hmethod hnotInit hshutdown⟩

/-! ## Turns on requests -/

theorem onRequest_eq (method : RequestMethod) (d : Dispatcher) (later : Server) (remains : Remains)
    (message : Json) :
    onRequest method d later remains message =
      (message.at (bytes "params") >>= method.params) >>= fun (uri, position) =>
        getLookup d.server { method, id := 0, uri, position } >>= fun lookup =>
          lookup.answer later remains >>= fun (reply, index) =>
            message.index (bytes "id") >>= fun id =>
              .ok (Dispatcher.send { d with server := later.replied reply index }
                (responseMessage id reply.toJson)) :=
  (bind_assoc _ _ _).symm

/-- The number of a request plays no part in how it is answered. -/
theorem getLookup_number (s : Server) (request : Request) (n : Nat) :
    getLookup s { request with id := n } =
      getLookup s request >>= fun lookup => .ok { lookup with request := { request with id := n } } := by
  unfold getLookup
  dsimp only
  cases s.documents request.uri with
  | none => rfl
  | some document =>
    dsimp only
    cases getCursor s request.uri request.position with
    | error fault => rfl
    | ok cursor => rfl

/-- A turn on a request whose handler throws. -/
theorem turned_dropped {request : Request} (hlater : later.Idle)
    (hrun : Run (ServerStep interp) d.server events later)
    (hreceived : receivedMessages events = [.request request])
    (hreply : ∀ request tree reply, .reply request tree reply ∉ events)
    (hmessage : message.toMessage n = some (.request request))
    (hmethod : message.find (bytes "method") = some (.string method))
    (hnotInit : method ≠ bytes "initialize") (hshutdown : method ≠ bytes "shutdown")
    (hserver : d'.server = later) (hout : d'.out = d.out) :
    Turned interp d d' n message events [] := by
  constructor
  · rwa [hserver]
  · rwa [hserver]
  · rw [hreceived, hmessage]
    exact List.prefix_rfl
  · intro _
    rw [hreceived, hmessage]
    rfl
  · rw [hout, List.append_nil]
  · simp
  · exact fun request tree reply hmem => absurd hmem (hreply request tree reply)
  · intro frame
    rw [answers_reply_iff hmethod hnotInit hshutdown]
    constructor
    · simp
    · rintro ⟨request, tree, reply, id, hmem, -⟩
      exact absurd hmem (hreply request tree reply)

/-- A turn on a request whose handler replies. -/
theorem turned_replied {request : Request} {tree : Tree} {reply : Reply} (hidle : d'.server.Idle)
    (hrun : Run (ServerStep interp) d.server (events ++ [.reply request tree reply]) d'.server)
    (hreceived : receivedMessages events = [.request request])
    (hnoReply : ∀ request tree reply, .reply request tree reply ∉ events)
    (hmessage : message.toMessage n = some (.request request)) (hn : request.id = n)
    (hmethod : message.find (bytes "method") = some (.string method))
    (hnotInit : method ≠ bytes "initialize") (hshutdown : method ≠ bytes "shutdown")
    (hid : message.find (bytes "id") = some id)
    (hout : d'.out = d.out ++ [responseMessage id reply.toJson]) :
    Turned interp d d' n message (events ++ [.reply request tree reply])
      [responseMessage id reply.toJson] := by
  have hall := receivedMessages_concat events (.reply request tree reply)
  rw [hreceived] at hall
  have honly : ∀ request' tree' reply',
      ServerEvent.reply request' tree' reply' ∈ events ++ [.reply request tree reply] →
        ServerEvent.reply request' tree' reply' = .reply request tree reply := by
    intro request' tree' reply' hmem
    rcases List.mem_append.mp hmem with hmem | hmem
    · exact absurd hmem (hnoReply _ _ _)
    · exact List.mem_singleton.mp hmem
  refine ⟨hrun, hidle, ?_, ?_, hout, ?_, ?_, ?_⟩
  · rw [hall, hmessage]
    exact List.prefix_rfl
  · intro _
    rw [hall, hmessage]
    rfl
  · simp
  · intro request' tree' reply' h
    cases honly _ _ _ h
    exact hn
  · intro frame
    rw [answers_reply_iff hmethod hnotInit hshutdown, List.mem_singleton]
    constructor
    · rintro rfl
      exact ⟨request, tree, reply, id, by simp, hn, hid, rfl⟩
    · rintro ⟨request', tree', reply', id', h, -, hid', rfl⟩
      cases honly _ _ _ h
      rw [Option.some.inj (hid.symm.trans hid')]

theorem index_of_find {key : Str} {v : Json} (hmember : message.find (bytes "method") = some v)
    (h : message.find key = none) : message.index key = .error .assertion := by
  unfold Json.index
  cases message with
  | object members =>
    have hlookup : members.lookup key = none := h
    dsimp only
    rw [hlookup]
  | _ => cases hmember

/-- A turn on a request that has its cursor. -/
theorem turned_found {request : Request} {lookup : Lookup} (remains : Remains) (hidle : d.server.Idle)
    (hrun : Run (ServerStep interp) d.server between later)
    (hbetween : ∀ event ∈ between, event.isBackground = true)
    (hmessage : message.toMessage n = some (.request request)) (hn : request.id = n)
    (hmethod : message.find (bytes "method") = some (.string method))
    (hnotInit : method ≠ bytes "initialize") (hshutdown : method ≠ bytes "shutdown")
    (hlookup : getLookup d.server request = .ok lookup) :
    ∃ events frames, Turned interp d (Dispatcher.spawn { d with server := later }
      (lookup.answer later remains >>= fun (reply, index) =>
        message.index (bytes "id") >>= fun id =>
          .ok (Dispatcher.send { d with server := later.replied reply index }
            (responseMessage id reply.toJson)))) n message events frames := by
  have hlater := hidle.of_sameLoop (between_loop hrun hbetween)
  have hquiet : ∀ fault, fault.isException ≠ true → Turned interp d
      (Dispatcher.spawn { d with server := later } (.error fault)) n message between [] := by
    intro fault hexception
    obtain ⟨hserver, hout, hstatus⟩ := spawn_error { d with server := later } fault
    exact turned_quiet hidle hrun hbetween hserver hout
      (fun hgoes => absurd (hstatus hgoes) hexception)
      fun frame => not_answers_other hbetween hmethod hnotInit hshutdown
  have hwaits := request_waits hidle hrun hbetween hlookup
  obtain ⟨-, -, -, rfl, -⟩ := getLookup_eq_ok.mp hlookup
  obtain ⟨hrequest, hnoReplyYet⟩ := waits_events lookup.request lookup.tree hbetween
  cases hanswer : lookup.answer later remains with
  | error fault =>
    by_cases hexception : fault.isException = true
    · have hdropped := hwaits.snoc (request_unanswered hlater hanswer hexception)
      obtain ⟨hspawned, hout, -⟩ := spawn_error { d with server := later } fault
      refine ⟨_, _, turned_dropped hlater hdropped ?_ ?_ hmessage hmethod hnotInit hshutdown hspawned
        hout⟩
      · rw [receivedMessages_concat, hrequest]
        rfl
      · intro request' tree' reply hmem
        rcases List.mem_append.mp hmem with hmem | hmem
        · exact hnoReplyYet _ _ _ hmem
        · cases List.mem_singleton.mp hmem
    · exact ⟨_, _, hquiet fault hexception⟩
  | ok answer =>
    obtain ⟨reply, index⟩ := answer
    show ∃ events frames, Turned interp d (Dispatcher.spawn { d with server := later }
      (message.index (bytes "id") >>= _)) n message events frames
    cases hid : message.find (bytes "id") with
    | none =>
      rw [index_of_find hmethod hid]
      exact ⟨_, _, hquiet .assertion (by decide)⟩
    | some id =>
      rw [Json.index_eq_ok hid]
      have hreplies := hwaits.snoc (request_replies hlater hanswer)
      exact ⟨_, _, turned_replied (hlater.replied reply index) hreplies hrequest hnoReplyYet hmessage hn
        hmethod hnotInit hshutdown hid rfl⟩

theorem turned_request (method : RequestMethod) (hidle : d.server.Idle)
    (hrun : Run (ServerStep interp) d.server between later)
    (hbetween : ∀ event ∈ between, event.isBackground = true)
    (hmethod : message.find (bytes "method") = some (.string method.name)) :
    ∃ events frames, Turned interp d
      (Dispatcher.spawn { d with server := later } (onRequest method d later remains message)) n message
      events frames := by
  have hnotInit : method.name ≠ bytes "initialize" := by cases method <;> decide
  have hshutdown : method.name ≠ bytes "shutdown" := by cases method <;> decide
  have hlater := hidle.of_sameLoop (between_loop hrun hbetween)
  obtain ⟨hnone, hnoReply⟩ := background_events hbetween
  have hnoAnswer : ∀ frame, ¬Answers between n message frame :=
    fun frame => not_answers_other hbetween hmethod hnotInit hshutdown
  have hmessage : message.toMessage n = _ := toMessage_request hmethod
  rw [onRequest_eq]
  cases hparams : message.at (bytes "params") >>= method.params with
  | error fault =>
    obtain ⟨hserver, hout, -⟩ := spawn_error { d with server := later } fault
    refine ⟨_, _, turned_quiet hidle hrun hbetween hserver hout (fun _ => ?_) hnoAnswer⟩
    rw [hmessage, params_eq_none.mpr ⟨fault, hparams⟩]
    rfl
  | ok place =>
    obtain ⟨uri, position⟩ := place
    rw [params_eq_some.mpr hparams] at hmessage
    set request : Request := { method, id := n, uri, position } with hrequest
    have hrequestMessage : message.toMessage n = some (.request request) := hmessage
    have hnumber := getLookup_number d.server { method, id := 0, uri, position } n
    show ∃ events frames, Turned interp d (Dispatcher.spawn { d with server := later }
      (getLookup d.server { method, id := 0, uri, position } >>= fun lookup =>
        lookup.answer later remains >>= _)) n message events frames
    cases hlookup : getLookup d.server { method, id := 0, uri, position } with
    | error fault =>
      rw [hlookup] at hnumber
      obtain ⟨hserver, hout, hstatus⟩ := spawn_error { d with server := later } fault
      by_cases hexception : fault.isException = true
      · have hdropped : ServerStep interp { d.server with requests := [request] } (.dropped request)
            d.server := request_dropped hidle hnumber hexception
        have hevents := ((Run.single (request_received hidle request)).snoc hdropped).append hrun
        refine ⟨_, _, turned_dropped hlater hevents ?_ ?_ hrequestMessage hmethod hnotInit hshutdown
          hserver hout⟩
        · show Message.request request :: receivedMessages between = _
          rw [hnone]
        · intro request' tree reply hmem
          simp only [List.cons_append, List.nil_append, List.mem_cons, reduceCtorEq, false_or] at hmem
          exact hnoReply _ _ _ hmem
      · exact ⟨_, _, turned_quiet hidle hrun hbetween hserver hout
          (fun hgoes => absurd (hstatus hgoes) hexception) hnoAnswer⟩
    | ok lookup =>
      rw [hlookup] at hnumber
      obtain ⟨-, -, -, hown, -⟩ := getLookup_eq_ok.mp hlookup
      have hanswer : ({ lookup with request } : Lookup).answer later remains =
          lookup.answer later remains := by
        obtain ⟨_, tree, number, cursor⟩ := lookup
        cases hown
        rfl
      have hturned := turned_found remains hidle hrun hbetween hrequestMessage rfl hmethod
        hnotInit hshutdown hnumber
      rwa [hanswer] at hturned

/-! ## Any turn -/

theorem turn_turned (hidle : d.server.Idle) (hrun : Run (ServerStep interp) d.server between later)
    (hbetween : ∀ event ∈ between, event.isBackground = true) (remains : Remains) (n : Nat)
    (message : Json) :
    ∃ events frames, Turned interp d (d.turn later remains message) n message events frames := by
  have hlater := hidle.of_sameLoop (between_loop hrun hbetween)
  have hother (hmessage : message.toMessage n = none)
      (hnoAnswer : ∀ frame, ¬Answers between n message frame) :
      ∃ events frames, Turned interp d { d with server := later } n message events frames :=
    ⟨_, _, turned_quiet hidle hrun hbetween rfl rfl (fun _ => hmessage) hnoAnswer⟩
  cases hfind : message.find (bytes "method") with
  | none =>
    have hturn : d.turn later remains message = { d with server := later } := by
      unfold Dispatcher.turn
      simp only [hfind]
    rw [hturn]
    have hnone : message.toMessage n = none := by
      unfold Json.toMessage
      rw [hfind]
    refine hother hnone fun frame => not_answers_between hbetween fun other _ heq => ?_
    rw [hfind] at heq
    cases heq
  | some value =>
    by_cases hstring : ∃ method, value = .string method
    · obtain ⟨method, rfl⟩ := hstring
      by_cases hnotInit : method = bytes "initialize"
      · subst hnotInit
        obtain ⟨frames, h⟩ := turned_initialize (n := n) hidle hrun hbetween hfind
        exact ⟨_, _, h⟩
      by_cases hshutdown : method = bytes "shutdown"
      · subst hshutdown
        obtain ⟨frames, h⟩ := turned_shutdown (n := n) hidle hrun hbetween hfind
        exact ⟨_, _, h⟩
      have hnoAnswer : ∀ frame, ¬Answers between n message frame :=
        fun frame => not_answers_other hbetween hfind hnotInit hshutdown
      unfold Dispatcher.turn
      simp only [hfind]
      rw [if_neg hnotInit, if_neg hshutdown]
      split_ifs with hexit hopen hchange hclose hreferences hdefinition
      · -- The loop is left, and the server is not told.
        exact ⟨_, _, turned_quiet hidle hrun hbetween rfl rfl
          (fun hgoes => absurd hgoes Bool.false_ne_true) hnoAnswer⟩
      · subst hopen
        exact turned_didOpen hidle hrun hbetween hfind
      · subst hchange
        exact turned_didChange hidle hrun hbetween hfind
      · subst hclose
        exact turned_didClose hidle hrun hbetween hfind
      · subst hreferences
        exact turned_request .references hidle hrun hbetween hfind
      · subst hdefinition
        exact turned_request .definition hidle hrun hbetween hfind
      · refine hother (toMessage_other hfind ?_) hnoAnswer
        intro other hmem
        simp only [List.mem_cons, List.not_mem_nil, or_false] at hmem
        rcases hmem with rfl | rfl | rfl | rfl | rfl | rfl <;> assumption
    · have hturn : d.turn later remains message = { d with server := later } := by
        unfold Dispatcher.turn
        simp only [hfind]
        split
        · rfl
        · exact absurd ⟨_, Option.some.inj ‹_›⟩ hstring
        · rfl
      rw [hturn]
      refine hother ?_ fun frame => not_answers_between hbetween fun other _ heq =>
        hstring ⟨_, Option.some.inj (hfind.symm.trans heq)⟩
      unfold Json.toMessage
      rw [hfind]
      split
      · exact absurd ⟨_, Option.some.inj ‹_›⟩ hstring
      · rfl

/-! ## Runs -/

theorem receivedJson_concat (history : List DispatchEvent) (event : DispatchEvent) :
    receivedJson (history ++ [event]) =
      receivedJson history ++ (match event with | .receive message _ => [message] | _ => []) := by
  unfold receivedJson
  rw [List.filterMap_append]
  cases event <;> rfl

theorem toMessages_concat (messages : List Json) (message : Json) :
    toMessages (messages ++ [message]) =
      toMessages messages ++ (message.toMessage messages.length).toList := by
  unfold toMessages
  rw [List.zipIdx_append, List.filterMap_append, Nat.zero_add]
  congr 1

theorem receivedMessages_append (events events' : List ServerEvent) :
    receivedMessages (events ++ events') = receivedMessages events ++ receivedMessages events' :=
  List.filterMap_append

/-- The replies in a run are to messages before this number. -/
def RepliesBelow (events : List ServerEvent) (n : Nat) : Prop :=
  ∀ request tree reply, .reply request tree reply ∈ events → request.id < n

/-- Of the events an answer depends on the replies to its message. -/
theorem Answers.of_replies {frame : Json} {events' : List ServerEvent}
    (h : Answers events n message frame)
    (hreplies : ∀ request tree reply, .reply request tree reply ∈ events → request.id = n →
      .reply request tree reply ∈ events') : Answers events' n message frame := by
  cases h with
  | capabilities id hmethod hid hshape => exact .capabilities id hmethod hid hshape
  | shutdown id hmethod hid => exact .shutdown id hmethod hid
  | reply request tree reply id hreply hn hid =>
    exact .reply request tree reply id (hreplies _ _ _ hreply hn) hn hid

/-- What the run of the loop is known to have done so far. -/
structure Dispatcher.Tracks (interp : TclInterp) (history : List DispatchEvent) (d : Dispatcher)
    (events : List ServerEvent) (responses : List (Nat × Json)) : Prop extends
    d.Refines interp history events responses where
  idle : d.server.Idle
  below : RepliesBelow events (receivedJson history).length

/-- A turn has at most one frame, with the number of its message, which no response before it has. -/
theorem Dispatcher.Tracks.inOrder_turn {frames : List Json} {turnEvents : List ServerEvent}
    {responses : List (Nat × Json)} (h : d.Tracks interp history events responses)
    (hturn : Turned interp d d' (receivedJson history).length message turnEvents frames) :
    ((responses ++ frames.map fun frame => ((receivedJson history).length, frame)).map
      Prod.fst).Pairwise (· < ·) := by
  have hfirst : ∀ response ∈ responses, response.1 < (receivedJson history).length := by
    intro response hmem
    obtain ⟨message', hmessage', -⟩ := (h.answers response.1 response.2).mp hmem
    exact (List.getElem?_eq_some_iff.mp hmessage').1
  rw [List.map_append, List.pairwise_append]
  refine ⟨h.inOrder, ?_, ?_⟩
  · have honce := hturn.once
    cases frames with
    | nil => exact List.Pairwise.nil
    | cons frame frames =>
      obtain rfl : frames = [] := List.length_eq_zero_iff.mp (by simpa using honce)
      exact List.pairwise_singleton _ _
  · intro k hk k' hk'
    obtain ⟨response, hmem, rfl⟩ := List.mem_map.mp hk
    obtain ⟨response', hmem', rfl⟩ := List.mem_map.mp hk'
    obtain ⟨frame, -, rfl⟩ := List.mem_map.mp hmem'
    exact hfirst response hmem

/-- The frames of a turn are the answers to its message, and the answers to the messages before it stay
what they were. -/
theorem Dispatcher.Tracks.answers_turn {frames : List Json} {turnEvents : List ServerEvent}
    {responses : List (Nat × Json)} (h : d.Tracks interp history events responses)
    (hturn : Turned interp d d' (receivedJson history).length message turnEvents frames) :
    ∀ m frame, (m, frame) ∈ responses ++
        frames.map (fun frame => ((receivedJson history).length, frame)) ↔
      ∃ message', (receivedJson history ++ [message])[m]? = some message' ∧
        Answers (events ++ turnEvents) m message' frame := by
  set n := (receivedJson history).length with hn
  intro m frame
  have hlast : (m, frame) ∈ frames.map (fun frame => (n, frame)) ↔ m = n ∧ frame ∈ frames := by
    rw [List.mem_map]
    constructor
    · rintro ⟨frame', hmem, heq⟩
      cases heq
      exact ⟨rfl, hmem⟩
    · rintro ⟨rfl, hmem⟩
      exact ⟨frame, hmem, rfl⟩
  rw [List.mem_append, hlast, h.answers]
  rcases Nat.lt_trichotomy m n with hm | rfl | hm
  · -- An earlier message is not answered by the turn.
    rw [List.getElem?_append_left (hn ▸ hm)]
    constructor
    · rintro (⟨message', hmessage', hanswer⟩ | ⟨rfl, -⟩)
      · exact ⟨message', hmessage', hanswer.of_replies fun _ _ _ hreply _ =>
          List.mem_append_left _ hreply⟩
      · omega
    · rintro ⟨message', hmessage', hanswer⟩
      refine Or.inl ⟨message', hmessage', hanswer.of_replies fun _ _ _ hreply hid => ?_⟩
      rcases List.mem_append.mp hreply with hreply | hreply
      · exact hreply
      · exact absurd ((hturn.own _ _ _ hreply).symm.trans hid) (by omega)
  · rw [hturn.answers]
    constructor
    · rintro (⟨message', hmessage', -⟩ | ⟨-, hanswer⟩)
      · exact absurd (List.getElem?_eq_some_iff.mp hmessage').1 (by omega)
      · exact ⟨message, List.getElem?_concat_length, hanswer.of_replies fun _ _ _ hreply _ =>
          List.mem_append_right _ hreply⟩
    · rintro ⟨message', hmessage', hanswer⟩
      rw [hn, List.getElem?_concat_length] at hmessage'
      cases hmessage'
      refine Or.inr ⟨rfl, hanswer.of_replies fun _ _ _ hreply hid => ?_⟩
      rcases List.mem_append.mp hreply with hreply | hreply
      · exact absurd (h.below _ _ _ hreply) (by omega)
      · exact hreply
  · have hnone : (receivedJson history ++ [message])[m]? = none := by
      rw [List.getElem?_eq_none_iff, List.length_append, List.length_singleton]
      omega
    have hnone' : (receivedJson history)[m]? = none := by
      rw [List.getElem?_eq_none_iff]
      omega
    rw [hnone, hnone']
    simp
    omega

/-- A turn adds its events and its frames. -/
theorem Dispatcher.Tracks.turn {frames : List Json} {turnEvents : List ServerEvent}
    {responses : List (Nat × Json)} (h : d.Tracks interp history events responses)
    (hgoes : d.status.goesOn = true)
    (hturn : Turned interp d d' (receivedJson history).length message turnEvents frames) :
    d'.Tracks interp (history ++ [.receive message between]) (events ++ turnEvents)
      (responses ++ frames.map fun frame => ((receivedJson history).length, frame)) := by
  have hjson : receivedJson (history ++ [.receive message between]) =
      receivedJson history ++ [message] := receivedJson_concat history (.receive message between)
  have hreceived : receivedMessages (events ++ turnEvents) =
      toMessages (receivedJson history) ++ receivedMessages turnEvents := by
    rw [receivedMessages_append, h.goesOn hgoes]
  have hmessages : toMessages (receivedJson (history ++ [.receive message between])) =
      toMessages (receivedJson history) ++
        (message.toMessage (receivedJson history).length).toList := by
    rw [hjson, toMessages_concat]
  constructor
  · constructor
    · exact h.run.append hturn.run
    · rw [hreceived, hmessages]
      exact (List.prefix_append_right_inj _).mpr hturn.received
    · intro hstatus
      rw [hreceived, hmessages, hturn.goesOn hstatus]
    · rw [hturn.out, h.out, List.map_append, List.map_map]
      congr 1
      exact (List.map_id' _).symm
    · exact h.inOrder_turn hturn
    · rw [hjson]
      exact h.answers_turn hturn
  · exact hturn.idle
  · intro request tree reply hreply
    rw [hjson, List.length_append, List.length_singleton]
    rcases List.mem_append.mp hreply with hreply | hreply
    · exact Nat.lt_succ_of_lt (h.below _ _ _ hreply)
    · exact Nat.lt_succ_of_le (hturn.own _ _ _ hreply).le

/-- What happens between the turns adds its events, which receive nothing and reply to nothing. -/
theorem Dispatcher.Tracks.extend {server : Server} {status : LoopStatus} {event : DispatchEvent}
    {responses : List (Nat × Json)} (h : d.Tracks interp history events responses)
    (hevent : receivedJson [event] = []) (hrun : Run (ServerStep interp) d.server between server)
    (hidle : server.Idle) (hreceives : receivedMessages between = [])
    (hreplies : ∀ request tree reply, .reply request tree reply ∉ between)
    (hgoes : status.goesOn = true → d.status.goesOn = true) :
    Dispatcher.Tracks interp (history ++ [event]) { d with server, status } (events ++ between)
      responses := by
  have hjson : receivedJson (history ++ [event]) = receivedJson history := by
    unfold receivedJson at hevent ⊢
    rw [List.filterMap_append, hevent, List.append_nil]
  have hreceived : receivedMessages (events ++ between) = receivedMessages events := by
    rw [receivedMessages_append, hreceives, List.append_nil]
  have hold : ∀ request tree reply, .reply request tree reply ∈ events ++ between →
      .reply request tree reply ∈ events := fun request tree reply hmem =>
    (List.mem_append.mp hmem).resolve_right (hreplies request tree reply)
  constructor
  · constructor
    · exact h.run.append hrun
    · rw [hreceived, hjson]
      exact h.received
    · intro hstatus
      rw [hreceived, hjson, h.goesOn (hgoes hstatus)]
    · exact h.out
    · exact h.inOrder
    · intro n frame
      rw [hjson, h.answers]
      constructor
      · rintro ⟨message, hmessage, hanswer⟩
        exact ⟨message, hmessage, hanswer.of_replies fun _ _ _ hreply _ =>
          List.mem_append_left _ hreply⟩
      · rintro ⟨message, hmessage, hanswer⟩
        exact ⟨message, hmessage, hanswer.of_replies fun _ _ _ hreply _ => hold _ _ _ hreply⟩
  · exact hidle
  · intro request tree reply hreply
    rw [hjson]
    exact h.below _ _ _ (hold _ _ _ hreply)

theorem Dispatcher.Tracks.step {responses : List (Nat × Json)} {event : DispatchEvent}
    (h : d.Tracks interp history events responses) (hstep : DispatchStep interp d event d') :
    ∃ events responses, d'.Tracks interp (history ++ [event]) events responses := by
  cases hstep with
  | receive message between later remains hrunning hrun hbetween =>
    obtain ⟨turnEvents, frames, hturn⟩ :=
      turn_turned h.idle hrun hbetween remains (receivedJson history).length message
    exact ⟨_, _, h.turn (by rw [hrunning]; rfl) hturn⟩
  | background event server hstatus hserver hbackground =>
    have hbetween : ∀ event' ∈ [event], event'.isBackground = true := by simpa using hbackground
    obtain ⟨hnone, hnoReply⟩ := background_events hbetween
    exact ⟨_, _, h.extend rfl (.single hserver)
      (h.idle.of_sameLoop (background_loop hserver hbackground)) hnone hnoReply id⟩
  | abort =>
    exact ⟨_, _, h.extend rfl .nil h.idle (rfl : receivedMessages [] = []) (by simp)
      fun hgoes => nomatch hgoes⟩
  | written n _ _ hreplying =>
    exact ⟨_, _, h.extend rfl (.single (.written d.server n h.idle.blocked hreplying))
      ⟨h.idle.listening, h.idle.requests, h.idle.cursors, h.idle.blocked⟩ rfl (by simp) id⟩
  | sent hsending =>
    exact ⟨_, _, h.extend rfl .nil h.idle (rfl : receivedMessages [] = []) (by simp)
      fun _ => by rw [hsending]; rfl⟩

theorem run_tracks (h : Run (DispatchStep interp) .initial history d) :
    ∃ events responses, d.Tracks interp history events responses := by
  refine h.history (J := fun history d => ∃ events responses,
    Dispatcher.Tracks interp history d events responses) ?_ ?_
  · refine ⟨[], [], ⟨⟨.nil, List.prefix_rfl, fun _ => rfl, rfl, .nil, ?_⟩, ⟨rfl, rfl, rfl, rfl⟩, ?_⟩⟩
    · intro n frame
      simp [receivedJson]
    · intro request tree reply hmem
      cases hmem
  · rintro history d event d' - ⟨events, responses, htracks⟩ hstep
    exact htracks.step hstep

/-- Every run of the loop, whatever it is sent and whatever the threads do in between, is a run of the
server on the messages that the JSON messages stand for, and the frames handed to `send_message` are the
responses of that run, in the order of the messages and none twice. -/
theorem dispatcher_refines (h : Run (DispatchStep interp) .initial history d) :
    ∃ events responses, d.Refines interp history events responses := by
  obtain ⟨events, responses, htracks⟩ := run_tracks h
  exact ⟨events, responses, htracks.toRefines⟩

def shutdownRequest : Json :=
  .object [(bytes "jsonrpc", .string (bytes "2.0")), (bytes "id", .unsigned 1),
    (bytes "method", .string (bytes "shutdown"))]

theorem shutdown_refines : ∃ (d : Dispatcher) (events : List ServerEvent)
    (responses : List (Nat × Json)), d.out = [responseMessage (.unsigned 1) .null] ∧
    d.Refines oneWordInterp [.receive shutdownRequest [], .sent] events responses := by
  have hturn : DispatchStep oneWordInterp .initial (.receive shutdownRequest [])
      (Dispatcher.initial.turn .initial default shutdownRequest) :=
    .receive _ _ [] .initial default rfl .nil (by simp)
  have hrun : Run (DispatchStep oneWordInterp) .initial [.receive shutdownRequest [], .sent] _ :=
    .cons hturn (.single (.sent _ rfl))
  obtain ⟨events, responses, h⟩ := dispatcher_refines hrun
  exact ⟨_, events, responses, rfl, h⟩

end TclAnalyzer
