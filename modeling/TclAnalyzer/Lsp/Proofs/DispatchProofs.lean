import TclAnalyzer.Lsp.Proofs.ParamsProofs
import TclAnalyzer.Lsp.Proofs.QuiescenceProofs

/-!
# The loop over the messages runs the server

What the loop does to the server is a run of the server: a handler of a request is one that finds its
cursor at once and is answered after what the threads have done in the meantime.
-/

namespace TclAnalyzer

variable {interp : TclInterp} {event : ServerEvent} {events between : List ServerEvent}
  {s s' t later : Server} {d d' : Dispatcher} {message : Json} {remains : Remains}
  {history : List DispatchEvent}

/-! ## Steps of the threads -/

/-- The threads have nothing to do with what the loop and its handlers keep. -/
structure Server.SameLoop (s s' : Server) : Prop where
  listening : s'.listening = s.listening
  requests : s'.requests = s.requests
  cursors : s'.cursors = s.cursors
  replying : s'.replying = s.replying
  blocked : s'.blocked = s.blocked

theorem background_loop (h : ServerStep interp s event s') (hevent : event.isBackground = true) :
    s.SameLoop s' := by
  cases h with
  | start | read | installed | failed => exact ⟨rfl, rfl, rfl, rfl, rfl⟩
  | receive | blocked | cursor | noCursor | reply | noReply | written => cases hevent

/-- They do the same whatever handlers there are. -/
theorem background_lift (h : ServerStep interp s event s') (hevent : event.isBackground = true)
    (requests : List Request) (cursors : List Lookup) :
    ServerStep interp { s with requests, cursors } event { s' with requests, cursors } := by
  cases h with
  | start uri queue document hidle hqueue hdoc =>
    exact .start { s with requests, cursors } uri queue document hidle hqueue hdoc
  | read uri torn document text hreading hdoc htext =>
    exact .read { s with requests, cursors } uri torn document text hreading hdoc htext
  | installed uri file parsed document hruns hreplying hreparse hdoc =>
    exact .installed { s with requests, cursors } uri file parsed document hruns hreplying hreparse hdoc
  | failed uri file fault hruns hreparse hexception =>
    exact .failed { s with requests, cursors } uri file fault hruns hreparse hexception
  | receive | blocked | cursor | noCursor | reply | noReply | written => cases hevent

theorem between_loop (h : Run (ServerStep interp) s between s')
    (hbetween : ∀ event ∈ between, event.isBackground = true) : s.SameLoop s' := by
  have hrule : (∀ event ∈ between, event.isBackground = true) → s.SameLoop s' := by
    refine h.history
      (J := fun between t => (∀ event ∈ between, event.isBackground = true) → s.SameLoop t)
      (fun _ => ⟨rfl, rfl, rfl, rfl, rfl⟩) ?_
    intro between t event u _ ih hstep hbetween
    have hsame := ih fun e he => hbetween e (List.mem_append_left _ he)
    have hlast := background_loop hstep (hbetween event (by simp))
    exact ⟨hlast.listening.trans hsame.listening, hlast.requests.trans hsame.requests,
      hlast.cursors.trans hsame.cursors, hlast.replying.trans hsame.replying,
      hlast.blocked.trans hsame.blocked⟩
  exact hrule hbetween

theorem between_lift (h : Run (ServerStep interp) s between s')
    (hbetween : ∀ event ∈ between, event.isBackground = true) (requests : List Request)
    (cursors : List Lookup) :
    Run (ServerStep interp) { s with requests, cursors } between { s' with requests, cursors } := by
  have hrule : (∀ event ∈ between, event.isBackground = true) →
      Run (ServerStep interp) { s with requests, cursors } between { s' with requests, cursors } := by
    refine h.history
      (J := fun between t => (∀ event ∈ between, event.isBackground = true) →
        Run (ServerStep interp) { s with requests, cursors } between { t with requests, cursors })
      (fun _ => .nil) ?_
    intro between t event u _ ih hstep hbetween
    have hrun := ih fun e he => hbetween e (List.mem_append_left _ he)
    exact hrun.snoc (background_lift hstep (hbetween event (by simp)) requests cursors)
  exact hrule hbetween

/-! ## A turn of the loop -/

/-- The server of the loop: it listens, and no handler of it is left over. That the thread of the loop
waits for a lock is a status of the loop. -/
structure Server.Idle (s : Server) : Prop where
  listening : s.listening = true
  requests : s.requests = []
  cursors : s.cursors = []
  blocked : s.blocked = false

theorem Server.Idle.of_sameLoop (h : s.Idle) (hsame : s.SameLoop s') : s'.Idle where
  listening := hsame.listening.trans h.listening
  requests := hsame.requests.trans h.requests
  cursors := hsame.cursors.trans h.cursors
  blocked := hsame.blocked.trans h.blocked

/-- What a handler of a request has done when it returns. -/
theorem onRequest_ok {method : RequestMethod} (h : onRequest method d later remains message = .ok d') :
    ∃ params uri position lookup reply index id, message.at (bytes "params") = .ok params ∧
      method.params params = .ok (uri, position) ∧
      getLookup d.server { method, id := 0, uri, position } = .ok lookup ∧
      lookup.answer later remains = .ok (reply, index) ∧ message.index (bytes "id") = .ok id ∧
      d' = { d with server := later.replied reply index }.send (responseMessage id reply.toJson) := by
  unfold onRequest at h
  obtain ⟨params, hparams, h⟩ := bind_eq_ok.mp h
  obtain ⟨⟨uri, position⟩, hplace, h⟩ := bind_eq_ok.mp h
  obtain ⟨lookup, hlookup, h⟩ := bind_eq_ok.mp h
  obtain ⟨⟨reply, index⟩, hanswer, h⟩ := bind_eq_ok.mp h
  obtain ⟨id, hid, h⟩ := bind_eq_ok.mp h
  cases h
  exact ⟨params, uri, position, lookup, reply, index, id, hparams, hplace, hlookup, hanswer, hid, rfl⟩

theorem request_received (hidle : s.Idle) (request : Request) :
    ServerStep interp s (.receive (.request request)) { s with requests := [request] } := by
  have hstep : ServerStep interp s (.receive (.request request)) _ :=
    .receive s (.request request) hidle.listening (by simp [Message.locks])
  rwa [Server.receive, hidle.requests] at hstep

/-- The handler of a request has its cursor, and the threads go on. -/
theorem request_waits {request : Request} {lookup : Lookup} (hidle : s.Idle)
    (hrun : Run (ServerStep interp) s between later)
    (hbetween : ∀ event ∈ between, event.isBackground = true)
    (hlookup : getLookup s request = .ok lookup) :
    Run (ServerStep interp) s
      (.receive (.request request) :: .cursor request lookup.tree :: between)
      { later with requests := [], cursors := [lookup] } := by
  obtain ⟨-, -, -, rfl, -⟩ := getLookup_eq_ok.mp hlookup
  have hfound : ServerStep interp { s with requests := [lookup.request] }
      (.cursor lookup.request lookup.tree) { s with requests := [], cursors := [lookup] } := by
    have hserver : ({ s with requests := [] ++ [], cursors := s.cursors ++ [lookup] } : Server) =
        { s with requests := [], cursors := [lookup] } := by
      rw [hidle.cursors]
      rfl
    exact hserver ▸ .cursor _ [] [] lookup hidle.blocked rfl hlookup
  exact .cons (request_received hidle lookup.request)
    (.cons hfound (between_lift hrun hbetween [] [lookup]))

/-- The handler with its cursor replies. -/
theorem request_replies {lookup : Lookup} {reply : Reply} {index : Index} (hidle : s.Idle)
    (hanswer : lookup.answer s remains = .ok (reply, index)) :
    ServerStep interp { s with requests := [], cursors := [lookup] }
      (.reply lookup.request lookup.tree reply) (s.replied reply index) := by
  have hserver : s.replied reply index =
      { s.replied reply index with requests := [], cursors := [] } := by
    rw [← hidle.requests, ← hidle.cursors]
    rfl
  rw [hserver]
  exact .reply _ [] [] lookup remains reply index hidle.blocked rfl hanswer

theorem Server.Idle.replied (h : s.Idle) (reply : Reply) (index : Index) :
    (s.replied reply index).Idle :=
  ⟨h.listening, h.requests, h.cursors, h.blocked⟩

/-- A handler of a request, step by step. -/
theorem onRequest_run {method : RequestMethod} (hidle : d.server.Idle)
    (hrun : Run (ServerStep interp) d.server between later)
    (hbetween : ∀ event ∈ between, event.isBackground = true)
    (h : onRequest method d later remains message = .ok d') :
    (∃ events, Run (ServerStep interp) d.server events d'.server) ∧ d'.server.Idle := by
  obtain ⟨_, _, _, lookup, reply, index, _, -, -, hlookup, hanswer, -, rfl⟩ := onRequest_ok h
  have hlater := hidle.of_sameLoop (between_loop hrun hbetween)
  have hwaits := request_waits hidle hrun hbetween hlookup
  exact ⟨⟨_, hwaits.snoc (request_replies hlater hanswer)⟩, hlater.replied reply index⟩

theorem spawn_cases (d : Dispatcher) (result : Except Fault Dispatcher) :
    result = .ok (d.spawn result) ∨ (d.spawn result).server = d.server ∧
      (d.spawn result).out = d.out ∧
      ∃ fault, result = .error fault ∧
        (d.spawn result).status = if fault.isException then d.status else .aborted := by
  cases result with
  | ok d' => exact Or.inl rfl
  | error fault =>
    right
    unfold Dispatcher.spawn
    by_cases hexception : fault.isException = true
    · simp [hexception]
    · simp [hexception]

theorem call_cases (d : Dispatcher) (result : Except Fault Dispatcher) :
    result = .ok (d.call result) ∨ (d.call result).server = d.server ∧
      (d.call result).out = d.out ∧
      ∃ fault, result = .error fault ∧
        (d.call result).status = if fault.isException then .left else .aborted := by
  cases result with
  | ok d' => exact Or.inl rfl
  | error fault => exact Or.inr ⟨rfl, rfl, fault, rfl, rfl⟩

/-- The loop hands the server a notification. -/
def Notifies (s s' : Server) : Prop :=
  ∃ notification : Message, (notification.locks = true → s.replying = 0) ∧
    s' = s.receive notification ∧ s.SameLoop s'

theorem didOpen_sameLoop (s : Server) (item : TextDocumentItem) :
    s.SameLoop (s.receive (.didOpen item)) := by
  show s.SameLoop (onDidOpen s item)
  unfold onDidOpen
  dsimp only
  cases s.documents item.uri with
  | none => exact ⟨rfl, rfl, rfl, rfl, rfl⟩
  | some document => exact ⟨rfl, rfl, rfl, rfl, rfl⟩

theorem didChange_sameLoop (s : Server) (uri : Str) (version : Int)
    (contentChanges : List TextDocumentContentChangeEvent) :
    s.SameLoop (s.receive (.didChange uri version contentChanges)) := by
  rcases receive_didChange s uri version contentChanges with hsame | hchange
  · rw [hsame]
    exact ⟨rfl, rfl, rfl, rfl, rfl⟩
  · generalize s.receive (.didChange uri version contentChanges) = s' at hchange ⊢
    unfold onDidChange at hchange
    split at hchange
    · cases hchange
    · split at hchange
      · split at hchange
        · cases hchange
          exact ⟨rfl, rfl, rfl, rfl, rfl⟩
        · cases hchange
          exact ⟨rfl, rfl, rfl, rfl, rfl⟩
      · cases hchange
        exact ⟨rfl, rfl, rfl, rfl, rfl⟩

theorem didOpen_notifies (h : onTextdocumentDidopen d message = .ok d') :
    Notifies d.server d'.server ∧ d'.out = d.out ∧ d'.status = d.status := by
  unfold onTextdocumentDidopen at h
  obtain ⟨params, -, h⟩ := bind_eq_ok.mp h
  obtain ⟨item, -, h⟩ := bind_eq_ok.mp h
  cases h
  exact ⟨⟨.didOpen item, by simp [Message.locks], rfl, didOpen_sameLoop d.server item⟩, rfl, rfl⟩

theorem didChange_notifies (h : onTextdocumentDidchange d message = .ok d') :
    Notifies d.server d'.server ∧ d'.out = d.out ∧ d'.status = d.status := by
  unfold onTextdocumentDidchange at h
  obtain ⟨params, -, h⟩ := bind_eq_ok.mp h
  obtain ⟨⟨uri, version, changes⟩, -, h⟩ := bind_eq_ok.mp h
  dsimp only at h
  by_cases hraces : d.server.races uri version changes = true
  · rw [if_pos hraces] at h
    cases h
  · rw [if_neg hraces] at h
    obtain ⟨s', hchange, h⟩ := bind_eq_ok.mp h
    cases h
    have hreceive : s' = d.server.receive (.didChange uri version changes) := by
      simp only [Server.receive, hchange]
    refine ⟨⟨.didChange uri version changes, by simp [Message.locks], hreceive, ?_⟩, rfl, rfl⟩
    exact hreceive ▸ didChange_sameLoop d.server uri version changes

/-- `didClose` waits for the lock, or it is handed to the server. -/
theorem didClose_notifies (h : onTextdocumentDidclose d message = .ok d') :
    d.server.replying ≠ 0 ∧ d' = { d with status := .blocked } ∨
      Notifies d.server d'.server ∧ d'.out = d.out ∧ d'.status = d.status := by
  unfold onTextdocumentDidclose at h
  obtain ⟨params, -, h⟩ := bind_eq_ok.mp h
  obtain ⟨uri, -, h⟩ := bind_eq_ok.mp h
  by_cases hreplying : d.server.replying ≠ 0
  · rw [if_pos hreplying] at h
    cases h
    exact Or.inl ⟨hreplying, rfl⟩
  · rw [if_neg hreplying] at h
    right
    obtain ⟨s', hclose, h⟩ := bind_eq_ok.mp h
    cases h
    refine ⟨⟨.didClose uri, fun _ => not_not.mp hreplying, ?_, ?_⟩, rfl, rfl⟩
    · show s' = d.server.receive (.didClose uri)
      simp only [Server.receive, hclose]
    · show d.server.SameLoop s'
      unfold onDidClose at hclose
      split at hclose
      · cases hclose
      · cases hclose
        exact ⟨rfl, rfl, rfl, rfl, rfl⟩

theorem handleInitialize_server (h : handleInitialize d message = .ok d') :
    d'.server = d.server ∧ d'.status = d.status := by
  unfold handleInitialize at h
  obtain ⟨params, -, h⟩ := bind_eq_ok.mp h
  obtain ⟨options, -, h⟩ := bind_eq_ok.mp h
  obtain ⟨paths, -, h⟩ := bind_eq_ok.mp h
  obtain ⟨root, -, h⟩ := bind_eq_ok.mp h
  obtain ⟨id, -, h⟩ := bind_eq_ok.mp h
  cases h
  exact ⟨rfl, rfl⟩

/-- A turn leaves the server to the threads, or hands it a notification, or answers a request. -/
theorem turn_server (d : Dispatcher) (later : Server) (remains : Remains) (message : Json) :
    (d.turn later remains message).server = later ∨
    Notifies later (d.turn later remains message).server ∨
    ∃ method, onRequest method d later remains message = .ok (d.turn later remains message) := by
  unfold Dispatcher.turn
  dsimp only
  split
  · exact Or.inl rfl
  · split_ifs
    · -- `initialize`
      left
      rcases spawn_cases { d with server := later } _ with hok | ⟨hserver, -⟩
      · exact (handleInitialize_server hok).1
      · exact hserver
    · -- `shutdown`
      left
      rcases call_cases { d with server := later } _ with hok | ⟨hserver, -⟩
      · obtain ⟨id, -, hok⟩ := bind_eq_ok.mp hok
        exact (congrArg Dispatcher.server (Except.ok.inj hok)).symm
      · exact hserver
    · exact Or.inl rfl
    · rcases spawn_cases { d with server := later } _ with hok | ⟨hserver, -⟩
      · exact Or.inr (Or.inl (didOpen_notifies (d := { d with server := later }) hok).1)
      · exact Or.inl hserver
    · rcases spawn_cases { d with server := later } _ with hok | ⟨hserver, -⟩
      · exact Or.inr (Or.inl (didChange_notifies (d := { d with server := later }) hok).1)
      · exact Or.inl hserver
    · rcases call_cases { d with server := later } _ with hok | ⟨hserver, -⟩
      · rcases didClose_notifies hok with ⟨-, hblocked⟩ | ⟨hnotifies, -⟩
        · exact Or.inl (congrArg Dispatcher.server hblocked)
        · exact Or.inr (Or.inl hnotifies)
      · exact Or.inl hserver
    · rcases spawn_cases { d with server := later } _ with hok | ⟨hserver, -⟩
      · exact Or.inr (Or.inr ⟨.references, hok⟩)
      · exact Or.inl hserver
    · rcases spawn_cases { d with server := later } _ with hok | ⟨hserver, -⟩
      · exact Or.inr (Or.inr ⟨.definition, hok⟩)
      · exact Or.inl hserver
    · exact Or.inl rfl
  · exact Or.inl rfl

/-- A run of the loop is a run of the server. -/
theorem run_server (h : Run (DispatchStep interp) .initial history d) :
    (∃ events, Run (ServerStep interp) .initial events d.server) ∧ d.server.Idle := by
  refine h.invariant (I := fun d => (∃ events, Run (ServerStep interp) .initial events d.server) ∧
    d.server.Idle) ⟨⟨[], .nil⟩, rfl, rfl, rfl, rfl⟩ ?_
  rintro d event d' ⟨⟨events, hrun⟩, hidle⟩ hstep
  cases hstep with
  | receive message between later remains hrunning hbetweenRun hbetween =>
    have hlater := hidle.of_sameLoop (between_loop hbetweenRun hbetween)
    rcases turn_server d later remains message with hserver |
      ⟨notification, hlocks, hserver, hsame⟩ | ⟨method, hok⟩
    · rw [hserver]
      exact ⟨⟨_, hrun.append hbetweenRun⟩, hlater⟩
    · refine ⟨?_, hlater.of_sameLoop hsame⟩
      rw [hserver]
      exact ⟨_, (hrun.append hbetweenRun).snoc (.receive later notification hlater.listening hlocks)⟩
    · obtain ⟨⟨events', hrun'⟩, hidle'⟩ := onRequest_run hidle hbetweenRun hbetween hok
      exact ⟨⟨_, hrun.append hrun'⟩, hidle'⟩
  | background event server _ hserver hbackground =>
    exact ⟨⟨_, hrun.snoc hserver⟩, hidle.of_sameLoop (background_loop hserver hbackground)⟩
  | abort | sent => exact ⟨⟨events, hrun⟩, hidle⟩
  | written n _ _ hreplying =>
    exact ⟨⟨_, hrun.snoc (.written d.server n hidle.blocked hreplying)⟩, hidle.listening,
      hidle.requests, hidle.cursors, hidle.blocked⟩

end TclAnalyzer
