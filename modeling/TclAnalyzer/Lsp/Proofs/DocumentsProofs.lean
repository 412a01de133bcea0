import TclAnalyzer.Lsp.Client

/-!
# The documents of the server and those of the client

The entries of the server follow the documents that the client has open until one is opened again:
the entry is there already then, and stays as it was when the document was closed.
-/

namespace TclAnalyzer

variable {interp : TclInterp} {server server' : Server} {event : ServerEvent}
  {events : List ServerEvent} {s s' : Session}

/-- What the notifications read and write of a document. -/
def Server.entry (server : Server) (uri : Str) : Option (TextDocumentItem × DocumentState) :=
  (server.documents uri).map fun document => (document.item, document.state)

theorem entry_eq_none {uri : Str} : server.entry uri = none ↔ server.documents uri = none := by
  simp [Server.entry]

theorem entry_eq_some {uri : Str} {item : TextDocumentItem} {state : DocumentState} :
    server.entry uri = some (item, state) ↔
      ∃ document, server.documents uri = some document ∧ document.item = item ∧
        document.state = state := by
  simp [Server.entry]

/-! ## Notifications -/

theorem entry_didOpen_new {item : TextDocumentItem} (h : server.entry item.uri = none) :
    (server.receive (.didOpen item)).entry =
      Function.update server.entry item.uri (some (item, .OPEN)) := by
  have hdoc := entry_eq_none.mp h
  funext uri
  by_cases huri : uri = item.uri
  · subst huri
    simp [Server.receive, onDidOpen, hdoc, Server.entry, newDocument]
  · simp [Server.receive, onDidOpen, hdoc, Server.entry, huri]

/-- `emplace` does not overwrite. -/
theorem entry_didOpen_again {item : TextDocumentItem} {entry : TextDocumentItem × DocumentState}
    (h : server.entry item.uri = some entry) :
    (server.receive (.didOpen item)).entry = server.entry := by
  obtain ⟨document, hdoc, -⟩ := entry_eq_some.mp h
  funext uri
  simp [Server.receive, onDidOpen, hdoc, Server.entry]

theorem entry_didChange {uri text : Str} {version : Int} {item : TextDocumentItem}
    {state : DocumentState} {range : Option Range} (h : server.entry uri = some (item, state))
    (hversion : item.version < version) :
    (server.receive (.didChange uri version [{ range, text }])).entry =
      Function.update server.entry uri (some ({ item with text, version }, state)) := by
  obtain ⟨document, hdoc, rfl, rfl⟩ := entry_eq_some.mp h
  have hrun : ∃ server', onDidChange server uri version [{ range, text }] = .ok server' ∧
      server'.documents = Function.update server.documents uri
        (some { document with item := { document.item with text, version } }) := by
    simp only [onDidChange, hdoc, if_pos hversion]
    exact ⟨_, rfl, rfl⟩
  obtain ⟨server', hrun, hdocs⟩ := hrun
  funext uri'
  simp only [Server.receive, hrun, Server.entry, hdocs]
  by_cases huri : uri' = uri
  · subst huri
    simp
  · simp [huri, Server.entry]

/-- A version that is not new changes nothing. -/
theorem receive_didChange_stale {uri text : Str} {version : Int} {item : TextDocumentItem}
    {state : DocumentState} {range : Option Range} (h : server.entry uri = some (item, state))
    (hversion : ¬item.version < version) :
    server.receive (.didChange uri version [{ range, text }]) = server := by
  obtain ⟨document, hdoc, rfl, rfl⟩ := entry_eq_some.mp h
  simp only [Server.receive, onDidChange, hdoc, if_neg hversion]
  rfl

/-- Where there is not just one change, none is taken over. -/
theorem receive_didChange_ignored {uri : Str} {version : Int}
    {changes : List TextDocumentContentChangeEvent} (h : ¬∃ change, changes = [change]) :
    server.receive (.didChange uri version changes) = server := by
  cases hdoc : server.documents uri with
  | none => simp only [Server.receive, onDidChange, hdoc]; rfl
  | some document =>
    match changes with
    | [] => simp only [Server.receive, onDidChange, hdoc]; rfl
    | [change] => exact absurd ⟨change, rfl⟩ h
    | _ :: _ :: _ => simp only [Server.receive, onDidChange, hdoc]; rfl

/-- Whatever the version, a change leaves the state of the document and all other documents alone. -/
theorem entry_didChange_any {uri text : Str} (version : Int) {item : TextDocumentItem}
    {state : DocumentState} (range : Option Range) (h : server.entry uri = some (item, state)) :
    ∃ item', (server.receive (.didChange uri version [{ range, text }])).entry =
      Function.update server.entry uri (some (item', state)) := by
  by_cases hversion : item.version < version
  · exact ⟨_, entry_didChange h hversion⟩
  · refine ⟨item, ?_⟩
    rw [← h, Function.update_eq_self, receive_didChange_stale h hversion]

theorem entry_didClose {uri : Str} {item : TextDocumentItem} {state : DocumentState}
    (h : server.entry uri = some (item, state)) :
    (server.receive (.didClose uri)).entry =
      Function.update server.entry uri (some (item, .CLOSED)) := by
  obtain ⟨document, hdoc, rfl, rfl⟩ := entry_eq_some.mp h
  have hrun : ∃ server', onDidClose server uri = .ok server' ∧
      server'.documents = Function.update server.documents uri
        (some { document with state := .CLOSED }) := by
    simp only [onDidClose, hdoc]
    exact ⟨_, rfl, rfl⟩
  obtain ⟨server', hrun, hdocs⟩ := hrun
  funext uri'
  simp only [Server.receive, hrun, Server.entry, hdocs]
  by_cases huri : uri' = uri
  · subst huri
    simp
  · simp [huri, Server.entry]

theorem receive_missing {uri : Str} (h : server.entry uri = none) (version : Int)
    (changes : List TextDocumentContentChangeEvent) :
    server.receive (.didChange uri version changes) = server ∧
      (server.receive (.didClose uri)).entry = server.entry := by
  have hdoc := entry_eq_none.mp h
  constructor
  · simp only [Server.receive, onDidChange, hdoc]
    rfl
  · simp only [Server.receive, onDidClose, hdoc]
    rfl

/-- What a message does to the entries: it makes a new one, moves an item to a higher version, or
closes a document. -/
theorem receive_entry (server : Server) (message : Message) :
    (server.receive message).entry = server.entry ∨
    (∃ item, message = .didOpen item ∧ server.entry item.uri = none ∧
      (server.receive message).entry =
        Function.update server.entry item.uri (some (item, .OPEN))) ∨
    (∃ uri version change item state, message = .didChange uri version [change] ∧
      server.entry uri = some (item, state) ∧ item.version < version ∧
      (server.receive message).entry =
        Function.update server.entry uri (some ({ item with text := change.text, version }, state))) ∨
    ∃ uri item state, message = .didClose uri ∧ server.entry uri = some (item, state) ∧
      (server.receive message).entry = Function.update server.entry uri (some (item, .CLOSED)) := by
  cases message with
  | didOpen item =>
    cases hentry : server.entry item.uri with
    | none => exact Or.inr (Or.inl ⟨item, rfl, hentry, entry_didOpen_new hentry⟩)
    | some entry => exact Or.inl (entry_didOpen_again hentry)
  | didChange uri version changes =>
    cases hentry : server.entry uri with
    | none =>
      rw [(receive_missing hentry version changes).1]
      exact Or.inl rfl
    | some entry =>
      obtain ⟨item, state⟩ := entry
      by_cases hone : ∃ change, changes = [change]
      · obtain ⟨⟨range, text⟩, rfl⟩ := hone
        by_cases hversion : item.version < version
        · exact Or.inr (Or.inr (Or.inl ⟨uri, version, _, item, state, rfl, hentry, hversion,
            entry_didChange hentry hversion⟩))
        · rw [receive_didChange_stale hentry hversion]
          exact Or.inl rfl
      · rw [receive_didChange_ignored hone]
        exact Or.inl rfl
  | didClose uri =>
    cases hentry : server.entry uri with
    | none => exact Or.inl (receive_missing hentry 0 []).2
    | some entry => exact Or.inr (Or.inr (Or.inr ⟨uri, _, _, rfl, hentry, entry_didClose hentry⟩))
  | request request => exact Or.inl rfl
  | exit => exact Or.inl rfl

/-- Nothing but a notification changes an entry. -/
theorem entry_other (h : ServerStep interp server event server')
    (hother : ∀ message, event ≠ .receive message) : server'.entry = server.entry := by
  cases h with
  | receive message => exact absurd rfl (hother message)
  | installed uri file parsed document _ _ _ hdoc =>
    funext uri'
    by_cases huri : uri' = uri
    · subst huri
      simp [Server.entry, hdoc, Document.install]
    · simp [Server.entry, huri]
  | blocked | start | read | failed | cursor | noCursor | reply | noReply | written => rfl

/-! ## Client and server -/

theorem inStep_iff : s.InStep ↔
    (∀ uri document, s.client uri = some document → ∃ item state,
      s.server.entry uri = some (item, state) ∧ item.text = document.text ∧
        item.version = document.version) ∧
    ∀ uri item state, s.server.entry uri = some (item, state) →
      (state = .OPEN ↔ (s.client uri).isSome) := by
  constructor
  · rintro ⟨hitem, hstate⟩
    refine ⟨fun uri document hclient => ?_, fun uri item state hentry => ?_⟩
    · obtain ⟨entry, hdoc, htext, hversion⟩ := hitem uri document hclient
      exact ⟨entry.item, entry.state, entry_eq_some.mpr ⟨entry, hdoc, rfl, rfl⟩, htext, hversion⟩
    · obtain ⟨entry, hdoc, rfl, rfl⟩ := entry_eq_some.mp hentry
      exact hstate uri entry hdoc
  · rintro ⟨hitem, hstate⟩
    refine ⟨fun uri document hclient => ?_, fun uri entry hdoc => ?_⟩
    · obtain ⟨item, state, hentry, htext, hversion⟩ := hitem uri document hclient
      obtain ⟨entry, hdoc, rfl, rfl⟩ := entry_eq_some.mp hentry
      exact ⟨entry, hdoc, htext, hversion⟩
    · exact hstate uri _ _ (entry_eq_some.mpr ⟨entry, hdoc, rfl, rfl⟩)

theorem openedUris_append (events events' : List ServerEvent) :
    openedUris (events ++ events') = openedUris events ++ openedUris events' := by
  simp [openedUris]

theorem openedUris_didOpen (item : TextDocumentItem) :
    openedUris [.receive (.didOpen item)] = [item.uri] := rfl

theorem openedUris_other (h : ∀ item, event ≠ .receive (.didOpen item)) : openedUris [event] = [] := by
  cases event with
  | receive message =>
    cases message with
    | didOpen item => exact absurd rfl (h item)
    | didChange | didClose | request | exit => rfl
  | start | read | installed | failed | cursor | reply | dropped | written | blocked => rfl

/-- The documents of the server are those that have been opened, and those that are not open now are
closed. -/
structure Session.Tracked (events : List ServerEvent) (s : Session) : Prop where
  opened : ∀ uri, uri ∈ openedUris events ↔ s.server.entry uri ≠ none
  known : ∀ uri document, s.client uri = some document → s.server.entry uri ≠ none
  closed : ∀ uri item state, s.server.entry uri = some (item, state) → s.client uri = none →
    state = .CLOSED

theorem tracked_initial : Session.initial.Tracked [] where
  opened uri := by simp [openedUris, Session.initial, Server.initial, Server.entry]
  known _ _ h := nomatch h
  closed _ _ _ h := nomatch h

/-- A step that is no `didOpen` adds no documents. -/
theorem Session.Tracked.of_same_domain (h : s.Tracked events)
    (hother : ∀ item, event ≠ .receive (.didOpen item))
    (hdomain : ∀ uri, s'.server.entry uri ≠ none ↔ s.server.entry uri ≠ none)
    (hknown : ∀ uri document, s'.client uri = some document → s.server.entry uri ≠ none)
    (hclosed : ∀ uri item state, s'.server.entry uri = some (item, state) → s'.client uri = none →
      state = .CLOSED) : s'.Tracked (events ++ [event]) where
  opened uri := by
    rw [openedUris_append, openedUris_other hother, List.append_nil, h.opened, hdomain]
  known uri document hclient := (hdomain uri).mpr (hknown uri document hclient)
  closed := hclosed

/-- A step that changes the entry of one document, which is there. -/
theorem Session.Tracked.update (h : s.Tracked events) {uri : Str} {item : TextDocumentItem}
    {state : DocumentState} {document : Option ClientDocument}
    (hother : ∀ item, event ≠ .receive (.didOpen item)) (hthere : s.server.entry uri ≠ none)
    (hentry : s'.server.entry = Function.update s.server.entry uri (some (item, state)))
    (hclient : s'.client = Function.update s.client uri document)
    (hstate : document = none → state = .CLOSED) : s'.Tracked (events ++ [event]) := by
  refine h.of_same_domain hother (fun uri' => ?_) (fun uri' document' hdoc => ?_)
    fun uri' item' state' hdoc hclosed => ?_
  · rw [hentry]
    by_cases huri : uri' = uri
    · simp [huri, hthere]
    · rw [Function.update_of_ne huri]
  · rw [hclient] at hdoc
    by_cases huri : uri' = uri
    · rw [huri]
      exact hthere
    · rw [Function.update_of_ne huri] at hdoc
      exact h.known uri' document' hdoc
  · rw [hentry] at hdoc
    rw [hclient] at hclosed
    by_cases huri : uri' = uri
    · subst huri
      rw [Function.update_self] at hdoc hclosed
      cases hdoc
      exact hstate hclosed
    · rw [Function.update_of_ne huri] at hdoc hclosed
      exact h.closed uri' item' state' hdoc hclosed

/-- A `didOpen` leaves the entries of the other documents. -/
theorem Session.Tracked.didOpen (h : s.Tracked events) {item : TextDocumentItem}
    {document : ClientDocument} (hthere : s'.server.entry item.uri ≠ none)
    (hentry : ∀ uri, uri ≠ item.uri → s'.server.entry uri = s.server.entry uri)
    (hclient : s'.client = Function.update s.client item.uri (some document)) :
    s'.Tracked (events ++ [.receive (.didOpen item)]) := by
  refine ⟨fun uri => ?_, fun uri document' hdoc => ?_, fun uri item' state hdoc hclosed => ?_⟩
  · rw [openedUris_append, openedUris_didOpen, List.mem_append, h.opened, List.mem_singleton]
    by_cases huri : uri = item.uri
    · simp [huri, hthere]
    · simp [huri, hentry uri huri]
  · by_cases huri : uri = item.uri
    · rw [huri]
      exact hthere
    · rw [hclient, Function.update_of_ne huri] at hdoc
      rw [hentry uri huri]
      exact h.known uri document' hdoc
  · have huri : uri ≠ item.uri := by
      rintro rfl
      rw [hclient, Function.update_self] at hclosed
      cases hclosed
    rw [hentry uri huri] at hdoc
    rw [hclient, Function.update_of_ne huri] at hclosed
    exact h.closed uri item' state hdoc hclosed

theorem Session.Tracked.step (h : s.Tracked events) (hstep : SessionStep interp s event s') :
    s'.Tracked (events ++ [event]) := by
  cases hstep with
  | other client server server' event hother hserver =>
    have hentry := entry_other hserver hother
    refine h.of_same_domain (fun item => hother _) (fun uri => ?_) h.known ?_
    · rw [hentry]
    · rw [hentry]
      exact h.closed
  | receive client client' server server' message hclient hserver =>
    cases hserver
    cases hclient with
    | request request =>
      exact h.of_same_domain (by simp) (fun uri => Iff.rfl) h.known h.closed
    | didOpen item hnone =>
      cases hentry : server.entry item.uri with
      | none =>
        have hnew := entry_didOpen_new hentry
        refine h.didOpen ?_ (fun uri huri => ?_) rfl
        · rw [hnew, Function.update_self]
          exact Option.some_ne_none _
        · rw [hnew, Function.update_of_ne huri]
      | some entry =>
        have hsame := entry_didOpen_again hentry
        refine h.didOpen ?_ (fun uri huri => ?_) rfl
        · rw [hsame, hentry]
          exact Option.some_ne_none _
        · rw [hsame]
    | didChange uri document version text hopen hversion =>
      obtain ⟨⟨item, state⟩, hentry⟩ := Option.ne_none_iff_exists'.mp (h.known uri document hopen)
      obtain ⟨item', hchange⟩ := entry_didChange_any version none hentry
      exact h.update (by simp) (by simp [hentry]) hchange rfl (by simp)
    | didClose uri document hopen =>
      obtain ⟨⟨item, state⟩, hentry⟩ := Option.ne_none_iff_exists'.mp (h.known uri document hopen)
      exact h.update (by simp) (by simp [hentry]) (entry_didClose hentry) rfl fun _ => rfl

theorem run_tracked (h : Run (SessionStep interp) .initial events s) : s.Tracked events :=
  h.history tracked_initial fun _ _ _ _ _ htracked hstep => htracked.step hstep

/-! ## Without opening a document again -/

theorem inStep_initial : Session.initial.InStep where
  item _ _ h := nomatch h
  state _ _ h := nomatch h

/-- One document changes, on both sides in the same way. -/
theorem Session.InStep.update (h : s.InStep) {uri : Str} {item : TextDocumentItem}
    {state : DocumentState} {document : Option ClientDocument}
    (hentry : s'.server.entry = Function.update s.server.entry uri (some (item, state)))
    (hclient : s'.client = Function.update s.client uri document)
    (hdocument : ∀ d, document = some d → item.text = d.text ∧ item.version = d.version)
    (hopen : state = .OPEN ↔ document.isSome) : s'.InStep := by
  obtain ⟨hitem, hstate⟩ := inStep_iff.mp h
  refine inStep_iff.mpr ⟨fun uri' d hd => ?_, fun uri' item' state' hentry' => ?_⟩
  · rw [hclient] at hd
    rw [hentry]
    by_cases huri : uri' = uri
    · subst huri
      rw [Function.update_self] at hd
      exact ⟨item, state, Function.update_self .., hdocument d hd⟩
    · rw [Function.update_of_ne huri] at hd ⊢
      exact hitem uri' d hd
  · rw [hentry] at hentry'
    rw [hclient]
    by_cases huri : uri' = uri
    · subst huri
      rw [Function.update_self] at hentry' ⊢
      cases hentry'
      exact hopen
    · rw [Function.update_of_ne huri] at hentry' ⊢
      exact hstate uri' item' state' hentry'

/-- A step keeps client and server together, unless it opens a document the server has an entry
for. -/
theorem Session.InStep.step (h : s.InStep) (hstep : SessionStep interp s event s')
    (hnew : ∀ item, event = .receive (.didOpen item) → s.server.entry item.uri = none) :
    s'.InStep := by
  obtain ⟨hitem, hstate⟩ := inStep_iff.mp h
  cases hstep with
  | other client server server' event hother hserver =>
    refine inStep_iff.mpr ?_
    rw [entry_other hserver hother]
    exact ⟨hitem, hstate⟩
  | receive client client' server server' message hclient hserver =>
    cases hserver
    cases hclient with
    | request request => exact inStep_iff.mpr ⟨hitem, hstate⟩
    | didOpen item hnone =>
      refine h.update (entry_didOpen_new (hnew item rfl)) rfl ?_ (by simp)
      rintro document hdocument
      cases hdocument
      exact ⟨rfl, rfl⟩
    | didChange uri document version text hopen hversion =>
      obtain ⟨item, state, hentry, htext, hold⟩ := hitem uri document hopen
      have hnewer : item.version < version := by rwa [hold]
      have hopen' := hstate uri item state hentry
      refine h.update (entry_didChange hentry hnewer) rfl ?_ (by simpa [hopen] using hopen')
      rintro document' hdocument
      cases hdocument
      exact ⟨rfl, rfl⟩
    | didClose uri document hopen =>
      obtain ⟨item, state, hentry, -, -⟩ := hitem uri document hopen
      exact h.update (entry_didClose hentry) rfl (fun _ hdocument => nomatch hdocument) (by simp)

theorem inStep_of_nodup (h : Run (SessionStep interp) .initial events s)
    (hnodup : (openedUris events).Nodup) : s.InStep := by
  have hrule : (openedUris events).Nodup → s.InStep := by
    refine h.history (J := fun events s => (openedUris events).Nodup → s.InStep)
      (fun _ => inStep_initial) ?_
    intro events t event u hr ih hstep hnodup
    rw [openedUris_append] at hnodup
    refine (ih (List.nodup_append.mp hnodup).1).step hstep fun item hevent => ?_
    subst hevent
    rw [openedUris_didOpen] at hnodup
    by_contra hentry
    have hopened := ((run_tracked hr).opened item.uri).mpr hentry
    exact (List.nodup_append.mp hnodup).2.2 item.uri hopened item.uri List.mem_cons_self rfl
  exact hrule hnodup

/-! ## Opening a document again -/

/-- The step that opens a document again leaves its entry closed. -/
theorem not_inStep_of_reopened {item : TextDocumentItem} (h : s.Tracked events)
    (hopened : item.uri ∈ openedUris events)
    (hstep : SessionStep interp s (.receive (.didOpen item)) s') : ¬s'.InStep := by
  obtain ⟨⟨item', state⟩, hentry⟩ := Option.ne_none_iff_exists'.mp ((h.opened item.uri).mp hopened)
  cases hstep with
  | other _ _ _ _ hother => exact absurd rfl (hother _)
  | receive client client' server server' message hclient hserver =>
    cases hserver
    cases hclient with
    | didOpen _ hnone =>
      have hclosed : state = .CLOSED := h.closed item.uri item' state hentry hnone
      intro hinstep
      have hstate := (inStep_iff.mp hinstep).2 item.uri item' state
      dsimp only at hstate hentry
      rw [entry_didOpen_again hentry, hclosed] at hstate
      have hclient' := hstate (by rw [← hclosed]; exact hentry)
      simp at hclient'

/-- Where a document is opened more than once, one is opened that has been opened before. -/
theorem exists_reopened (h : ¬(openedUris events).Nodup) : ∃ before item after,
    events = before ++ .receive (.didOpen item) :: after ∧ item.uri ∈ openedUris before := by
  induction events using List.reverseRecOn with
  | nil => exact absurd List.nodup_nil h
  | append_singleton events event ih =>
    by_cases hbefore : (openedUris events).Nodup
    · by_cases hopen : ∃ item, event = .receive (.didOpen item)
      · obtain ⟨item, rfl⟩ := hopen
        refine ⟨events, item, [], rfl, ?_⟩
        by_contra hnew
        rw [openedUris_append, openedUris_didOpen] at h
        refine h (List.nodup_append.mpr ⟨hbefore, by simp, fun uri huri uri' huri' heq => ?_⟩)
        rw [List.mem_singleton] at huri'
        exact hnew (huri' ▸ heq ▸ huri)
      · have hother := openedUris_other fun item heq => hopen ⟨item, heq⟩
        rw [openedUris_append, hother, List.append_nil] at h
        exact absurd hbefore h
    · obtain ⟨before, item, after, rfl, hopened⟩ := ih hbefore
      exact ⟨before, item, after ++ [event], by simp, hopened⟩

/-- The server follows a conforming client through a run exactly when no document is opened again. -/
theorem session_inStep_iff (h : Run (SessionStep interp) .initial events s) :
    (∀ before mid after, events = before ++ after → Run (SessionStep interp) .initial before mid →
      Run (SessionStep interp) mid after s → mid.InStep) ↔ (openedUris events).Nodup := by
  constructor
  · intro hall
    by_contra hdup
    obtain ⟨before, item, after, rfl, hopened⟩ := exists_reopened hdup
    obtain ⟨mid, next, hmid, hstep, hafter⟩ := h.split_cons
    have hnext := hall (before ++ [.receive (.didOpen item)]) next after (by simp) (hmid.snoc hstep)
      hafter
    exact not_inStep_of_reopened (run_tracked hmid) hopened hstep hnext
  · intro hnodup before mid after heq hbefore _
    rw [heq, openedUris_append] at hnodup
    exact inStep_of_nodup hbefore (List.nodup_append.mp hnodup).1

/-! ## A document that is opened, closed and opened again -/

/-- The Tcl library on scripts of one simple word. -/
def oneWordInterp : TclInterp where
  parseCommand view :=
    if view.bytes = [] then none
    else
      some { commandStart := view.data, commandSize := view.bytes.length, commentSize := 0,
             numWords := 1,
             tokens := [⟨.SIMPLE_WORD, view.data, view.bytes.length, 1⟩,
               ⟨.TEXT, view.data, view.bytes.length, 0⟩] }
  findElement _ := none

/-- The document `u` with this text. -/
def openF (version : Int) (text : String) : TextDocumentItem :=
  { uri := bytes "u", languageId := bytes "tcl", version, text := bytes text }

def reopening : List ServerEvent :=
  [.receive (.didOpen (openF 1 "f")), .receive (.didClose (bytes "u")),
    .receive (.didOpen (openF 1 "g"))]

theorem reopening_run :
    ∃ t s, Run (SessionStep oneWordInterp) .initial (reopening.take 2) t ∧
      SessionStep oneWordInterp t (.receive (.didOpen (openF 1 "g"))) s := by
  refine ⟨_, _, .cons (.receive _ _ _ _ _ (.didOpen _ (openF 1 "f") rfl) (.receive _ _ rfl nofun))
    (.single (.receive _ _ _ _ _ (.didClose _ (bytes "u") ⟨bytes "f", 1⟩ ?_)
      (.receive _ _ ?_ fun _ => ?_))),
    .receive _ _ _ _ _ (.didOpen _ (openF 1 "g") ?_) (.receive _ _ ?_ nofun)⟩
  · exact Function.update_self ..
  · rfl
  · rfl
  · exact Function.update_self ..
  · rfl

/-- The client has `g` open, the server has `f` and has it closed. -/
theorem reopening_not_inStep :
    ∃ s, Run (SessionStep oneWordInterp) .initial reopening s ∧ ¬s.InStep := by
  obtain ⟨t, s, hrun, hstep⟩ := reopening_run
  exact ⟨s, hrun.snoc hstep, not_inStep_of_reopened (run_tracked hrun) (by decide +kernel) hstep⟩

/-- After the first two messages client and server are in step. -/
theorem reopening_inStep_iff : ∃ t s, Run (SessionStep oneWordInterp) .initial (reopening.take 2) t ∧
    t.InStep ∧ Run (SessionStep oneWordInterp) .initial reopening s ∧
    ((∀ before mid after, reopening = before ++ after →
      Run (SessionStep oneWordInterp) .initial before mid →
      Run (SessionStep oneWordInterp) mid after s → mid.InStep) ↔ (openedUris reopening).Nodup) := by
  obtain ⟨t, s, hrun, hstep⟩ := reopening_run
  have hnodup : (openedUris (reopening.take 2)).Nodup := by decide +kernel
  have hinStep := (session_inStep_iff hrun).mpr hnodup _ t [] (List.append_nil _).symm hrun .nil
  exact ⟨t, s, hrun, hinStep, hrun.snoc hstep, session_inStep_iff (hrun.snoc hstep)⟩

end TclAnalyzer
