import TclAnalyzer.Lsp.Proofs.ResponseProofs
import TclAnalyzer.Lsp.Scheduling

/-!
# The work is done, and done once

Each step moves a request or a `Reparse` on by one stage, so the accounts are kept, and without new
messages the server comes to rest.
-/

namespace TclAnalyzer

variable {interp : TclInterp} {event : ServerEvent} {events more : List ServerEvent}
  {s s' t : Server} {uri : Str}

/-! ## The queue -/

/-- A message queues nothing and has no text accepted, or queues one `Reparse`, for the document whose
text is accepted or for one that there is. -/
theorem receive_queued (s : Server) (message : Message) :
    (s.receive message).indexQueue = s.indexQueue ∧ (s.receive message).accepted = s.accepted ∨
    ∃ uri, (s.receive message).indexQueue = s.indexQueue ++ [uri] ∧
      ((s.receive message).accepted = s.accepted ∧ s.documents uri ≠ none ∨
        ∃ text, (s.receive message).accepted = s.accepted ++ [(uri, text)]) := by
  cases message with
  | didOpen item =>
    right
    cases hdoc : s.documents item.uri with
    | none =>
      have hopen : s.receive (.didOpen item) = _ := onDidOpen_new hdoc
      rw [hopen]
      exact ⟨item.uri, rfl, Or.inr ⟨item.text, rfl⟩⟩
    | some document =>
      have hopen : s.receive (.didOpen item) =
          { s with indexQueue := s.indexQueue ++ [item.uri] } := by
        simp only [Server.receive, onDidOpen, hdoc]
      rw [hopen]
      exact ⟨item.uri, rfl, Or.inl ⟨rfl, hdoc ▸ Option.some_ne_none document⟩⟩
  | didChange uri version changes =>
    rcases receive_didChange s uri version changes with hsame | hchange
    · rw [hsame]
      exact Or.inl ⟨rfl, rfl⟩
    · generalize s.receive (.didChange uri version changes) = s' at hchange ⊢
      unfold onDidChange at hchange
      split at hchange
      · cases hchange
      · split at hchange
        · split at hchange
          · cases hchange
            exact Or.inr ⟨uri, rfl, Or.inr ⟨_, rfl⟩⟩
          · cases hchange
            exact Or.inl ⟨rfl, rfl⟩
        · cases hchange
          exact Or.inl ⟨rfl, rfl⟩
  | didClose uri =>
    left
    rcases receive_didClose s uri with hended | hclose
    · rw [hended]
      exact ⟨rfl, rfl⟩
    · generalize s.receive (.didClose uri) = s' at hclose ⊢
      unfold onDidClose at hclose
      split at hclose
      · cases hclose
      · cases hclose
        exact ⟨rfl, rfl⟩
  | request request => exact Or.inl ⟨rfl, rfl⟩
  | exit => exact Or.inl ⟨rfl, rfl⟩

theorem receivedRequests_append (events more : List ServerEvent) :
    receivedRequests (events ++ more) = receivedRequests events ++ receivedRequests more :=
  List.filterMap_append

theorem endedRequests_append (events more : List ServerEvent) :
    endedRequests (events ++ more) = endedRequests events ++ endedRequests more :=
  List.filterMap_append

theorem startedUris_append (events more : List ServerEvent) :
    startedUris (events ++ more) = startedUris events ++ startedUris more :=
  List.filterMap_append

theorem endedUris_append (events more : List ServerEvent) :
    endedUris (events ++ more) = endedUris events ++ endedUris more :=
  List.filterMap_append

/-- An element is moved to the end. -/
theorem perm_moved {α : Type*} (before after rest : List α) (a : α) :
    (before ++ a :: after ++ rest).Perm (before ++ after ++ (rest ++ [a])) := by
  rw [← List.append_assoc]
  exact (List.perm_middle.append_right rest).trans (List.perm_append_singleton a _).symm

/-- What an event adds to the accounts. -/
theorem accounts_concat
    (hrequests : (receivedRequests events ++ receivedRequests [event]).Perm
      (s'.requests ++ s'.cursors.map Lookup.request ++
        (endedRequests events ++ endedRequests [event])))
    (hreparses : startedUris events ++ startedUris [event] =
      endedUris events ++ endedUris [event] ++ s'.reparsing.toList.map Reparsing.uri)
    (haccepted : (s'.accepted.map Prod.fst).Sublist
      (startedUris events ++ startedUris [event] ++ s'.indexQueue)) :
    s'.Accounts (events ++ [event]) := by
  constructor
  · rwa [receivedRequests_append, endedRequests_append]
  · rwa [startedUris_append, endedUris_append]
  · rwa [startedUris_append]

/-- A step of a `Reparse`. -/
theorem Server.Accounts.thread (h : s.Accounts events) (hevent : event.isBackground = true)
    (hsame : s.SameLoop s')
    (hreparses : startedUris events ++ startedUris [event] =
      endedUris events ++ endedUris [event] ++ s'.reparsing.toList.map Reparsing.uri)
    (haccepted : (s'.accepted.map Prod.fst).Sublist
      (startedUris events ++ startedUris [event] ++ s'.indexQueue)) :
    s'.Accounts (events ++ [event]) := by
  refine accounts_concat ?_ hreparses haccepted
  have hnone : receivedRequests [event] = [] ∧ endedRequests [event] = [] := by
    cases event with
    | start | read | installed | failed => exact ⟨rfl, rfl⟩
    | receive | cursor | reply | dropped | written | blocked => cases hevent
  rw [hnone.1, hnone.2, hsame.requests, hsame.cursors, List.append_nil, List.append_nil]
  exact h.requests

/-- A step of a handler of a request. -/
theorem Server.Accounts.handler (h : s.Accounts events)
    (hevent : startedUris [event] = [] ∧ endedUris [event] = [])
    (hreparsing : s'.reparsing = s.reparsing) (hqueue : s'.indexQueue = s.indexQueue)
    (haccepted : s'.accepted = s.accepted)
    (hrequests : (receivedRequests events ++ receivedRequests [event]).Perm
      (s'.requests ++ s'.cursors.map Lookup.request ++
        (endedRequests events ++ endedRequests [event]))) :
    s'.Accounts (events ++ [event]) := by
  refine accounts_concat hrequests ?_ ?_
  · rw [hevent.1, hevent.2, hreparsing, List.append_nil, List.append_nil]
    exact h.reparses
  · rw [hevent.1, haccepted, hqueue, List.append_nil]
    exact h.accepted

/-- A request leaves the handlers that have not started. -/
theorem Server.Accounts.dropped {before after : List Request} {request : Request}
    (h : s.Accounts events) (hrequests : s.requests = before ++ request :: after) :
    Server.Accounts (events ++ [.dropped request]) { s with requests := before ++ after } := by
  refine h.handler ⟨rfl, rfl⟩ rfl rfl rfl ?_
  have hperm := h.requests
  rw [hrequests] at hperm
  show (receivedRequests events ++ []).Perm (before ++ after ++ _ ++ (endedRequests events ++ [request]))
  rw [List.append_nil, List.append_assoc, ← List.append_assoc _ _ [request]]
  rw [List.append_assoc] at hperm
  exact hperm.trans (perm_moved before after _ request)

/-- A request leaves the handlers that have their cursor. -/
theorem Server.Accounts.answered {before after : List Lookup} {lookup : Lookup} {index : Index}
    {replying : Nat} (h : s.Accounts events) (hcursors : s.cursors = before ++ lookup :: after)
    (hended : endedRequests [event] = [lookup.request]) (hreceived : receivedRequests [event] = [])
    (hevent : startedUris [event] = [] ∧ endedUris [event] = []) :
    Server.Accounts (events ++ [event]) { s with cursors := before ++ after, index, replying } := by
  refine h.handler hevent rfl rfl rfl ?_
  have hperm := h.requests
  rw [hcursors, List.map_append, List.map_cons, ← List.append_assoc] at hperm
  show (receivedRequests events ++ _).Perm (s.requests ++ List.map _ (before ++ after) ++ _)
  rw [hended, hreceived, List.append_nil, List.map_append, ← List.append_assoc s.requests]
  exact hperm.trans (perm_moved _ _ _ lookup.request)

/-- A step that no account speaks about. -/
theorem Server.Accounts.skip {replying : Nat} {listening blocked : Bool} (h : s.Accounts events)
    (hrequests : receivedRequests [event] = [] ∧ endedRequests [event] = [])
    (hevent : startedUris [event] = [] ∧ endedUris [event] = []) :
    Server.Accounts (events ++ [event]) { s with replying, listening, blocked } := by
  refine h.handler hevent rfl rfl rfl ?_
  rw [hrequests.1, hrequests.2, List.append_nil, List.append_nil]
  exact h.requests

theorem Server.Accounts.received (h : s.Accounts events) (message : Message) :
    (s.receive message).Accounts (events ++ [.receive message]) := by
  have haccepted := h.accepted
  refine accounts_concat ?_ ?_ ?_
  · show (receivedRequests events ++ _).Perm (_ ++ (endedRequests events ++ []))
    rw [List.append_nil]
    by_cases hrequest : ∃ request, message = .request request
    · obtain ⟨request, rfl⟩ := hrequest
      show (receivedRequests events ++ [request]).Perm (s.requests ++ request :: [] ++
        s.cursors.map Lookup.request ++ endedRequests events)
      have hmoved := perm_moved s.requests []
        (s.cursors.map Lookup.request ++ endedRequests events) request
      have hperm := h.requests.append_right [request]
      rw [List.append_nil, ← List.append_assoc, ← List.append_assoc, ← List.append_assoc] at hmoved
      exact hperm.trans hmoved.symm
    · have hnone : receivedRequests [.receive message] = [] := by
        cases message with
        | request request => exact absurd ⟨request, rfl⟩ hrequest
        | _ => rfl
      have hrest := (receive_rest s message).resolve_right fun ⟨request, heq, _⟩ =>
        hrequest ⟨request, heq⟩
      rw [hnone, List.append_nil, hrest.requests, hrest.cursors]
      exact h.requests
  · show startedUris events ++ [] = endedUris events ++ [] ++ _
    rw [List.append_nil, List.append_nil, ← Option.toList_map, receive_reparsing_uri,
      Option.toList_map]
    exact h.reparses
  · show List.Sublist _ (startedUris events ++ [] ++ _)
    rw [List.append_nil]
    rcases receive_queued s message with ⟨hqueue, hsame⟩ | ⟨uri, hqueue, ⟨hsame, -⟩ | ⟨text, hnew⟩⟩
    · rwa [hqueue, hsame]
    · rw [hqueue, hsame, ← List.append_assoc]
      exact haccepted.trans (List.sublist_append_left _ _)
    · rw [hqueue, hnew, List.map_append, ← List.append_assoc]
      exact haccepted.append (.refl _)

theorem Server.Accounts.step (h : s.Accounts events) (hstep : ServerStep interp s event s') :
    s'.Accounts (events ++ [event]) := by
  have hreparses := h.reparses
  have haccepted := h.accepted
  cases hstep with
  | receive message => exact h.received message
  | start uri queue document hidle hqueue hdoc =>
    refine h.thread rfl ⟨rfl, rfl, rfl, rfl, rfl⟩ ?_ ?_
    · rw [hreparses, hidle]
      rfl
    · rw [hqueue] at haccepted
      show (s.accepted.map Prod.fst).Sublist (startedUris events ++ [uri] ++ queue)
      rwa [List.append_assoc]
  | read uri torn document text hruns hdoc htext =>
    refine h.thread rfl ⟨rfl, rfl, rfl, rfl, rfl⟩ ?_ ?_
    · rw [hruns] at hreparses
      show startedUris events ++ [] = endedUris events ++ [] ++ [uri]
      rwa [List.append_nil, List.append_nil]
    · show (s.accepted.map Prod.fst).Sublist (startedUris events ++ [] ++ s.indexQueue)
      rwa [List.append_nil]
  | installed uri file parsed document hruns hquiet hreparse hdoc =>
    refine h.thread rfl ⟨rfl, rfl, rfl, rfl, rfl⟩ ?_ ?_
    · rw [hreparses, hruns]
      rfl
    · show (s.accepted.map Prod.fst).Sublist (startedUris events ++ [] ++ s.indexQueue)
      rwa [List.append_nil]
  | failed uri file fault hruns hreparse hexception =>
    refine h.thread rfl ⟨rfl, rfl, rfl, rfl, rfl⟩ ?_ ?_
    · rw [hreparses, hruns]
      rfl
    · show (s.accepted.map Prod.fst).Sublist (startedUris events ++ [] ++ s.indexQueue)
      rwa [List.append_nil]
  | cursor before after lookup hfree hrequests hlookup =>
    refine h.handler ⟨rfl, rfl⟩ rfl rfl rfl ?_
    have hperm := h.requests
    rw [hrequests] at hperm
    show (receivedRequests events ++ []).Perm (before ++ after ++
      (s.cursors ++ [lookup]).map _ ++ (endedRequests events ++ []))
    rw [List.append_nil, List.append_nil, List.map_append]
    exact hperm.trans ((perm_moved before after _ lookup.request).append_right _)
  | noCursor before after request fault hfree hrequests => exact h.dropped hrequests
  | reply before after lookup remains reply index hfree hcursors =>
    exact h.answered hcursors rfl rfl ⟨rfl, rfl⟩
  | noReply before after lookup remains fault hfree hcursors =>
    exact h.answered hcursors rfl rfl ⟨rfl, rfl⟩
  | blocked | written => exact h.skip ⟨rfl, rfl⟩ ⟨rfl, rfl⟩

/-- The parts of the work. -/
theorem work_eq_zero (h : s.work = 0) :
    s.indexQueue = [] ∧ s.reparsing = none ∧ s.requests = [] ∧ s.cursors = [] ∧ s.replying = 0 := by
  unfold Server.work at h
  have hqueue : s.indexQueue.length = 0 := by omega
  have hreparsing : (s.reparsing.toList.map Reparsing.work).sum = 0 := by omega
  have hrequests : s.requests.length = 0 := by omega
  have hcursors : s.cursors.length = 0 := by omega
  refine ⟨List.length_eq_zero_iff.mp hqueue, ?_, List.length_eq_zero_iff.mp hrequests,
    List.length_eq_zero_iff.mp hcursors, by omega⟩
  cases hruns : s.reparsing with
  | none => rfl
  | some reparsing =>
    rw [hruns] at hreparsing
    cases reparsing with
    | reading | parsing => simp [Reparsing.work] at hreparsing

theorem Server.Accounts.done (h : s.Accounts events) (hwork : s.work = 0) : s.Done events := by
  obtain ⟨hqueue, hreparsing, hrequests, hcursors, hreplying⟩ := work_eq_zero hwork
  have hhandled := h.requests
  have hstarted := h.reparses
  have haccepted := h.accepted
  rw [hrequests, hcursors] at hhandled
  rw [hreparsing] at hstarted
  rw [hstarted, hqueue] at haccepted
  refine ⟨⟨hqueue, hreparsing⟩, hrequests, hcursors, hreplying, hhandled, ?_⟩
  simpa using haccepted

end TclAnalyzer
