import TclAnalyzer.Lsp.Quiescence

/-!
# What is left to do

The requests and the `Reparse`s that the server has taken on, those that have ended, and the steps
that are left when no message comes.
-/

namespace TclAnalyzer

/-! ## Accounts -/

def receivedRequests (events : List ServerEvent) : List Request :=
  events.filterMap fun
    | .receive (.request request) => some request
    | _ => none

/-- The requests whose handler has ended, with a reply or without. -/
def endedRequests (events : List ServerEvent) : List Request :=
  events.filterMap fun
    | .reply request _ _ => some request
    | .dropped request => some request
    | _ => none

def startedUris (events : List ServerEvent) : List Str :=
  events.filterMap fun
    | .start uri => some uri
    | _ => none

/-- The documents whose `Reparse` has ended, with a result or an exception. -/
def endedUris (events : List ServerEvent) : List Str :=
  events.filterMap fun
    | .installed uri => some uri
    | .failed uri => some uri
    | _ => none

/-- No request is lost and none handled twice. The `Reparse`s run one after the other, in the order in
which they were queued, and each accepted text has one of its own. -/
structure Server.Accounts (events : List ServerEvent) (s : Server) : Prop where
  requests : (receivedRequests events).Perm
    (s.requests ++ s.cursors.map Lookup.request ++ endedRequests events)
  reparses : startedUris events = endedUris events ++ s.reparsing.toList.map Reparsing.uri
  accepted : (s.accepted.map Prod.fst).Sublist (startedUris events ++ s.indexQueue)

/-! ## Work -/

/-- The steps that are left of a `Reparse`. -/
def Reparsing.work : Reparsing → Nat
  | .reading _ _ => 2
  | .parsing _ _ => 1

/-- A `Reparse` takes three steps, and so does a request: the cursor, the reply and the writing of
it. -/
def Server.work (s : Server) : Nat :=
  3 * s.indexQueue.length + (s.reparsing.toList.map Reparsing.work).sum + 3 * s.requests.length +
    2 * s.cursors.length + s.replying

/-- Nothing is left: each request that was received has been handled, with its one end, its reply is
written, and after each accepted text a `Reparse` of its document has ended. -/
structure Server.Done (events : List ServerEvent) (s : Server) : Prop where
  quiescent : s.Quiescent
  requests : s.requests = []
  cursors : s.cursors = []
  replying : s.replying = 0
  handled : (receivedRequests events).Perm (endedRequests events)
  reparsed : (s.accepted.map Prod.fst).Sublist (endedUris events)

end TclAnalyzer
