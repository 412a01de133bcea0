import TclAnalyzer.Analyzer.Proofs.TypedProofs
import TclAnalyzer.Lsp.Proofs.DispatchProofs

/-!
# Requests that get a response

A handler of a request sends one frame at its end, and none if it ends with an exception: the
exception is only logged.
-/

namespace TclAnalyzer

variable {interp : TclInterp} {index : Index} {call : Call} {word : Word} {cursor : ScriptCursor}
  {tree : Tree} {s later : Server} {d d' : Dispatcher} {message id : Json} {remains : Remains}
  {between : List ServerEvent} {history : List DispatchEvent}

/-! ## The lookup -/

/-- The lookup of a command word that reads as this name can split the names. -/
structure Resolves (index : Index) (call : Call) (cmdName : Str) : Prop where
  absolute : (splitName call.ns).absolute = true
  ns : HasParts call.ns
  word : ∀ ns, findNamespace index call.ns = .ok (some ns) → HasParts cmdName

theorem parts_ok_iff {nsName : Str} :
    HasParts nsName ↔ ∃ parts, (splitName nsName).parts = .ok parts := by
  rw [hasParts_iff]
  unfold QualifiedName.parts
  constructor
  · rintro ⟨parts, hparts⟩
    exact ⟨_, bind_eq_ok.mpr ⟨parts, hparts, rfl⟩⟩
  · rintro ⟨_, h⟩
    obtain ⟨parts, hparts, -⟩ := bind_eq_ok.mp h
    exact ⟨parts, hparts⟩

/-- The lookup of a command word succeeds exactly when the names it splits have parts. -/
theorem procAtCursor_ok_iff (h : index.WF) :
    (∃ result, procAtCursor index call word = .ok result) ↔ Resolves index call word.text.bytes := by
  unfold procAtCursor
  constructor
  · rintro ⟨result, hproc⟩
    obtain ⟨ns, hfind, hproc⟩ := bind_eq_ok.mp hproc
    obtain ⟨parts, hparts, -⟩ := findNamespace_atPath h.namespaces hfind
    refine ⟨findNamespace_absolute hfind, parts_ok_iff.mpr ⟨parts, hparts⟩, fun ns' hfind' => ?_⟩
    cases hfind.symm.trans hfind'
    obtain ⟨path, -, hat⟩ := findNamespace_atPath h.namespaces hfind
    obtain ⟨found, hfound, -⟩ := bind_eq_ok.mp hproc
    rcases findProc_spec h hat word.text.bytes with ⟨parts, -, hparts, -⟩ | ⟨fault, -, herror⟩
    · exact hasParts_iff.mpr ⟨parts, hparts⟩
    · cases hfound.symm.trans herror
  · rintro ⟨habsolute, hns, hword⟩
    obtain ⟨parts, hparts⟩ := parts_ok_iff.mp hns
    have hfind : findNamespace index call.ns = .ok (index.atPath parts) := by
      rw [findNamespace_eq h.namespaces habsolute, hparts]
      rfl
    cases hat : index.atPath parts with
    | none =>
      rw [hat] at hfind
      exact ⟨(none, index), bind_eq_ok.mpr ⟨none, hfind, rfl⟩⟩
    | some ns =>
      rw [hat] at hfind
      obtain ⟨wordParts, hwordParts⟩ := hasParts_iff.mp (hword ns hfind)
      rcases findProc_spec h hat word.text.bytes with ⟨-, index', -, hfound, -⟩ | ⟨fault, herror, -⟩
      · exact ⟨_, bind_eq_ok.mpr ⟨some ns, hfind, bind_eq_ok.mpr ⟨_, hfound, rfl⟩⟩⟩
      · cases hwordParts.symm.trans herror

/-- The references of the proc that is found can always be read. -/
theorem answer_ok_iff (h : index.WF) (keep : Reference → Bool) :
    (∃ result, answer keep index cursor = .ok result) ↔
      ∀ call word, cursor.call = some call → cursor.word = some word → word.type = .TEXT →
        cursor.argument = 0 → Resolves index call word.text.bytes := by
  unfold answer
  cases hcall : cursor.call with
  | none => simp
  | some call =>
    cases hword : cursor.word with
    | none => simp
    | some word =>
      by_cases hcommand : word.type = .TEXT ∧ cursor.argument = 0
      · simp only [if_pos hcommand]
        have hresolves : Resolves index call word.text.bytes ↔ ∀ call' word', some call = some call' →
            some word = some word' → word'.type = .TEXT → cursor.argument = 0 →
              Resolves index call' word'.text.bytes := by
          constructor
          · rintro hlookup _ _ ⟨⟩ ⟨⟩ - -
            exact hlookup
          · intro hall
            exact hall call word rfl rfl hcommand.1 hcommand.2
        rw [← hresolves, ← procAtCursor_ok_iff h]
        constructor
        · rintro ⟨result, hanswer⟩
          obtain ⟨found, hfound, -⟩ := bind_eq_ok.mp hanswer
          exact ⟨found, hfound⟩
        · rintro ⟨⟨fit, index'⟩, hfound⟩
          obtain ⟨hwf, hgrows⟩ := procAtCursor_grows h hfound
          cases fit with
          | none => exact ⟨_, bind_eq_ok.mpr ⟨_, hfound, rfl⟩⟩
          | some p =>
            have hrefs := referencesAt_refsOf (hgrows.wf h hwf).procs p.id
            exact ⟨_, bind_eq_ok.mpr ⟨_, hfound, bind_eq_ok.mpr ⟨_, hrefs, rfl⟩⟩⟩
      · simp only [if_neg hcommand]
        constructor
        · rintro - _ _ ⟨⟩ ⟨⟩ htext hargument
          exact absurd ⟨htext, hargument⟩ hcommand
        · intro _
          exact ⟨_, rfl⟩

theorem request_answer_ok_iff (h : index.WF) (request : Request) :
    (∃ result, request.answer index cursor = .ok result) ↔
      ∀ call word, cursor.call = some call → cursor.word = some word → word.type = .TEXT →
        cursor.argument = 0 → Resolves index call word.text.bytes := by
  unfold Request.answer
  cases request.method with
  | references => exact answer_ok_iff h _
  | definition => exact answer_ok_iff h _

/-- In the place of bytes that are gone there can be any bytes. -/
theorem looksUp_iff : LooksUp index tree call word ↔
    ∀ remains, Resolves index call (tree.read remains word.text).bytes := by
  have hgone : ¬tree.HasContents →
      ((∀ remains, HasParts (tree.read remains word.text).bytes) ↔ word.text.bytes.length < 3) := by
    intro hcontents
    rw [← forall_hasParts_iff]
    constructor
    · intro h s hlength
      set remains : Remains :=
        { contents := fun i => s.getD (i - word.text.data) 0, fileName := fun _ => [] }
      have hread := h remains
      have hs : (tree.read remains word.text).bytes = s := by
        rw [Tree.read, if_neg hcontents]
        refine List.ext_getElem (by simp [hlength]) fun i hi hi' => ?_
        simp [remains, hi']
      rwa [hs] at hread
    · intro h remains
      refine h _ ?_
      rw [Tree.read, if_neg hcontents]
      simp
  constructor
  · rintro ⟨habsolute, hns, hword⟩ remains
    refine ⟨habsolute, hns, fun ns hfind => ?_⟩
    have hthis := hword ns hfind
    by_cases hcontents : tree.HasContents
    · rw [if_pos hcontents] at hthis
      rwa [Tree.read, if_pos hcontents]
    · rw [if_neg hcontents] at hthis
      exact (hgone hcontents).mpr hthis remains
  · intro h
    have hone := h default
    refine ⟨hone.absolute, hone.ns, fun ns hfind => ?_⟩
    by_cases hcontents : tree.HasContents
    · have hthis := hone.word ns hfind
      rw [Tree.read, if_pos hcontents] at hthis
      rwa [if_pos hcontents]
    · rw [if_neg hcontents]
      exact (hgone hcontents).mp fun remains => (h remains).word ns hfind

/-- A lookup is answered, whatever is read through its pointers, exactly when they are good and the
names can be split. -/
theorem lookup_ok_iff {lookup : Lookup} (h : s.index.WF) :
    (∀ remains, ∃ result, lookup.answer s remains = .ok result) ↔
      (lookup.cursor.Points → s.treeNumber lookup.request.uri = some lookup.number) ∧
        lookup.cursor.LooksUp s.index lookup.tree := by
  have hlooksUp : (∀ remains, ∃ result,
      lookup.request.answer s.index (lookup.cursor.read lookup.tree remains) = .ok result) ↔
      lookup.cursor.LooksUp s.index lookup.tree := by
    simp only [request_answer_ok_iff h]
    unfold ScriptCursor.LooksUp ScriptCursor.read
    simp only [looksUp_iff, Option.map_eq_some_iff]
    constructor
    · intro hall call word hcall hword htype hargument remains
      exact hall remains call _ hcall ⟨word, hword, rfl⟩ htype hargument
    · rintro hall remains call _ hcall ⟨word, hword, rfl⟩ htype hargument
      exact hall call word hcall hword htype hargument remains
  rw [← hlooksUp]
  constructor
  · intro hall
    obtain ⟨⟨reply, index⟩, hanswer⟩ := hall default
    refine ⟨(lookupAnswer_eq_ok.mp hanswer).1, fun remains => ?_⟩
    obtain ⟨⟨reply, index⟩, hanswer⟩ := hall remains
    obtain ⟨-, found, hfound, -⟩ := lookupAnswer_eq_ok.mp hanswer
    exact ⟨_, hfound⟩
  · rintro ⟨hgood, hall⟩ remains
    obtain ⟨⟨found, index⟩, hfound⟩ := hall remains
    exact ⟨_, lookupAnswer_eq_ok.mpr ⟨hgood, found, hfound, rfl⟩⟩

/-! ## The handlers -/

/-- The trees of the server are typed, so that a position can be looked for in them. -/
theorem document_typed {events : List ServerEvent} {uri : Str} {document : Document}
    (h : Run (ServerStep interp) .initial events s) (hdoc : s.documents uri = some document) :
    document.script.Typed := by
  have hparsed := parsed_eq_some.mpr ⟨document, hdoc, rfl, rfl⟩
  rcases (run_sourced h).tree _ _ hparsed with hinitial | ⟨text, -, hparse⟩
  · rw [show document.script = Script.initial from congrArg Tree.script hinitial]
    exact Script.initial_typed _
  · exact parseScript_typed hparse

/-- What a handler of a request has sent when it returns. -/
theorem onRequest_sends {method : RequestMethod} (hid : message.find (bytes "id") = some id)
    (h : onRequest method d later remains message = .ok d') :
    ∃ result, d'.out = d.out ++ [responseMessage id result] := by
  obtain ⟨_, _, _, _, reply, _, id', -, -, -, -, hindex, rfl⟩ := onRequest_ok h
  cases hindex.symm.trans (Json.index_eq_ok hid)
  exact ⟨reply.toJson, rfl⟩

theorem onRequest_ok_iff {method : RequestMethod} {events : List ServerEvent}
    (hrun : Run (ServerStep interp) .initial events d.server) (hwf : later.index.WF)
    (hid : message.find (bytes "id") = some id) :
    (∀ remains, ∃ d', onRequest method d later remains message = .ok d') ↔
      method.Answerable d.server later message := by
  constructor
  · intro hall
    obtain ⟨d', h⟩ := hall default
    obtain ⟨params, uri, position, lookup, _, _, _, hparams, hplace, hlookup, -⟩ := onRequest_ok h
    obtain ⟨hcontext, hlocates⟩ := requestParams_eq_ok.mp hplace
    obtain ⟨document, hdoc, hfind, hrequest, htree, hnumber⟩ := getLookup_eq_ok.mp hlookup
    refine ⟨params, Json.at_eq_ok.mp hparams, hcontext, uri, position, document, hlocates, hdoc, ?_⟩
    intro cursor hcursor
    cases hfind.symm.trans hcursor
    have hanswers := (lookup_ok_iff hwf).mp fun remains => by
      obtain ⟨d', h⟩ := hall remains
      obtain ⟨_, _, _, lookup', reply, index, _, hparams', hplace', hlookup', hanswer, -⟩ :=
        onRequest_ok h
      cases hparams.symm.trans hparams'
      cases hplace.symm.trans hplace'
      cases hlookup.symm.trans hlookup'
      exact ⟨(reply, index), hanswer⟩
    rwa [hrequest, htree, hnumber] at hanswers
  · rintro ⟨params, hparams, hcontext, uri, position, document, hlocates, hdoc, hanswers⟩ remains
    obtain ⟨cursor, hcursor⟩ := findPositionInScript_ok
      { line := position.line, column := position.character } document.script (document_typed hrun hdoc)
    set request : Request := { method, id := 0, uri, position }
    set lookup : Lookup := { request, tree := document.tree, number := document.trees, cursor }
    have hlookup : getLookup d.server request = .ok lookup :=
      getLookup_eq_ok.mpr ⟨document, hdoc, hcursor, rfl, rfl, rfl⟩
    obtain ⟨⟨reply, index⟩, hanswer⟩ : ∃ result, lookup.answer later remains = .ok result :=
      (lookup_ok_iff hwf).mpr (hanswers cursor hcursor) remains
    unfold onRequest
    refine exists_bind_eq_ok.mpr ⟨params, Json.at_eq_ok.mpr hparams, ?_⟩
    refine exists_bind_eq_ok.mpr ⟨(uri, position), requestParams_eq_ok.mpr ⟨hcontext, hlocates⟩, ?_⟩
    refine exists_bind_eq_ok.mpr ⟨lookup, hlookup, exists_bind_eq_ok.mpr ⟨(reply, index), hanswer, ?_⟩⟩
    exact exists_bind_eq_ok.mpr ⟨id, Json.index_eq_ok hid, _, rfl⟩

/-! ## The responses -/

/-- What a spawned handler of a request sends, if it sends a frame when it returns. -/
theorem spawn_sends_iff {result : Except Fault Dispatcher} {P : Prop}
    (hok : (∃ d', result = .ok d') ↔ P)
    (hsends : ∀ d', result = .ok d' → ∃ response, d'.out = d.out ++ [responseMessage id response]) :
    (∃ response, (d.spawn result).out = d.out ++ [responseMessage id response]) ↔ P := by
  rw [← hok]
  rcases spawn_cases d result with hresult | ⟨-, hout, fault, hresult, -⟩
  · exact ⟨fun _ => ⟨_, hresult⟩, fun _ => hsends _ hresult⟩
  · constructor
    · rintro ⟨response, hresponse⟩
      have hlength := congrArg List.length (hout.symm.trans hresponse)
      simp at hlength
    · rintro ⟨d', hd'⟩
      cases hd'.symm.trans hresult

/-- The branches of the loop for requests. -/
theorem turn_initialize_eq
    (hmethod : message.find (bytes "method") = some (.string (bytes "initialize"))) :
    d.turn later remains message =
      Dispatcher.spawn { d with server := later } (handleInitialize { d with server := later } message) := by
  unfold Dispatcher.turn
  simp only [hmethod]
  rw [if_pos trivial]

theorem turn_shutdown (hmethod : message.find (bytes "method") = some (.string (bytes "shutdown")))
    (hid : message.find (bytes "id") = some id) :
    d.turn later remains message =
      { Dispatcher.send { d with server := later } (responseMessage id .null) with
        status := .sending } := by
  unfold Dispatcher.turn
  simp only [hmethod]
  rw [if_neg (by decide), if_pos trivial, Json.index_eq_ok hid]
  rfl

theorem turn_references
    (hmethod : message.find (bytes "method") = some (.string (bytes "textDocument/references"))) :
    d.turn later remains message =
      Dispatcher.spawn { d with server := later } (onRequest .references d later remains message) := by
  unfold Dispatcher.turn
  simp only [hmethod]
  rw [if_neg (by decide), if_neg (by decide), if_neg (by decide),
    if_neg (by decide), if_neg (by decide), if_neg (by decide), if_pos trivial]

theorem turn_definition
    (hmethod : message.find (bytes "method") = some (.string (bytes "textDocument/definition"))) :
    d.turn later remains message =
      Dispatcher.spawn { d with server := later } (onRequest .definition d later remains message) := by
  unfold Dispatcher.turn
  simp only [hmethod]
  rw [if_neg (by decide), if_neg (by decide), if_neg (by decide),
    if_neg (by decide), if_neg (by decide), if_neg (by decide),
    if_neg (by decide), if_pos trivial]

theorem request_sends_iff {method : RequestMethod} {events : List ServerEvent}
    (hrun : Run (ServerStep interp) .initial events d.server) (hwf : later.index.WF)
    (hid : message.find (bytes "id") = some id) :
    (∀ remains, ∃ response, (Dispatcher.spawn { d with server := later }
      (onRequest method d later remains message)).out = d.out ++ [responseMessage id response]) ↔
      method.Answerable d.server later message := by
  rw [← onRequest_ok_iff hrun hwf hid]
  refine forall_congr' fun remains => ?_
  exact spawn_sends_iff (d := { d with server := later }) Iff.rfl
    fun d' hd' => onRequest_sends (d := d) hid hd'

/-- A request gets exactly one response, with its id, whatever is read from memory that is gone, when
it is answerable, and otherwise there is something that may be read there and leaves it without one. -/
theorem response_iff (h : Run (DispatchStep interp) .initial history d)
    (hbetween : Run (ServerStep interp) d.server between later) {method : Str}
    (hmethod : message.find (bytes "method") = some (.string method))
    (hrequest : method ∈ requestMethods) (hid : message.find (bytes "id") = some id) :
    (∀ remains, ∃ result, (d.turn later remains message).out = d.out ++ [responseMessage id result]) ↔
      Answerable d.server later method message := by
  obtain ⟨⟨events, hrun⟩, -⟩ := run_server h
  have hwf := (run_lastIndexed (hrun.append hbetween)).wf
  unfold requestMethods at hrequest
  simp only [List.map_cons, List.map_nil, List.mem_cons, List.not_mem_nil, or_false] at hrequest
  unfold Answerable
  rcases hrequest with rfl | rfl | rfl | rfl
  · simp only [turn_initialize_eq hmethod, forall_const]
    rw [if_pos trivial]
    refine spawn_sends_iff (d := { d with server := later }) ?_ fun d' hd' => ?_
    · exact ⟨fun ⟨d', hd'⟩ => (handleInitialize_ok hid hd').1,
        fun hshape => ⟨_, handleInitialize_of_shape hid hshape⟩⟩
    · rw [(handleInitialize_ok hid hd').2]
      exact ⟨_, rfl⟩
  · simp only [turn_shutdown hmethod hid]
    rw [if_neg (by decide +kernel), if_neg (by decide +kernel), if_neg (by decide +kernel)]
    exact ⟨fun _ => trivial, fun _ _ => ⟨.null, rfl⟩⟩
  · simp only [turn_references hmethod]
    rw [if_neg (by decide +kernel), if_pos trivial]
    exact request_sends_iff hrun hwf hid
  · simp only [turn_definition hmethod]
    rw [if_neg (by decide +kernel), if_neg (by decide +kernel), if_pos trivial]
    exact request_sends_iff hrun hwf hid

/-! ## A request without a response -/

/-- `textDocument/definition` in a document that was never opened. -/
def definitionInUnknown : Json :=
  .object [(bytes "jsonrpc", .string (bytes "2.0")), (bytes "id", .unsigned 1),
    (bytes "method", .string (bytes "textDocument/definition")),
    (bytes "params", .object [
      (bytes "textDocument", .object [(bytes "uri", .string (bytes "file:///a.tcl"))]),
      (bytes "position", .object [(bytes "line", .unsigned 0), (bytes "character", .unsigned 0)])])]

/-- The handler has ended and nothing was sent. -/
theorem definitionInUnknown_no_response : ∃ d,
    DispatchStep oneWordInterp .initial (.receive definitionInUnknown []) d ∧ d.status = .running ∧
    definitionInUnknown.find (bytes "method") = some (.string (bytes "textDocument/definition")) ∧
    definitionInUnknown.find (bytes "id") = some (.unsigned 1) ∧
    ¬∃ result, d.out = Dispatcher.initial.out ++ [responseMessage (.unsigned 1) result] := by
  refine ⟨_, .receive _ _ [] .initial default rfl .nil (by simp), rfl, rfl, rfl, ?_⟩
  rintro ⟨result, hout⟩
  have hnone : (Dispatcher.initial.turn .initial default definitionInUnknown).out = [] := rfl
  cases hnone.symm.trans hout

/-- `initialize` without parameters. -/
def plainInitialize : Json :=
  .object [(bytes "jsonrpc", .string (bytes "2.0")), (bytes "id", .unsigned 1),
    (bytes "method", .string (bytes "initialize"))]

/-- The request has no response, and one for `initialize` has. -/
theorem definitionInUnknown_response_iff :
    ((∀ remains, ∃ result, (Dispatcher.initial.turn .initial remains definitionInUnknown).out =
      Dispatcher.initial.out ++ [responseMessage (.unsigned 1) result]) ↔
      Answerable .initial .initial (bytes "textDocument/definition") definitionInUnknown) ∧
    ∀ remains, ∃ result, (Dispatcher.initial.turn .initial remains plainInitialize).out =
      Dispatcher.initial.out ++ [responseMessage (.unsigned 1) result] := by
  have hrun : Run (DispatchStep oneWordInterp) .initial [] .initial := .nil
  constructor
  · refine response_iff hrun .nil ?_ ?_ ?_
    · rfl
    · decide +kernel
    · rfl
  · have hshape : Answerable .initial .initial (bytes "initialize") plainInitialize := by
      rw [Answerable, if_pos rfl]
      intro params hparams
      cases hparams
    refine (response_iff hrun .nil ?_ ?_ ?_).mpr hshape
    · rfl
    · decide +kernel
    · rfl

end TclAnalyzer
