import TclAnalyzer.Analyzer.Proofs.UsageProofs
import TclAnalyzer.Lsp.Proofs.ReparseProofs
import TclAnalyzer.Lsp.Proofs.RequestsProofs
import TclAnalyzer.Lsp.Quiescence

/-!
# What is there when the server comes to rest

The text of a document is the newest one that was offered. Its tree is that of its text unless a
`Reparse` of it is still to be done. The index is that of the tree that was written last.
-/

namespace TclAnalyzer

variable {interp : TclInterp} {event : ServerEvent} {events events' : List ServerEvent}
  {s s' t u : Server} {uri text : Str} {index index' : Index}

/-! ## The index -/

/-- A lookup at the cursor only adds namespaces. -/
theorem procAtCursor_grows (h : index.WF) {call : Call} {word : Word} {fit : Option Proc}
    (hproc : procAtCursor index call word = .ok (fit, index')) :
    index'.NamespacesWF ∧ index.Grows index' := by
  unfold procAtCursor at hproc
  obtain ⟨ns, hfind, hproc⟩ := bind_eq_ok.mp hproc
  cases ns with
  | none =>
    cases hproc
    exact ⟨h.namespaces, .refl index⟩
  | some ns =>
    obtain ⟨⟨procs, found⟩, hprocs, hproc⟩ := bind_eq_ok.mp hproc
    cases hproc
    obtain ⟨path, -, hat⟩ := findNamespace_atPath h.namespaces hfind
    rcases findProc_spec h hat word.text.bytes with ⟨-, found', -, hok, hwf, hg⟩ | ⟨_, -, herror⟩
    · cases hprocs.symm.trans hok
      exact ⟨hwf, hg⟩
    · cases hprocs.symm.trans herror

theorem answer_grows (h : index.WF) {keep : Reference → Bool} {cursor : ScriptCursor} {reply : Reply}
    (hanswer : answer keep index cursor = .ok (reply, index')) :
    index'.NamespacesWF ∧ index.Grows index' := by
  have hsame : index = index' → index'.NamespacesWF ∧ index.Grows index' := by
    rintro rfl
    exact ⟨h.namespaces, .refl index⟩
  unfold answer at hanswer
  split at hanswer
  · split at hanswer
    · obtain ⟨⟨fit, found⟩, hproc, hanswer⟩ := bind_eq_ok.mp hanswer
      have hg := procAtCursor_grows h hproc
      cases fit with
      | none =>
        cases hanswer
        exact hg
      | some p =>
        obtain ⟨references, -, hanswer⟩ := bind_eq_ok.mp hanswer
        cases hanswer
        exact hg
    · cases hanswer
      exact hsame rfl
  · cases hanswer
    exact hsame rfl

theorem Request.answer_grows (h : index.WF) {request : Request} {cursor : ScriptCursor}
    {reply : Reply} (hanswer : request.answer index cursor = .ok (reply, index')) :
    index'.NamespacesWF ∧ index.Grows index' := by
  unfold Request.answer at hanswer
  cases hmethod : request.method with
  | references =>
    rw [hmethod] at hanswer
    exact TclAnalyzer.answer_grows h hanswer
  | definition =>
    rw [hmethod] at hanswer
    exact TclAnalyzer.answer_grows h hanswer

/-- What a step does to the index: a request can add namespaces, and a `Reparse` writes the one that
`Build` makes of the tree it writes. -/
theorem step_index (hwf : s.index.WF) (h : ServerStep interp s event s') :
    (∀ uri, event ≠ .installed uri) ∧ s'.index.WF ∧ s.index.Grows s'.index ∧
      ((∀ request tree reply, event ≠ .reply request tree reply) → s'.index = s.index) ∨
    ∃ uri item old tree result, event = .installed uri ∧ buildNew tree.script = .ok result ∧
      s.parsed uri = some (item, old) ∧
      s'.parsed = Function.update s.parsed uri (some (item, tree)) ∧ s'.index = result.index := by
  cases h with
  | receive message =>
    left
    rw [receive_index]
    exact ⟨by simp, hwf, .refl _, fun _ => rfl⟩
  | installed uri file parsed document _ _ hreparse hdoc =>
    right
    obtain ⟨result, hbuild, hindex⟩ := reparse_build hreparse
    exact ⟨uri, document.item, document.tree, parsed.tree, result, rfl, hbuild,
      parsed_eq_some.mpr ⟨document, hdoc, rfl, rfl⟩, parsed_installed s uri document parsed, hindex⟩
  | reply before after lookup remains reply index _ _ hanswer =>
    left
    obtain ⟨-, found, hfound, -⟩ := lookupAnswer_eq_ok.mp hanswer
    obtain ⟨hnamespaces, hg⟩ := Request.answer_grows hwf hfound
    exact ⟨by simp, hg.wf hwf hnamespaces, hg,
      fun hno => absurd rfl (hno lookup.request lookup.tree reply)⟩
  | blocked | start | read | failed | cursor | noCursor | noReply | written =>
    exact Or.inl ⟨by simp, hwf, .refl _, fun _ => rfl⟩

/-! ## The script that was written last -/

theorem installedUris_concat (events : List ServerEvent) (event : ServerEvent) :
    installedUris (events ++ [event]) = installedUris events ++ installedUris [event] := by
  simp [installedUris]

theorem installedUris_other (h : ∀ uri, event ≠ .installed uri) : installedUris [event] = [] := by
  cases event with
  | installed uri => exact absurd rfl (h uri)
  | receive | start | read | failed | cursor | reply | dropped | written | blocked => rfl

/-- The index is that of the tree of the document whose `Reparse` wrote last, up to namespaces that
requests have added. -/
structure Server.LastIndexed (events : List ServerEvent) (s : Server) : Prop where
  wf : s.index.WF
  last : ∀ uri, (installedUris events).getLast? = some uri → ∃ item tree result,
    s.parsed uri = some (item, tree) ∧ buildNew tree.script = .ok result ∧
      result.index.Grows s.index ∧
      ((∀ request tree reply, .reply request tree reply ∉ events) → s.index = result.index)

theorem lastIndexed_initial : Server.initial.LastIndexed [] where
  wf := makeIndex_wf
  last _ h := nomatch h

/-- The entry of a document stays with its tree as long as no `Reparse` writes. -/
theorem parsed_of_step (hstep : ServerStep interp s event s') (hevent : ∀ uri, event ≠ .installed uri)
    {item : TextDocumentItem} {tree : Tree} (hitem : s.parsed uri = some (item, tree)) :
    ∃ item', s'.parsed uri = some (item', tree) := by
  rcases step_parsed hstep with ⟨-, ⟨hparsed, -⟩ | ⟨uri', text, item', tree', hparsed, -, -, hentry⟩⟩ |
    ⟨uri', -, -, -, hinstalled, -⟩
  · rw [hparsed]
    exact ⟨item, hitem⟩
  · rw [hparsed]
    by_cases heq : uri = uri'
    · subst heq
      rcases hentry with ⟨hnone, -⟩ | ⟨old, hold, -⟩
      · cases hitem.symm.trans hnone
      · cases hitem.symm.trans hold
        exact ⟨item', Function.update_self ..⟩
    · rw [Function.update_of_ne heq]
      exact ⟨item, hitem⟩
  · exact absurd hinstalled (hevent uri')

theorem Server.LastIndexed.step (h : s.LastIndexed events) (hstep : ServerStep interp s event s') :
    s'.LastIndexed (events ++ [event]) := by
  rcases step_index h.wf hstep with ⟨hevent, hwf, hg, hsame⟩ |
    ⟨uri, item, old, tree, result, rfl, hbuild, -, hparsed, hindex⟩
  · refine ⟨hwf, fun uri hlast => ?_⟩
    rw [installedUris_concat, installedUris_other hevent, List.append_nil] at hlast
    obtain ⟨item, tree, result, hitem, hbuild, hgrows, hno⟩ := h.last uri hlast
    obtain ⟨item', hitem'⟩ := parsed_of_step hstep hevent hitem
    refine ⟨item', tree, result, hitem', hbuild, hgrows.trans hg, fun hnoreply => ?_⟩
    have hbefore : ∀ request tree reply, .reply request tree reply ∉ events :=
      fun request tree reply hmem => hnoreply request tree reply (List.mem_append_left _ hmem)
    have hlast : ∀ request tree reply, event ≠ .reply request tree reply := by
      rintro request tree reply rfl
      exact hnoreply request tree reply (List.mem_append_right _ (List.mem_singleton_self _))
    rw [hsame hlast, hno hbefore]
  · refine ⟨hindex ▸ (buildNew_ok hbuild).wf, fun uri' hlast => ?_⟩
    have huri : uri = uri' := by
      rw [installedUris_concat, show installedUris [.installed uri] = [uri] from rfl,
        List.getLast?_concat] at hlast
      exact Option.some.inj hlast
    subst huri
    refine ⟨item, tree, result, ?_, hbuild, hindex ▸ .refl _, fun _ => hindex⟩
    rw [hparsed]
    exact Function.update_self ..

theorem run_lastIndexed (h : Run (ServerStep interp) .initial events s) : s.LastIndexed events :=
  h.history lastIndexed_initial fun _ _ _ _ _ hlast hstep => hlast.step hstep

/-- Added namespaces change no record. -/
theorem Index.Grows.records (hg : index.Grows index') (h : index.WF) (h' : index'.WF) {path : Path}
    {name : Str} {location : SourceLocation} {type : ReferenceType} :
    index'.Records path name location type ↔ index.Records path name location type := by
  unfold Index.Records
  rw [hg.procsIn h h'.namespaces, hg.procs]

theorem mem_nearest {path : Path} {cmdName : Str} {p : Proc} (h : p ∈ index.nearest path cmdName) :
    ∃ target, p ∈ index.procsIn target (splitName cmdName).name := by
  unfold Index.nearest at h
  split at h
  · obtain ⟨procs, hprocs, hmem⟩ := firstNonempty_mem h
    obtain ⟨target, -, rfl⟩ := List.mem_map.mp hprocs
    exact ⟨target, hmem⟩
  · cases h

/-- `Build` covers its script, but for the usages in parts that `IndexScript` does not reach. -/
theorem Built.covers {script : Script} {result : BuildResult} (h : Built script result) :
    result.index.Covers script fun site => site.scope.2 = true where
  definition site hsite := by
    obtain ⟨regs, hregs, htable, hrefs⟩ := h.procs
    obtain ⟨reg, hreg, hr⟩ := mem_of_forall₂_right hregs hsite
    obtain ⟨word, hword, hlocation⟩ := Option.map_eq_some_iff.mp hr.location
    have hname : reg.1.name = (splitName word.text.bytes).name := by rw [hr.name, wordText_eq hword]
    have hproc : reg.1 ∈ result.index.procs.table := htable ▸ List.mem_map_of_mem hreg
    refine ⟨word, hword, reg.1, List.mem_filter.mpr ⟨hproc, ?_⟩, ?_⟩
    · exact decide_eq_true ⟨hname, hr.parent⟩
    · rw [hrefs, hlocation]
      exact List.mem_append_left _ (List.mem_map_of_mem hreg)
  usage site hsite huses hreached := by
    obtain ⟨r, hr, hrecorded⟩ := h.recordedAs hsite huses hreached
    obtain ⟨word, hword, hlocation⟩ := Option.map_eq_some_iff.mp hrecorded.location
    obtain ⟨p, hfound, hid⟩ := hrecorded.proc
    obtain ⟨ns, hns⟩ := h.allSites_atPath hsite
    rw [found_eq_nearest h.wf hns huses.2.1, wordText_eq hword] at hfound
    obtain ⟨target, hmem⟩ := mem_nearest hfound
    have husage : r ∈ result.index.usages := by
      rw [h.usages_eq]
      exact List.mem_filterMap.mpr ⟨site, hsite, hr⟩
    obtain ⟨hreference, htype⟩ := List.mem_filter.mp husage
    have heq : r = { location := word.location, id := p.id, type := .USAGE } := by
      rw [hlocation, hid, ← of_decide_eq_true htype]
    exact ⟨word, target, hword, p, hmem, heq ▸ hreference⟩

theorem Index.Covers.mono {script : Script} {counts : Site (Path × Bool) → Prop}
    (h : index.Covers script counts)
    (hrecords : ∀ path name location type, index.Records path name location type →
      index'.Records path name location type) : index'.Covers script counts where
  definition site hsite := by
    obtain ⟨word, hword, hrecord⟩ := h.definition site hsite
    exact ⟨word, hword, hrecords _ _ _ _ hrecord⟩
  usage site hsite huses hcounts := by
    obtain ⟨word, path, hword, hrecord⟩ := h.usage site hsite huses hcounts
    exact ⟨word, path, hword, hrecords _ _ _ _ hrecord⟩

/-- In every state the index covers the script of the document whose `Reparse` wrote last, and has
no records but those that `Build` makes for that script. -/
theorem index_covers_last (h : Run (ServerStep interp) .initial events s)
    (hlast : (installedUris events).getLast? = some uri) :
    ∃ document result, s.documents uri = some document ∧ buildNew document.script = .ok result ∧
      s.index.Covers document.script (fun site => site.scope.2 = true) ∧
      ∀ path name location type, s.index.Records path name location type ↔
        result.index.Records path name location type := by
  have hindexed := run_lastIndexed h
  obtain ⟨item, tree, result, hitem, hbuild, hgrows, -⟩ := hindexed.last uri hlast
  obtain ⟨document, hdoc, -, rfl⟩ := parsed_eq_some.mp hitem
  have hbuilt := buildNew_ok hbuild
  have hrecords : ∀ path name location type, s.index.Records path name location type ↔
      result.index.Records path name location type :=
    fun _ _ _ _ => hgrows.records hbuilt.wf hindexed.wf
  exact ⟨document, result, hdoc, hbuild,
    hbuilt.covers.mono fun _ _ _ _ hrecord => (hrecords _ _ _ _).mpr hrecord, hrecords⟩

/-! ### Two documents -/

/-- The Tcl library on the script `proc f {} {}`. -/
def defineFInterp : TclInterp where
  parseCommand view :=
    if view.bytes = bytes "proc f {} {}" then
      some { commandStart := view.data, commandSize := 12, commentSize := 0, numWords := 4,
             tokens := [⟨.SIMPLE_WORD, view.data, 4, 1⟩, ⟨.TEXT, view.data, 4, 0⟩,
               ⟨.SIMPLE_WORD, view.data + 5, 1, 1⟩, ⟨.TEXT, view.data + 5, 1, 0⟩,
               ⟨.SIMPLE_WORD, view.data + 7, 2, 1⟩, ⟨.TEXT, view.data + 8, 0, 0⟩,
               ⟨.SIMPLE_WORD, view.data + 10, 2, 1⟩, ⟨.TEXT, view.data + 11, 0, 0⟩] }
    else none
  findElement view :=
    some { element := view.data + view.bytes.length, next := view.data + view.bytes.length, size := 0 }

/-- The document `u` with the proc `f`. -/
def defining : TextDocumentItem :=
  { uri := bytes "u", languageId := bytes "tcl", version := 1, text := bytes "proc f {} {}" }

/-- The document `v` without a command. -/
def blank : TextDocumentItem :=
  { uri := bytes "v", languageId := bytes "tcl", version := 1, text := [] }

/-- Both documents are opened and parsed, `v` last. -/
def definingThenBlank : List ServerEvent :=
  [.receive (.didOpen defining), .receive (.didOpen blank), .start (bytes "u"), .read (bytes "u"),
    .installed (bytes "u"), .start (bytes "v"), .read (bytes "v"), .installed (bytes "v")]

theorem definingThenBlank_run : ∃ s document, Run (RaceFree defineFInterp) .initial
    definingThenBlank s ∧ s.Quiescent ∧ s.documents (bytes "u") = some document ∧
    document.tree.file = makeSourceFile (bytes "u") (bytes "proc f {} {}") ∧
    ¬document.script.Wordless ∧ procSites document.script.scanSites ≠ [] ∧
    s.index.procs.table = [] := by
  have hreturns : returns (do
      let parsed ← reparse defineFInterp (makeSourceFile (bytes "u") (bytes "proc f {} {}"))
      let last ← reparse defineFInterp (makeSourceFile (bytes "v") [])
      return (parsed, last)) (fun (parsed, last) =>
        ¬parsed.script.Wordless ∧ (procSites parsed.script.scanSites).length = 1 ∧
          last.index.procs.table = []) = true := by
    decide +kernel
  obtain ⟨⟨parsed, last⟩, hrun, htest⟩ := exists_of_returns hreturns
  obtain ⟨hwords, hsites, htable⟩ := of_decide_eq_true htest
  obtain ⟨parsed', hparsed, hrun⟩ := bind_eq_ok.mp hrun
  obtain ⟨last', hlast, hrun⟩ := bind_eq_ok.mp hrun
  cases hrun
  have hne : bytes "u" ≠ bytes "v" := by decide +kernel
  set s1 := Server.initial.receive (.didOpen defining)
  set s2 := s1.receive (.didOpen blank)
  have h1 : s1.documents = Function.update (fun _ => none) (bytes "u") (some (newDocument defining)) :=
    rfl
  have hnone : s1.documents blank.uri = none := by
    rw [h1]
    exact Function.update_of_ne hne.symm _ _
  have hopen := onDidOpen_new hnone
  have h2 : s2.documents = Function.update s1.documents (bytes "v") (some (newDocument blank)) :=
    congrArg Server.documents hopen
  have hu : s2.documents (bytes "u") = some (newDocument defining) := by
    rw [h2, h1, Function.update_of_ne hne, Function.update_self]
  set s3 := s2.install (bytes "u") [bytes "v"] (newDocument defining) parsed with hs3
  have hv : s3.documents (bytes "v") = some (newDocument blank) := by
    rw [hs3, install_documents_other hne.symm, h2, Function.update_self]
  have hinstall : Run (RaceFree defineFInterp) s2
      [.start (bytes "u"), .read (bytes "u"), .installed (bytes "u")] s3 :=
    install_run (congrArg Server.reparsing hopen) (congrArg Server.indexQueue hopen)
      (congrArg Server.replying hopen) hu hparsed
  have hinstall' : Run (RaceFree defineFInterp) s3
      [.start (bytes "v"), .read (bytes "v"), .installed (bytes "v")]
      (s3.install (bytes "v") [] (newDocument blank) last) :=
    install_run rfl rfl (congrArg Server.replying hopen) hv hlast
  have hfirst : RaceFree defineFInterp .initial (.receive (.didOpen defining)) s1 :=
    raceFree (.receive _ _ rfl (by simp [Message.locks])) (by simp)
  have hsecond : RaceFree defineFInterp s1 (.receive (.didOpen blank)) s2 :=
    raceFree (.receive _ _ rfl (by simp [Message.locks])) (by simp)
  refine ⟨_, _, .cons hfirst (.cons hsecond (hinstall.append hinstall')), ⟨rfl, rfl⟩,
    (install_documents_other hne s3 [] _ last).trans (install_documents s2 _ _ _ parsed),
    (reparse_ok hparsed).1, hwords, ?_, htable⟩
  intro hnil
  have hzero := congrArg List.length hnil
  exact absurd (hzero.symm.trans hsites) (by decide)

/-- The index of the document that is parsed last has nothing of the other one. -/
theorem definingThenBlank_not_covers : ∃ s document, Run (ServerStep defineFInterp) .initial
    definingThenBlank s ∧ s.Quiescent ∧ s.documents (bytes "u") = some document ∧
    ¬s.index.Covers document.script fun _ => True := by
  obtain ⟨s, document, hrun, hquiescent, hdoc, -, -, hsites, htable⟩ := definingThenBlank_run
  refine ⟨s, document, run_raceFree hrun, hquiescent, hdoc, fun hcovers => ?_⟩
  obtain ⟨site, hsite⟩ := List.exists_mem_of_ne_nil _ hsites
  obtain ⟨word, -, p, hp, -⟩ := hcovers.definition site hsite
  have hmem := List.mem_of_mem_filter hp
  rw [htable] at hmem
  cases hmem

theorem definingThenBlank_covers_last : ∃ s document result,
    Run (ServerStep defineFInterp) .initial definingThenBlank s ∧
    s.documents (bytes "v") = some document ∧ buildNew document.script = .ok result ∧
      s.index.Covers document.script (fun site => site.scope.2 = true) ∧
      ∀ path name location type, s.index.Records path name location type ↔
        result.index.Records path name location type := by
  obtain ⟨s, -, hrun, -⟩ := definingThenBlank_run
  obtain ⟨document, result, hcovers⟩ := index_covers_last (run_raceFree hrun) rfl
  exact ⟨s, document, result, run_raceFree hrun, hcovers⟩

/-! ## The newest text -/

theorem offers_append (uri : Str) (events events' : List ServerEvent) :
    offers uri (events ++ events') = offers uri events ++ offers uri events' := by
  simp [offers, receivedMessages]

theorem offers_other (uri : Str) (h : ∀ message, event ≠ .receive message) : offers uri [event] = [] := by
  cases event with
  | receive message => exact absurd rfl (h message)
  | start | read | installed | failed | cursor | reply | dropped | written | blocked => rfl

theorem offers_receive (uri : Str) (message : Message) :
    offers uri [.receive message] = (message.offer uri).toList := by
  cases hoffer : message.offer uri <;> simp [offers, receivedMessages, hoffer]

theorem offers_didOpen (item : TextDocumentItem) :
    offers item.uri [.receive (.didOpen item)] = [(item.version, item.text)] := by
  rw [offers_receive, Message.offer, if_pos rfl]
  rfl

theorem offers_didOpen_other {item : TextDocumentItem} (huri : item.uri ≠ uri) :
    offers uri [.receive (.didOpen item)] = [] := by
  rw [offers_receive, Message.offer, if_neg huri]
  rfl

theorem offers_didChange (uri : Str) (version : Int) (range : Option Range) (text : Str) :
    offers uri [.receive (.didChange uri version [{ range, text }])] = [(version, text)] := by
  rw [offers_receive, Message.offer, if_pos rfl]
  rfl

/-- A change offers nothing to another document, and nothing at all unless it is a single one. -/
theorem offers_didChange_nil {uri' : Str} {version : Int}
    {changes : List TextDocumentContentChangeEvent}
    (h : uri' ≠ uri ∨ ¬ ∃ change, changes = [change]) :
    offers uri [.receive (.didChange uri' version changes)] = [] := by
  rw [offers_receive]
  unfold Message.offer
  split
  · next heq => cases heq
  · next heq =>
    cases heq
    rcases h with hne | hone
    · rw [if_neg hne]
      rfl
    · exact absurd ⟨_, rfl⟩ hone
  · rfl

theorem Edits.of_append (h : Edits (events ++ events')) : Edits events where
  edit e he := h.edit e (List.mem_append_left _ he)
  once := by
    have honce := h.once
    rw [openedUris_append] at honce
    exact (List.nodup_append.mp honce).1
  opened before uri version changes after heq :=
    h.opened before uri version changes (after ++ events') (by simp [heq])

/-- Nothing is offered for a document that is not opened. -/
theorem Edits.offers_eq_nil (h : Edits events) (huri : uri ∉ openedUris events) :
    offers uri events = [] := by
  induction events using List.reverseRecOn with
  | nil => rfl
  | append_singleton events event ih =>
    rw [openedUris_append, List.mem_append, not_or] at huri
    rw [offers_append, ih h.of_append huri.1, List.nil_append]
    rcases h.edit event (by simp) with ⟨item, rfl⟩ | ⟨uri', version, changes, rfl⟩ | ⟨_, rfl⟩ |
      ⟨_, rfl⟩ | ⟨_, rfl⟩
    · have hne : item.uri ≠ uri := by
        rintro rfl
        exact huri.2 (List.mem_singleton_self _)
      exact offers_didOpen_other hne
    · have hne : uri' ≠ uri := by
        rintro rfl
        exact huri.1 (h.opened events uri' version changes [] rfl)
      exact offers_didChange_nil (.inl hne)
    all_goals rfl

/-- The documents are those that were opened, each as it was opened but for version and text, which
are the first ones with the highest version offered. -/
structure Server.Newest (events : List ServerEvent) (s : Server) : Prop where
  there : ∀ uri, s.entry uri ≠ none ↔ uri ∈ openedUris events
  item : ∀ uri item state, s.entry uri = some (item, state) → ∃ opened newest,
    .receive (.didOpen opened) ∈ events ∧ opened.uri = uri ∧
    FirstMax Prod.fst (offers uri events) newest ∧
    item = { opened with version := newest.1, text := newest.2 }

theorem newest_initial : Server.initial.Newest [] where
  there uri := by simp [Server.entry, Server.initial, openedUris]
  item _ _ _ h := nomatch h

/-- An event that offers a document nothing leaves what is said about its item. -/
theorem Server.Newest.item_concat (h : s.Newest events) (hoffers : offers uri [event] = [])
    {item : TextDocumentItem} {state : DocumentState} (hentry : s.entry uri = some (item, state)) :
    ∃ opened newest, .receive (.didOpen opened) ∈ events ++ [event] ∧ opened.uri = uri ∧
      FirstMax Prod.fst (offers uri (events ++ [event])) newest ∧
      item = { opened with version := newest.1, text := newest.2 } := by
  obtain ⟨opened, newest, hopened, huri, hmax, hitem⟩ := h.item uri item state hentry
  rw [offers_append, hoffers, List.append_nil]
  exact ⟨opened, newest, List.mem_append_left _ hopened, huri, hmax, hitem⟩

theorem Server.Newest.didOpen (h : s.Newest events) {item : TextDocumentItem}
    (hedits : Edits (events ++ [.receive (.didOpen item)])) :
    (s.receive (.didOpen item)).Newest (events ++ [.receive (.didOpen item)]) := by
  have honce := hedits.once
  rw [openedUris_append, openedUris_didOpen] at honce
  have hnew : item.uri ∉ openedUris events := fun hmem =>
    (List.nodup_append.mp honce).2.2 item.uri hmem item.uri (List.mem_singleton_self _) rfl
  have hnone : s.entry item.uri = none := by
    by_contra hentry
    exact hnew ((h.there item.uri).mp hentry)
  have hentries := entry_didOpen_new hnone
  constructor
  · intro uri
    rw [openedUris_append, openedUris_didOpen, List.mem_append, List.mem_singleton, ← h.there, hentries]
    by_cases huri : uri = item.uri
    · simp [huri]
    · simp [huri]
  · intro uri item' state hentry
    rw [hentries] at hentry
    by_cases huri : uri = item.uri
    · subst huri
      rw [Function.update_self] at hentry
      cases hentry
      have hoffers : offers item.uri (events ++ [.receive (.didOpen item)]) =
          [(item.version, item.text)] := by
        rw [offers_append, hedits.of_append.offers_eq_nil hnew, offers_didOpen]
        rfl
      rw [hoffers]
      exact ⟨item, (item.version, item.text), by simp, rfl, .singleton _ _, rfl⟩
    · rw [Function.update_of_ne huri] at hentry
      exact h.item_concat (offers_didOpen_other (Ne.symm huri)) hentry

section DidChange

variable {item : TextDocumentItem} {state : DocumentState} {version : Int} {range : Option Range}
  {changes : List TextDocumentContentChangeEvent}

theorem openedUris_didChange (events : List ServerEvent) :
    openedUris (events ++ [.receive (.didChange uri version changes)]) = openedUris events := by
  rw [openedUris_append, openedUris_other (by simp), List.append_nil]

/-- A change that leaves the document as it is. -/
theorem Server.Newest.didChange_kept (h : s.Newest events)
    (hkept : s.receive (.didChange uri version changes) = s)
    (hitem : ∀ item state, s.entry uri = some (item, state) → (∃ change, changes = [change]) →
      version ≤ item.version) :
    (s.receive (.didChange uri version changes)).Newest
      (events ++ [.receive (.didChange uri version changes)]) := by
  rw [hkept]
  refine ⟨fun uri' => by rw [openedUris_didChange, h.there], fun uri' item state hentry => ?_⟩
  by_cases hoffer : uri = uri' ∧ ∃ change, changes = [change]
  · obtain ⟨rfl, ⟨range, text⟩, rfl⟩ := hoffer
    obtain ⟨opened, newest, hopened, huri, hmax, rfl⟩ := h.item uri item state hentry
    have hle : version ≤ newest.1 := hitem _ state hentry ⟨_, rfl⟩
    refine ⟨opened, newest, List.mem_append_left _ hopened, huri, ?_, rfl⟩
    rw [offers_append, offers_didChange]
    exact hmax.concat_of_le hle
  · exact h.item_concat (offers_didChange_nil (not_and_or.mp hoffer)) hentry

/-- A change to a higher version. -/
theorem Server.Newest.didChange_newer (h : s.Newest events) (hentry : s.entry uri = some (item, state))
    (hversion : item.version < version) :
    (s.receive (.didChange uri version [{ range, text }])).Newest
      (events ++ [.receive (.didChange uri version [{ range, text }])]) := by
  have hentries : (s.receive (.didChange uri version [{ range, text }])).entry =
      Function.update s.entry uri (some ({ item with text, version }, state)) :=
    entry_didChange hentry hversion
  constructor
  · intro uri'
    rw [openedUris_didChange, ← h.there, hentries]
    by_cases heq : uri' = uri
    · simp [heq, hentry]
    · simp [heq]
  · intro uri' item' state' hentry'
    rw [hentries] at hentry'
    by_cases heq : uri' = uri
    · subst heq
      rw [Function.update_self] at hentry'
      cases hentry'
      obtain ⟨opened, newest, hopened, huri, hmax, rfl⟩ := h.item uri' item state hentry
      refine ⟨opened, (version, text), List.mem_append_left _ hopened, huri, ?_, rfl⟩
      rw [offers_append, offers_didChange]
      exact hmax.concat_of_lt hversion
    · rw [Function.update_of_ne heq] at hentry'
      exact h.item_concat (offers_didChange_nil (.inl (Ne.symm heq))) hentry'

theorem Server.Newest.didChange (h : s.Newest events)
    (hedits : Edits (events ++ [.receive (.didChange uri version changes)])) :
    (s.receive (.didChange uri version changes)).Newest
      (events ++ [.receive (.didChange uri version changes)]) := by
  have hopened : uri ∈ openedUris events := hedits.opened events uri version changes [] rfl
  obtain ⟨⟨item, state⟩, hentry⟩ := Option.ne_none_iff_exists'.mp ((h.there uri).mpr hopened)
  by_cases hone : ∃ change, changes = [change]
  · obtain ⟨⟨range, text⟩, rfl⟩ := hone
    by_cases hversion : item.version < version
    · exact h.didChange_newer hentry hversion
    · refine h.didChange_kept (receive_didChange_stale hentry hversion) fun item' state' hentry' _ => ?_
      cases hentry.symm.trans hentry'
      exact not_lt.mp hversion
  · exact h.didChange_kept (receive_didChange_ignored hone) fun _ _ _ hcontra => absurd hcontra hone

end DidChange

theorem Server.Newest.step (h : s.Newest events) (hedits : Edits (events ++ [event]))
    (hstep : ServerStep interp s event s') : s'.Newest (events ++ [event]) := by
  rcases hedits.edit event (by simp) with ⟨item, rfl⟩ | ⟨uri, version, changes, rfl⟩ | hrest
  · cases hstep
    exact h.didOpen hedits
  · cases hstep
    exact h.didChange hedits
  · have hother : ∀ message, event ≠ .receive message := by
      rintro message rfl
      simp at hrest
    have hentries := entry_other hstep hother
    constructor
    · intro uri
      rw [openedUris_append, openedUris_other fun item => hother _, List.append_nil, hentries, h.there]
    · intro uri item state hentry
      rw [hentries] at hentry
      exact h.item_concat (offers_other uri hother) hentry

theorem run_newest (h : Run (ServerStep interp) .initial events s) (hedits : Edits events) :
    s.Newest events := by
  have hrule : Edits events → s.Newest events := by
    refine h.history (J := fun events s => Edits events → s.Newest events)
      (fun _ => newest_initial) ?_
    intro events t event u _ ih hstep hedits
    exact (ih hedits.of_append).step hedits hstep
  exact hrule hedits

/-! ## Waiting and running -/

/-- A message takes no `Reparse` off the queue, and puts one there for a text that it brings. -/
theorem receive_queue (s : Server) (message : Message) :
    (∀ uri ∈ s.indexQueue, uri ∈ (s.receive message).indexQueue) ∧
    ∀ uri text, (s.receive message).accepted = s.accepted ++ [(uri, text)] →
      uri ∈ (s.receive message).indexQueue := by
  have hno : ∀ uri text, s.accepted = s.accepted ++ [(uri, text)] → False := by
    intro uri text heq
    have hlength := congrArg List.length heq
    rw [List.length_append, List.length_singleton] at hlength
    omega
  cases message with
  | didOpen item =>
    cases hdoc : s.documents item.uri with
    | none =>
      have hopen : s.receive (.didOpen item) = _ := onDidOpen_new hdoc
      rw [hopen]
      refine ⟨fun uri hmem => List.mem_append_left _ hmem, fun uri text heq => ?_⟩
      cases List.singleton_inj.mp (List.append_cancel_left heq)
      exact List.mem_append_right _ (List.mem_singleton_self _)
    | some document =>
      have hopen : s.receive (.didOpen item) =
          { s with indexQueue := s.indexQueue ++ [item.uri] } := by
        simp only [Server.receive, onDidOpen, hdoc]
      rw [hopen]
      exact ⟨fun uri hmem => List.mem_append_left _ hmem, fun uri text heq => (hno uri text heq).elim⟩
  | didChange uri version changes =>
    rcases receive_didChange s uri version changes with hsame | hchange
    · rw [hsame]
      exact ⟨fun _ => id, fun uri text heq => (hno uri text heq).elim⟩
    · generalize s.receive (.didChange uri version changes) = s' at hchange ⊢
      unfold onDidChange at hchange
      split at hchange
      · cases hchange
      · split at hchange
        · split at hchange
          · cases hchange
            refine ⟨fun uri hmem => List.mem_append_left _ hmem, fun uri text heq => ?_⟩
            cases List.singleton_inj.mp (List.append_cancel_left heq)
            exact List.mem_append_right _ (List.mem_singleton_self _)
          · cases hchange
            exact ⟨fun _ => id, fun uri text heq => (hno uri text heq).elim⟩
        · cases hchange
          exact ⟨fun _ => id, fun uri text heq => (hno uri text heq).elim⟩
  | didClose uri =>
    rcases receive_didClose s uri with hended | hclose
    · rw [hended]
      exact ⟨fun _ => id, fun uri text heq => (hno uri text heq).elim⟩
    · generalize s.receive (.didClose uri) = s' at hclose ⊢
      unfold onDidClose at hclose
      split at hclose
      · cases hclose
      · cases hclose
        exact ⟨fun _ => id, fun uri text heq => (hno uri text heq).elim⟩
  | request request => exact ⟨fun _ => id, fun uri text heq => (hno uri text heq).elim⟩
  | exit => exact ⟨fun _ => id, fun uri text heq => (hno uri text heq).elim⟩

/-- A document that has no `Reparse` waiting has one running on its text, or has the tree of its
text. -/
structure Server.Settling (interp : TclInterp) (s : Server) : Prop where
  running : ∀ uri item tree file, s.parsed uri = some (item, tree) →
    s.reparsing = some (.parsing uri file) → uri ∈ s.indexQueue ∨ file = makeSourceFile uri item.text
  idle : ∀ uri item tree, s.parsed uri = some (item, tree) → uri ∈ s.indexQueue ∨
    (∃ torn, s.reparsing = some (.reading uri torn)) ∨
    (∃ file, s.reparsing = some (.parsing uri file)) ∨
    tree.file = makeSourceFile uri item.text ∧ tree.Parses interp

theorem settling_initial : Server.initial.Settling interp where
  running _ _ _ _ h := nomatch h
  idle _ _ _ h := nomatch h

theorem Server.Settling.receive (h : s.Settling interp) (hrace : ¬s.Races (.receive message)) :
    (s.receive message).Settling interp := by
  obtain ⟨hqueue, hnew⟩ := receive_queue s message
  have hreparsing := receive_reparsing_of_raceFree hrace
  -- a document without a new text is as before, one with a new text waits
  have hentry : ∀ uri item tree, (s.receive message).parsed uri = some (item, tree) →
      uri ∈ (s.receive message).indexQueue ∨ s.parsed uri = some (item, tree) := by
    intro uri item tree hitem
    rcases receive_cases s message with ⟨hparsed, -⟩ | ⟨uri', text, item', tree', hparsed, haccepted, -⟩
    · exact Or.inr (hparsed ▸ hitem)
    · by_cases heq : uri = uri'
      · exact Or.inl (heq ▸ hnew uri' text haccepted)
      · rw [hparsed, Function.update_of_ne heq] at hitem
        exact Or.inr hitem
  constructor
  · intro uri item tree file hitem hfile
    rcases hentry uri item tree hitem with hwaits | hold
    · exact Or.inl hwaits
    · rw [hreparsing] at hfile
      exact (h.running uri item tree file hold hfile).imp_left (hqueue uri)
  · intro uri item tree hitem
    rw [hreparsing]
    rcases hentry uri item tree hitem with hwaits | hold
    · exact Or.inl hwaits
    · exact (h.idle uri item tree hold).imp_left (hqueue uri)

/-- A step that leaves documents, queue and the running `Reparse` alone. -/
theorem Server.Settling.of_same (h : s.Settling interp) (hparsed : s'.parsed = s.parsed)
    (hqueue : s'.indexQueue = s.indexQueue) (hreparsing : s'.reparsing = s.reparsing) :
    s'.Settling interp := by
  constructor
  · rw [hparsed, hqueue, hreparsing]
    exact h.running
  · rw [hparsed, hqueue, hreparsing]
    exact h.idle

theorem Server.Settling.step (h : s.Settling interp) (hdocumented : s.Documented) (huntorn : s.Untorn)
    (hfree : RaceFree interp s event s') (hfailed : ∀ uri, event ≠ .failed uri) :
    s'.Settling interp := by
  obtain ⟨hstep, hrace⟩ := hfree
  cases hstep with
  | receive message => exact h.receive hrace
  | start uri queue document hidle hqueue hdoc =>
    constructor
    · intro _ _ _ _ _ hfile
      cases hfile
    · intro uri' item tree hitem
      by_cases heq : uri' = uri
      · exact Or.inr (Or.inl ⟨false, by rw [heq]⟩)
      · rcases h.idle uri' item tree hitem with hwaits | ⟨_, hruns⟩ | ⟨_, hruns⟩ | hdone
        · rw [hqueue] at hwaits
          exact Or.inl (List.mem_of_ne_of_mem heq hwaits)
        · rw [hidle] at hruns
          cases hruns
        · rw [hidle] at hruns
          cases hruns
        · exact Or.inr (Or.inr (Or.inr hdone))
  | read uri torn document text hreading hdoc htext =>
    have hparsed := parsed_eq_some.mpr ⟨document, hdoc, rfl, rfl⟩
    constructor
    · intro uri' item tree file hitem hfile
      cases hfile
      cases hparsed.symm.trans hitem
      rw [(hdocumented.item uri document.item document.tree hparsed).1,
        htext (huntorn uri torn hreading)]
      exact Or.inr rfl
    · intro uri' item tree hitem
      rcases h.idle uri' item tree hitem with hwaits | ⟨_, hruns⟩ | ⟨_, hruns⟩ | hdone
      · exact Or.inl hwaits
      · cases hreading.symm.trans hruns
        exact Or.inr (Or.inr (Or.inl ⟨_, rfl⟩))
      · cases hreading.symm.trans hruns
      · exact Or.inr (Or.inr (Or.inr hdone))
  | installed uri file parsed document hreparsing _ hreparse hdoc =>
    have hnow := parsed_eq_some.mpr ⟨document, hdoc, rfl, rfl⟩
    have hparsed := parsed_installed s uri document parsed
    constructor
    · intro _ _ _ _ _ hfile
      cases hfile
    · intro uri' item tree hitem
      rw [hparsed] at hitem
      by_cases heq : uri' = uri
      · subst heq
        rw [Function.update_self] at hitem
        cases hitem
        rcases h.running uri' document.item document.tree file hnow hreparsing with hwaits | rfl
        · exact Or.inl hwaits
        · exact Or.inr (Or.inr (Or.inr (reparse_ok hreparse)))
      · rw [Function.update_of_ne heq] at hitem
        rcases h.idle uri' item tree hitem with hwaits | ⟨_, hruns⟩ | ⟨_, hruns⟩ | hdone
        · exact Or.inl hwaits
        · cases hreparsing.symm.trans hruns
        · cases hreparsing.symm.trans hruns
          exact absurd rfl heq
        · exact Or.inr (Or.inr (Or.inr hdone))
  | failed uri => exact absurd rfl (hfailed uri)
  | blocked | cursor | noCursor | reply | noReply | written => exact h.of_same rfl rfl rfl

theorem run_settling (h : Run (RaceFree interp) .initial events s)
    (hfailed : ∀ uri, .failed uri ∉ events) : s.Settling interp := by
  have hrule : (∀ uri, .failed uri ∉ events) → s.Settling interp := by
    refine h.history (J := fun events s => (∀ uri, .failed uri ∉ events) → s.Settling interp)
      (fun _ => settling_initial) ?_
    intro events t event u hrun ih hstep hfailed
    have hbefore := ih fun uri hmem => hfailed uri (List.mem_append_left _ hmem)
    refine hbefore.step (run_documented (run_raceFree hrun)) (run_untorn hrun) hstep ?_
    rintro uri rfl
    exact hfailed uri (List.mem_append_right _ (List.mem_singleton_self _))
  exact hrule hfailed

/-! ## At rest -/

theorem mem_receivedMessages {message : Message} :
    message ∈ receivedMessages events ↔ .receive message ∈ events := by
  unfold receivedMessages
  rw [List.mem_filterMap]
  constructor
  · rintro ⟨event, hevent, heq⟩
    split at heq
    · cases heq
      exact hevent
    · cases heq
  · intro hmem
    exact ⟨_, hmem, rfl⟩

theorem Edits.eq_of_uri (h : Edits events) {item item' : TextDocumentItem}
    (hitem : .receive (.didOpen item) ∈ events) (hitem' : .receive (.didOpen item') ∈ events)
    (huri : item.uri = item'.uri) : item = item' := by
  have hpairs := List.pairwise_iff_getElem.mp (List.pairwise_filterMap.mp h.once)
  obtain ⟨i, hi, hget⟩ := List.mem_iff_getElem.mp hitem
  obtain ⟨j, hj, hget'⟩ := List.mem_iff_getElem.mp hitem'
  rcases Nat.lt_trichotomy i j with hlt | rfl | hlt
  · exact absurd huri (hpairs i j hi hj hlt item.uri (by rw [hget]) item'.uri (by rw [hget']))
  · rw [hget] at hget'
    cases hget'
    rfl
  · exact absurd huri.symm (hpairs j i hj hi hlt item'.uri (by rw [hget']) item.uri (by rw [hget]))

/-- The first offer for a document is the one it is opened with. -/
theorem Edits.offers_eq_cons (h : Edits events) {item : TextDocumentItem}
    (hitem : .receive (.didOpen item) ∈ events) :
    ∃ changes, offers item.uri events = (item.version, item.text) :: changes := by
  obtain ⟨before, after, rfl⟩ := List.append_of_mem hitem
  have honce := h.once
  rw [openedUris_append] at honce
  have hnew : item.uri ∉ openedUris before := fun hmem =>
    (List.nodup_append.mp honce).2.2 item.uri hmem item.uri List.mem_cons_self rfl
  have hfirst := offers_didOpen item
  refine ⟨offers item.uri after, ?_⟩
  rw [offers_append, h.of_append.offers_eq_nil hnew, ← List.singleton_append, offers_append, hfirst]
  rfl

/-- The order of delivery does not matter when no change has the version of another one. -/
theorem item_eq_of_perm (h : s.Newest events) (h' : s'.Newest events') (hedits : Edits events)
    (hedits' : Edits events') (hperm : (receivedMessages events).Perm (receivedMessages events'))
    (hnodup : ((offers uri events).tail.map Prod.fst).Nodup) {item item' : TextDocumentItem}
    {state state' : DocumentState} (hentry : s.entry uri = some (item, state))
    (hentry' : s'.entry uri = some (item', state')) : item = item' := by
  obtain ⟨opened, newest, hopened, huri, hmax, rfl⟩ := h.item uri item state hentry
  obtain ⟨opened', newest', hopened', huri', hmax', rfl⟩ := h'.item uri item' state' hentry'
  have hsame : opened = opened' := by
    have hmem := hperm.subset (mem_receivedMessages.mpr hopened)
    exact hedits'.eq_of_uri (mem_receivedMessages.mp hmem) hopened' (huri.trans huri'.symm)
  subst hsame
  subst huri
  have hoffers := hperm.filterMap (Message.offer opened.uri)
  change (offers opened.uri events).Perm (offers opened.uri events') at hoffers
  obtain ⟨changes, hchanges⟩ := hedits.offers_eq_cons hopened
  obtain ⟨changes', hchanges'⟩ := hedits'.offers_eq_cons hopened'
  rw [hchanges] at hmax hnodup hoffers
  rw [hchanges'] at hmax' hoffers
  have hnewest : newest = newest' := hmax.eq_of_perm_cons hmax' hoffers.cons_inv hnodup
  rw [hnewest]

/-! ### The words that can be read -/

/-- The words can be read where the text has stayed where it was, or where there is nothing to read. -/
theorem legible_iff {tree : Tree} :
    tree.Legible ↔ inlineCapacity < tree.file.contents.length ∨ tree.script.Wordless := by
  constructor
  · intro hlegible
    by_cases hcontents : tree.HasContents
    · exact Or.inl hcontents
    · refine Or.inr fun word hword htype => ?_
      by_contra htext
      obtain ⟨b, rest, hbytes⟩ := List.exists_cons_of_ne_nil htext
      -- what is there now differs from the first byte
      have hread := hlegible word hword htype { contents := fun _ => b + 1, fileName := fun _ => [] }
      rw [Tree.read, if_neg hcontents] at hread
      have hfirst := congrArg (fun view => view.bytes.head?) hread
      simp [hbytes, List.range_succ_eq_map] at hfirst
  · rintro (hcontents | hwordless) word hword htype remains
    · exact if_pos hcontents
    · unfold Tree.read
      split
      · rfl
      · rw [hwordless word hword htype]
        cases word with
        | mk type location text data =>
          obtain ⟨start, _⟩ := text
          cases hwordless _ hword htype
          rfl

/-- In a run of openings, changes and `Reparse`s without exceptions each document has, in every state,
the first of the highest version offered, which does not depend on the order of delivery where the
changes have different versions; and at rest its tree is that of its text, and the index is that of
the tree written last. The words of the tree can be read if the text is long enough not to be moved,
and not otherwise. -/
theorem edits_settle (h : Run (RaceFree interp) .initial events s) (hedits : Edits events) :
    (∀ uri document, s.documents uri = some document →
      ∃ opened newest, .receive (.didOpen opened) ∈ events ∧ opened.uri = uri ∧
        FirstMax Prod.fst (offers uri events) newest ∧
        document.item = { opened with version := newest.1, text := newest.2 }) ∧
    (∀ events' s' uri document document', Run (RaceFree interp) .initial events' s' →
      Edits events' → (receivedMessages events).Perm (receivedMessages events') →
      ((offers uri events).tail.map Prod.fst).Nodup → s.documents uri = some document →
      s'.documents uri = some document' → document.item = document'.item) ∧
    (s.Quiescent →
      (∀ uri document, s.documents uri = some document →
        ParsedFrom interp uri document.item.text document.script ∧
        (document.tree.Legible ↔
          inlineCapacity < document.item.text.length ∨ document.script.Wordless)) ∧
      ∀ uri, (installedUris events).getLast? = some uri → ∃ document result,
        s.documents uri = some document ∧ buildNew document.script = .ok result ∧
        s.index = result.index) := by
  have hnewest := run_newest (run_raceFree h) hedits
  have hno : ∀ event ∈ events, (∀ uri, event ≠ .failed uri) ∧
      ∀ request tree reply, event ≠ .reply request tree reply := by
    intro event hevent
    rcases hedits.edit event hevent with ⟨_, rfl⟩ | ⟨_, _, _, rfl⟩ | ⟨_, rfl⟩ | ⟨_, rfl⟩ | ⟨_, rfl⟩
    all_goals simp
  have hentry : ∀ {s : Server} {uri : Str} {document : Document},
      s.documents uri = some document → s.entry uri = some (document.item, document.state) :=
    fun hdoc => entry_eq_some.mpr ⟨_, hdoc, rfl, rfl⟩
  refine ⟨fun uri document hdoc => hnewest.item uri _ _ (hentry hdoc), ?_, ?_⟩
  · intro events' s' uri document document' h' hedits' hperm hnodup hdoc hdoc'
    exact item_eq_of_perm hnewest (run_newest (run_raceFree h') hedits') hedits hedits' hperm hnodup
      (hentry hdoc) (hentry hdoc')
  · rintro ⟨hqueue, hidle⟩
    constructor
    · intro uri document hdoc
      have hsettling := run_settling h fun uri hmem => (hno _ hmem).1 uri rfl
      have hparsed := parsed_eq_some.mpr ⟨document, hdoc, rfl, rfl⟩
      rcases hsettling.idle uri document.item document.tree hparsed with hwaits | ⟨_, hruns⟩ |
        ⟨_, hruns⟩ | ⟨hfile, hparses⟩
      · rw [hqueue] at hwaits
        cases hwaits
      · rw [hidle] at hruns
        cases hruns
      · rw [hidle] at hruns
        cases hruns
      · have hlegible : document.tree.Legible ↔ _ := legible_iff
        rw [hfile] at hlegible
        unfold Tree.Parses at hparses
        rw [hfile] at hparses
        exact ⟨hparses, hlegible⟩
    · intro uri hlast
      obtain ⟨item, tree, result, hitem, hbuild, -, hindex⟩ :=
        (run_lastIndexed (run_raceFree h)).last uri hlast
      obtain ⟨document, hdoc, -, rfl⟩ := parsed_eq_some.mp hitem
      exact ⟨document, result, hdoc, hbuild,
        hindex fun request tree reply hmem => (hno _ hmem).2 request tree reply rfl⟩

theorem definingThenBlank_edits : Edits definingThenBlank where
  edit event hevent := by
    unfold definingThenBlank at hevent
    simp only [List.mem_cons, List.not_mem_nil, or_false] at hevent
    rcases hevent with rfl | rfl | rfl | rfl | rfl | rfl | rfl | rfl
    all_goals simp
  once := by
    show [bytes "u", bytes "v"].Nodup
    decide +kernel
  opened before uri version changes after heq := by
    have hmem : .receive (.didChange uri version changes) ∈ definingThenBlank := by
      rw [heq]
      exact List.mem_append_right _ List.mem_cons_self
    unfold definingThenBlank at hmem
    simp at hmem

/-- The words of `proc f {} {}` cannot be read any more. -/
theorem definingThenBlank_not_legible : ∃ s document,
    Run (RaceFree defineFInterp) .initial definingThenBlank s ∧ Edits definingThenBlank ∧
    s.Quiescent ∧ s.documents (bytes "u") = some document ∧ ¬document.tree.Legible := by
  obtain ⟨s, document, hrun, hquiescent, hdoc, hfile, hwords, -, -⟩ := definingThenBlank_run
  refine ⟨s, document, hrun, definingThenBlank_edits, hquiescent, hdoc, fun hlegible => ?_⟩
  rcases legible_iff.mp hlegible with hlong | hwordless
  · rw [hfile] at hlong
    exact absurd hlong (by decide +kernel)
  · exact hwords hwordless

/-- A document with one word of 16 letters is opened and parsed. -/
def reloading : List ServerEvent :=
  [.receive (.didOpen (openF 1 "reloadEverything")), .start (bytes "u"), .read (bytes "u"),
    .installed (bytes "u")]

theorem reloading_run : ∃ s document, Run (RaceFree oneWordInterp) .initial reloading s ∧
    s.Quiescent ∧ s.listening = true ∧ s.documents (bytes "u") = some document ∧
    document.item = openF 1 "reloadEverything" := by
  have hreturns : returns (reparse oneWordInterp
      (makeSourceFile (bytes "u") (bytes "reloadEverything"))) (fun _ => true) = true := by
    decide +kernel
  obtain ⟨parsed, hparsed, -⟩ := exists_of_returns hreturns
  set s := Server.initial.receive (.didOpen (openF 1 "reloadEverything"))
  have hopen : RaceFree oneWordInterp .initial
      (.receive (.didOpen (openF 1 "reloadEverything"))) s :=
    raceFree (.receive _ _ rfl (by simp [Message.locks])) (by simp)
  exact ⟨_, _, .cons hopen (install_run rfl rfl rfl (openF_documents 1 _) hparsed), ⟨rfl, rfl⟩,
    rfl, install_documents s _ _ _ parsed, rfl⟩

theorem reloading_edits : Edits reloading where
  edit event hevent := by
    unfold reloading at hevent
    simp only [List.mem_cons, List.not_mem_nil, or_false] at hevent
    rcases hevent with rfl | rfl | rfl | rfl
    all_goals simp
  once := List.nodup_singleton (bytes "u")
  opened before uri version changes after heq := by
    have hmem : .receive (.didChange uri version changes) ∈ reloading := by
      rw [heq]
      exact List.mem_append_right _ List.mem_cons_self
    unfold reloading at hmem
    simp at hmem

theorem reloading_settles :
    (∃ s document, Run (RaceFree oneWordInterp) .initial reloading s ∧
      s.documents (bytes "u") = some document ∧
      ParsedFrom oneWordInterp (bytes "u") document.item.text document.script ∧
      document.tree.Legible) ∧
    ∃ s document, Run (RaceFree defineFInterp) .initial definingThenBlank s ∧
      s.documents (bytes "u") = some document ∧
      ParsedFrom defineFInterp (bytes "u") document.item.text document.script ∧
      (document.tree.Legible ↔
        inlineCapacity < document.item.text.length ∨ document.script.Wordless) := by
  constructor
  · obtain ⟨s, document, hrun, hquiescent, -, hdoc, hitem⟩ := reloading_run
    obtain ⟨-, -, hrest⟩ := edits_settle hrun reloading_edits
    obtain ⟨hparsed, hlegible⟩ := (hrest hquiescent).1 _ _ hdoc
    refine ⟨s, document, hrun, hdoc, hparsed, hlegible.mpr (Or.inl ?_)⟩
    rw [hitem]
    decide +kernel
  · obtain ⟨s, document, hrun, hquiescent, hdoc, -⟩ := definingThenBlank_run
    obtain ⟨-, -, hrest⟩ := edits_settle hrun definingThenBlank_edits
    exact ⟨s, document, hrun, hdoc, (hrest hquiescent).1 _ _ hdoc⟩

end TclAnalyzer
