import TclAnalyzer.Lsp.Proofs.QuiescenceProofs

/-!
# A change and the `Reparse` after it

The handler of `didChange` moves text and version of the document. The tree and the index follow when
a `Reparse` ends, or stay when it ends with an exception.
-/

namespace TclAnalyzer

variable {interp : TclInterp} {event : ServerEvent} {before after mid events : List ServerEvent}
  {s s' t u v w x : Server} {uri : Str}

/-! ## The item -/

/-- The document has this item, or one with a higher version. -/
def Server.AtLeast (s : Server) (uri : Str) (item : TextDocumentItem) : Prop :=
  ∃ item' state, s.entry uri = some (item', state) ∧ (item' = item ∨ item.version < item'.version)

theorem Server.AtLeast.of_entry {item item' : TextDocumentItem} {state : DocumentState}
    (h : item' = item ∨ item.version < item'.version)
    (hentry : s.entry uri = some (item', state)) : s.AtLeast uri item := ⟨item', state, hentry, h⟩

/-- An accepted change is to a higher version, and nothing else changes an item. -/
theorem Server.AtLeast.step {item : TextDocumentItem} (h : s.AtLeast uri item)
    (hstep : ServerStep interp s event s') : s'.AtLeast uri item := by
  obtain ⟨item', state, hentry, hitem⟩ := h
  by_cases hmessage : ∃ message, event = .receive message
  · obtain ⟨message, rfl⟩ := hmessage
    cases hstep
    rcases receive_entry s message with hsame | ⟨opened, -, hnone, hentries⟩ |
      ⟨uri', version, change, old, state', -, hold, hversion, hentries⟩ |
      ⟨uri', old, state', -, hold, hentries⟩
    · rw [← hsame] at hentry
      exact .of_entry hitem hentry
    · have hne : uri ≠ opened.uri := by
        rintro rfl
        cases hnone.symm.trans hentry
      exact .of_entry hitem ((congrFun hentries uri).trans ((Function.update_of_ne hne _ _).trans hentry))
    · by_cases heq : uri = uri'
      · subst heq
        cases hold.symm.trans hentry
        have hentry' := (congrFun hentries uri).trans (Function.update_self ..)
        refine .of_entry (Or.inr ?_) hentry'
        show item.version < version
        rcases hitem with rfl | hlt
        · exact hversion
        · omega
      · exact .of_entry hitem ((congrFun hentries uri).trans ((Function.update_of_ne heq _ _).trans hentry))
    · by_cases heq : uri = uri'
      · subst heq
        cases hold.symm.trans hentry
        exact .of_entry hitem ((congrFun hentries uri).trans (Function.update_self ..))
      · exact .of_entry hitem ((congrFun hentries uri).trans ((Function.update_of_ne heq _ _).trans hentry))
  · rw [← entry_other hstep fun message heq => hmessage ⟨message, heq⟩] at hentry
    exact .of_entry hitem hentry

theorem run_atLeast {item : TextDocumentItem} (h : Run (ServerStep interp) s events s')
    (hitem : s.AtLeast uri item) : s'.AtLeast uri item :=
  h.invariant (I := fun t => t.AtLeast uri item) hitem fun _ _ _ hitem hstep => hitem.step hstep

/-! ## While a `Reparse` runs -/

theorem Server.Keeps.refl (s : Server) : s.Keeps s where
  tree _ document hdoc := ⟨document, hdoc, rfl⟩
  index _ _ _ _ := Iff.rfl

theorem Server.Keeps.trans (h : s.Keeps t) (h' : t.Keeps u) : s.Keeps u where
  tree uri document hdoc := by
    obtain ⟨document', hdoc', htree⟩ := h.tree uri document hdoc
    obtain ⟨document'', hdoc'', htree'⟩ := h'.tree uri document' hdoc'
    exact ⟨document'', hdoc'', htree'.trans htree⟩
  index path name location type :=
    (h'.index path name location type).trans (h.index path name location type)

/-- Only the end of a `Reparse` writes a tree or a record. -/
theorem step_keeps (hwf : s.index.WF) (hstep : ServerStep interp s event s')
    (hevent : ∀ uri, event ≠ .installed uri) : s.Keeps s' where
  tree uri document hdoc := by
    obtain ⟨item', hparsed⟩ :=
      parsed_of_step hstep hevent (parsed_eq_some.mpr ⟨document, hdoc, rfl, rfl⟩)
    obtain ⟨document', hdoc', -, htree⟩ := parsed_eq_some.mp hparsed
    exact ⟨document', hdoc', htree⟩
  index path name location type := by
    rcases step_index hwf hstep with ⟨-, hwf', hgrows, -⟩ | ⟨uri, _, _, _, _, hinstalled, -⟩
    · exact hgrows.records hwf hwf'
    · exact absurd hinstalled (hevent uri)

/-- The `Reparse` of a document works on this item: it still copies the text, which is there, or it
parses the file made from it. -/
def Server.ReparsingItem (s : Server) (uri : Str) (item : TextDocumentItem) : Prop :=
  s.reparsing = some (.reading uri false) ∧ (∃ tree, s.parsed uri = some (item, tree)) ∨
    s.reparsing = some (.parsing uri (makeSourceFile item.uri item.text))

/-- Without a race, the `Reparse` that has started stays the one that runs, on the same item. -/
theorem Server.ReparsingItem.step {item : TextDocumentItem} (h : s.ReparsingItem uri item)
    (hknown : s.ReadsKnown) (hfree : RaceFree interp s event s')
    (hevent : ∀ uri, event ≠ .installed uri ∧ event ≠ .failed uri) : s'.ReparsingItem uri item := by
  obtain ⟨hstep, hrace⟩ := hfree
  have hkeeps : s'.reparsing = s.reparsing → s'.parsed = s.parsed → s'.ReparsingItem uri item := by
    intro hreparsing hparsed
    unfold Server.ReparsingItem
    rw [hreparsing, hparsed]
    exact h
  cases hstep with
  | receive message hlistening hlocks =>
    have hsame := receive_reparsing_of_raceFree hrace
    rcases h with ⟨hreading, tree, hitem⟩ | hparsing
    · refine Or.inl ⟨hsame.trans hreading, tree, ?_⟩
      rcases receive_cases s message with ⟨hparsed, -⟩ | ⟨uri', text, item', tree', hparsed, haccepted, -⟩
      · rw [hparsed]
        exact hitem
      · by_cases heq : uri = uri'
        · -- the text of the document is not written while it is copied
          subst heq
          have hfree : RaceFree interp s (.receive message) (s.receive message) :=
            ⟨.receive s message hlistening hlocks, hrace⟩
          exact absurd (hsame.trans hreading) (not_reading_of_accepted hknown hfree haccepted false)
        · rw [hparsed, Function.update_of_ne heq]
          exact hitem
    · exact Or.inr (hsame.trans hparsing)
  | start _ _ _ hidle =>
    rcases h with ⟨hruns, -⟩ | hruns
    · cases hidle.symm.trans hruns
    · cases hidle.symm.trans hruns
  | read uri' torn document text hreading hdoc htext =>
    rcases h with ⟨hruns, tree, hitem⟩ | hruns
    · cases hreading.symm.trans hruns
      cases hitem.symm.trans (parsed_eq_some.mpr ⟨document, hdoc, rfl, rfl⟩)
      rw [htext rfl]
      exact Or.inr rfl
    · cases hreading.symm.trans hruns
  | installed uri' => exact absurd rfl (hevent uri').1
  | failed uri' => exact absurd rfl (hevent uri').2
  | blocked | cursor | noCursor | reply | noReply | written => exact hkeeps rfl rfl

theorem run_unfinished (hbefore : Run (RaceFree interp) .initial before s)
    (hmid : Run (RaceFree interp) s mid t) (hunfinished : Unfinished mid) {item : TextDocumentItem}
    (hruns : s.ReparsingItem uri item) : s.Keeps t ∧ t.ReparsingItem uri item := by
  have hrule : Unfinished mid → s.Keeps t ∧ t.ReparsingItem uri item := by
    refine hmid.history (J := fun mid t => Unfinished mid → s.Keeps t ∧ t.ReparsingItem uri item)
      (fun _ => ⟨.refl s, hruns⟩) ?_
    intro mid t event u hrun ih hstep hunfinished
    have hlast : ∀ uri, event ≠ .installed uri ∧ event ≠ .failed uri := by
      intro uri
      constructor
      · rintro rfl
        exact (hunfinished uri).1 (by simp)
      · rintro rfl
        exact (hunfinished uri).2 (by simp)
    obtain ⟨hkeeps, hruns'⟩ := ih fun uri =>
      ⟨fun hmem => (hunfinished uri).1 (List.mem_append_left _ hmem),
        fun hmem => (hunfinished uri).2 (List.mem_append_left _ hmem)⟩
    have hwhole := run_raceFree (hbefore.append hrun)
    exact ⟨hkeeps.trans (step_keeps (run_lastIndexed hwhole).wf hstep.1 fun uri => (hlast uri).1),
      hruns'.step (run_readsKnown hwhole) hstep hlast⟩
  exact hrule hunfinished

/-! ## From the change to the end of a `Reparse` -/

/-- An accepted change moves text and version of its document at once and leaves trees and index. A
`Reparse` of the document that starts later reads that text or one of a higher version, and while it
runs no tree and no record changes. Then tree and index are both those of the text it has read, with
every item as it was, or the `Reparse` has failed and everything is as it was. -/
theorem change_then_reparse {document : Document} {version : Int}
    {change : TextDocumentContentChangeEvent} (hbefore : Run (RaceFree interp) .initial before s)
    (hchange : RaceFree interp s (.receive (.didChange uri version [change])) t)
    (hdoc : s.documents uri = some document) (hversion : document.item.version < version) :
    (t.documents = Function.update s.documents uri
        (some { document with item := { document.item with text := change.text, version } }) ∧
      t.index = s.index ∧ t.indexQueue = s.indexQueue ++ [uri]) ∧
    ∀ after u v mid w, Run (RaceFree interp) t after u → RaceFree interp u (.start uri) v →
      Run (RaceFree interp) v mid w → Unfinished mid →
      ∃ read, u.documents uri = some read ∧
        (read.item = { document.item with text := change.text, version } ∨
          version < read.item.version) ∧
        u.Keeps w ∧
        (∀ ended x, RaceFree interp w (.installed ended) x → ended = uri ∧
          ∃ current parsed, w.documents uri = some current ∧
            reparse interp (makeSourceFile read.item.uri read.item.text) = .ok parsed ∧
            x.documents = Function.update w.documents uri (some (current.install parsed)) ∧
            x.index = parsed.index ∧
            (parsed.tree.Legible ↔
              inlineCapacity < read.item.text.length ∨ parsed.script.Wordless)) ∧
        ∀ ended x, RaceFree interp w (.failed ended) x → ended = uri ∧
          (∃ fault, reparse interp (makeSourceFile read.item.uri read.item.text) = .error fault) ∧
          x.documents = w.documents ∧ x.index = w.index := by
  have hchanges := hchange.1
  cases hchanges with
  | receive =>
    have hreceive := receive_accepted change hdoc hversion
    have hdocs := congrArg Server.documents hreceive
    refine ⟨⟨hdocs, receive_index s _, congrArg Server.indexQueue hreceive⟩, ?_⟩
    intro after u v mid w hafter hstart hmid hunfinished
    have hchanged : (s.receive (.didChange uri version [change])).AtLeast uri
        { document.item with text := change.text, version } := by
      have hentry : (s.receive (.didChange uri version [change])).entry uri =
          some ({ document.item with text := change.text, version }, document.state) :=
        entry_eq_some.mpr
          ⟨_, (congrFun hdocs uri).trans (Function.update_self ..), rfl, rfl⟩
      exact .of_entry (Or.inl rfl) hentry
    obtain ⟨item, state, hentry, hitem⟩ := run_atLeast (run_raceFree hafter) hchanged
    obtain ⟨read, hread, rfl, -⟩ := entry_eq_some.mp hentry
    have hprefix := ((hbefore.snoc hchange).append hafter).snoc hstart
    have hruns : v.ReparsingItem uri read.item ∧ v.documents = u.documents ∧ v.index = u.index := by
      have hstarts := hstart.1
      cases hstarts with
      | start =>
        exact ⟨Or.inl ⟨rfl, read.tree, parsed_eq_some.mpr ⟨read, hread, rfl, rfl⟩⟩, rfl, rfl⟩
    obtain ⟨hkeeps, hends⟩ := run_unfinished hprefix hmid hunfinished hruns.1
    -- when it ends it has copied the text
    have hfile : ∀ {ended file}, w.reparsing = some (.parsing ended file) →
        ended = uri ∧ file = makeSourceFile read.item.uri read.item.text := by
      intro ended file hparsing
      rcases hends with ⟨hreading, -⟩ | hends
      · cases hparsing.symm.trans hreading
      · cases hparsing.symm.trans hends
        exact ⟨rfl, rfl⟩
    refine ⟨read, hread, hitem, ⟨?_, ?_⟩, ?_, ?_⟩
    · intro uri' document' hdoc'
      exact hkeeps.tree uri' document' (hruns.2.1 ▸ hdoc')
    · intro path name location type
      rw [hkeeps.index, hruns.2.2]
    · rintro ended x ⟨hinstalled, -⟩
      cases hinstalled with
      | installed _ file parsed current hparsing _ hreparse hcurrent =>
        obtain ⟨rfl, rfl⟩ := hfile hparsing
        have hlegible : parsed.tree.Legible ↔ _ := legible_iff
        rw [(reparse_ok hreparse).1] at hlegible
        exact ⟨rfl, current, parsed, hcurrent, hreparse, rfl, rfl, hlegible⟩
    · rintro ended x ⟨hfailed, -⟩
      cases hfailed with
      | failed _ file fault hparsing hreparse =>
        obtain ⟨rfl, rfl⟩ := hfile hparsing
        exact ⟨rfl, ⟨fault, hreparse⟩, rfl, rfl⟩

/-! ## A text that cannot be indexed -/

def toColons : TextDocumentContentChangeEvent := { range := none, text := bytes ":::reloadEverything" }

theorem reparse_toColons :
    reparse oneWordInterp (makeSourceFile (bytes "u") toColons.text) = .error .outOfRange := by
  have hfault : faultOf (reparse oneWordInterp (makeSourceFile (bytes "u") toColons.text)) =
      some .outOfRange := by decide +kernel
  exact faultOf_eq_some.mp hfault

theorem toColons_raceFree (interp : TclInterp) (hlistening : s.listening = true)
    (hidle : s.reparsing = none) :
    RaceFree interp s (.receive (.didChange (bytes "u") 2 [toColons]))
      (s.receive (.didChange (bytes "u") 2 [toColons])) := by
  refine ⟨.receive s _ hlistening (by simp [Message.locks]), ?_⟩
  rintro ⟨_, _, _, -, hraces⟩
  simp [Server.races, hidle] at hraces

/-- A change to a name with three colons has moved text and version and left the tree, and nothing is
pending. -/
theorem toColons_not_atomic : ∃ s t u document document',
    Run (RaceFree oneWordInterp) .initial reloading s ∧
    RaceFree oneWordInterp s (.receive (.didChange (bytes "u") 2 [toColons])) t ∧
    Run (RaceFree oneWordInterp) t [.start (bytes "u"), .read (bytes "u"), .failed (bytes "u")] u ∧
    u.Quiescent ∧ s.documents (bytes "u") = some document ∧
    u.documents (bytes "u") = some document' ∧ document.item.version < document'.item.version ∧
    document'.item.text = toColons.text ∧ document'.tree = document.tree ∧ u.index = s.index ∧
    ∀ parsed, reparse oneWordInterp (makeSourceFile (bytes "u") toColons.text) ≠ .ok parsed := by
  obtain ⟨s, document, hrun, ⟨hqueue, hidle⟩, hlistening, hdoc, hitem⟩ := reloading_run
  have hversion : document.item.version < 2 := by
    rw [hitem]
    decide
  have hreceive := receive_accepted toColons hdoc hversion
  set document' : Document :=
    { document with item := { document.item with text := toColons.text, version := 2 } } with hdocument'
  have hdoc' : (s.receive (.didChange (bytes "u") 2 [toColons])).documents (bytes "u") =
      some document' := by
    rw [hreceive]
    show Function.update s.documents (bytes "u") (some document') (bytes "u") = _
    exact Function.update_self ..
  have hfile : makeSourceFile document'.item.uri document'.item.text =
      makeSourceFile (bytes "u") toColons.text := by
    rw [hdocument', hitem]
    rfl
  have hchange := toColons_raceFree oneWordInterp hlistening hidle
  set t := s.receive (.didChange (bytes "u") 2 [toColons])
  set started : Server :=
    { t with indexQueue := [], reparsing := some (.reading (bytes "u") false) }
  set copied : Server :=
    { started with
      reparsing := some (.parsing (bytes "u") (makeSourceFile document'.item.uri document'.item.text)) }
  have hstart : ServerStep oneWordInterp t (.start (bytes "u")) started := by
    refine .start t (bytes "u") [] document' ?_ ?_ hdoc'
    · rw [hreceive, hidle]
      rfl
    · rw [hreceive, hqueue]
      rfl
  have hread : ServerStep oneWordInterp started (.read (bytes "u")) copied :=
    .read started (bytes "u") false document' _ rfl hdoc' fun _ => rfl
  have hfailed : ServerStep oneWordInterp copied (.failed (bytes "u")) _ :=
    .failed copied (bytes "u") _ _ rfl (hfile ▸ reparse_toColons) rfl
  have hends : Run (RaceFree oneWordInterp) t
      [.start (bytes "u"), .read (bytes "u"), .failed (bytes "u")] _ :=
    .cons (raceFree hstart (by simp))
      (.cons (raceFree hread (by simp)) (.single (raceFree hfailed (by simp))))
  refine ⟨s, _, _, document, document', hrun, hchange, hends, ⟨rfl, rfl⟩, hdoc, hdoc', hversion, rfl,
    rfl, receive_index s _, ?_⟩
  intro parsed hparsed
  cases hparsed.symm.trans reparse_toColons

theorem toColons_reparsed : ∃ s t document, Run (RaceFree oneWordInterp) .initial reloading s ∧
    RaceFree oneWordInterp s (.receive (.didChange (bytes "u") 2 [toColons])) t ∧
    t.documents = Function.update s.documents (bytes "u") (some document) ∧
    document.item.text = toColons.text := by
  obtain ⟨s, document, hrun, ⟨-, hidle⟩, hlistening, hdoc, hitem⟩ := reloading_run
  have hversion : document.item.version < 2 := by
    rw [hitem]
    decide
  have hchange := toColons_raceFree oneWordInterp hlistening hidle
  exact ⟨s, _, _, hrun, hchange, (change_then_reparse hrun hchange hdoc hversion).1.1, rfl⟩

end TclAnalyzer
