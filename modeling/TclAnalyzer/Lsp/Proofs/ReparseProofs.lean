import TclAnalyzer.Data.Runs
import TclAnalyzer.Lsp.Proofs.DocumentsProofs

/-!
# Which tree a request is answered from

A `Reparse` reads the text of its document when it has started. Without a data race, what it writes is
therefore as new as the last notification that was accepted before its start, and older than those
after it.
-/

namespace TclAnalyzer

variable {interp : TclInterp} {event : ServerEvent} {before after events : List ServerEvent}
  {s s' t u : Server} {uri text : Str} {message : Message} {request : Request} {tree : Tree}
  {reply : Reply}
  {accepted accepted' : List (Str × Str)} {P Q : Nat → Prop}

/-! ## What one step changes -/

/-- What a `Reparse` reads and what it writes of a document. -/
def Server.parsed (s : Server) (uri : Str) : Option (TextDocumentItem × Tree) :=
  (s.documents uri).map fun document => (document.item, document.tree)

theorem parsed_ne_none : s.parsed uri ≠ none ↔ s.documents uri ≠ none := by
  simp [Server.parsed]

theorem parsed_eq_some {item : TextDocumentItem} : s.parsed uri = some (item, tree) ↔
    ∃ document, s.documents uri = some document ∧ document.item = item ∧ document.tree = tree := by
  simp [Server.parsed]

theorem parsed_update (document : Document)
    (h : s'.documents = Function.update s.documents uri (some document)) :
    s'.parsed = Function.update s.parsed uri (some (document.item, document.tree)) := by
  funext uri'
  unfold Server.parsed
  rw [h]
  by_cases huri : uri' = uri
  · subst huri
    simp
  · simp [huri]

theorem parsed_installed (s : Server) (uri : Str) (document : Document) (parsed : Parsed) :
    Server.parsed
      { s with
        reparsing := none
        documents := Function.update s.documents uri (some (document.install parsed))
        index := parsed.index } =
      Function.update s.parsed uri (some (document.item, parsed.tree)) :=
  parsed_update (document.install parsed) rfl

/-- A text is taken over into the entry of its document. A new entry has the initial tree, an entry
that is there keeps its tree. -/
def Accepts (s : Server) (uri text : Str) (s' : Server) : Prop :=
  ∃ item tree, s'.parsed = Function.update s.parsed uri (some (item, tree)) ∧
    s'.accepted = s.accepted ++ [(uri, text)] ∧ item.text = text ∧
    (s.parsed uri = none ∧ tree = .initial ∧ item.uri = uri ∨
      ∃ old, s.parsed uri = some (old, tree) ∧ item.uri = old.uri)

theorem onDidOpen_new {item : TextDocumentItem} (h : s.documents item.uri = none) :
    onDidOpen s item =
      { s with
        indexQueue := s.indexQueue ++ [item.uri]
        documents := Function.update s.documents item.uri (some (newDocument item))
        accepted := s.accepted ++ [(item.uri, item.text)] } := by
  simp only [onDidOpen, h]

theorem onDidOpen_cases (s : Server) (item : TextDocumentItem) :
    (onDidOpen s item).parsed = s.parsed ∧ (onDidOpen s item).accepted = s.accepted ∨
      Accepts s item.uri item.text (onDidOpen s item) := by
  cases hdoc : s.documents item.uri with
  | some document =>
    left
    have hopen : onDidOpen s item = { s with indexQueue := s.indexQueue ++ [item.uri] } := by
      simp only [onDidOpen, hdoc]
    rw [hopen]
    exact ⟨rfl, rfl⟩
  | none =>
    right
    have hnone : s.parsed item.uri = none := by simp [Server.parsed, hdoc]
    rw [onDidOpen_new hdoc]
    exact ⟨item, .initial, parsed_update (newDocument item) rfl, rfl, rfl, Or.inl ⟨hnone, rfl, rfl⟩⟩

theorem onDidChange_cases {version : Int} {changes : List TextDocumentContentChangeEvent}
    (h : onDidChange s uri version changes = .ok s') :
    s' = s ∨ ∃ text, Accepts s uri text s' := by
  unfold onDidChange at h
  cases hdoc : s.documents uri with
  | none =>
    rw [hdoc] at h
    cases h
  | some document =>
    rw [hdoc] at h
    dsimp only at h
    split at h
    · next change =>
      by_cases hversion : document.item.version < version
      · rw [if_pos hversion] at h
        cases h
        right
        have hparsed := parsed_eq_some.mpr ⟨document, hdoc, rfl, rfl⟩
        exact ⟨change.text, { document.item with text := change.text, version }, document.tree,
          parsed_update { document with item := _ } rfl, rfl, rfl,
          Or.inr ⟨document.item, hparsed, rfl⟩⟩
      · rw [if_neg hversion] at h
        cases h
        exact Or.inl rfl
    · cases h
      exact Or.inl rfl

theorem onDidClose_parsed (h : onDidClose s uri = .ok s') :
    s'.parsed = s.parsed ∧ s'.accepted = s.accepted := by
  unfold onDidClose at h
  cases hdoc : s.documents uri with
  | none =>
    rw [hdoc] at h
    cases h
  | some document =>
    rw [hdoc] at h
    cases h
    refine ⟨?_, rfl⟩
    refine (parsed_update { document with state := .CLOSED } rfl).trans ?_
    exact Function.update_eq_self_iff.mpr (parsed_eq_some.mpr ⟨document, hdoc, rfl, rfl⟩).symm

theorem receive_didChange (s : Server) (uri : Str) (version : Int)
    (changes : List TextDocumentContentChangeEvent) :
    s.receive (.didChange uri version changes) = s ∨
      onDidChange s uri version changes = .ok (s.receive (.didChange uri version changes)) := by
  unfold Server.receive
  dsimp only
  cases onDidChange s uri version changes with
  | error fault => exact Or.inl rfl
  | ok s' => exact Or.inr rfl

theorem receive_didClose (s : Server) (uri : Str) :
    s.receive (.didClose uri) = { s with listening := false } ∨
      onDidClose s uri = .ok (s.receive (.didClose uri)) := by
  unfold Server.receive
  dsimp only
  cases onDidClose s uri with
  | error fault => exact Or.inl rfl
  | ok s' => exact Or.inr rfl

/-- A message leaves texts and trees alone, or one text is accepted. -/
theorem receive_cases (s : Server) (message : Message) :
    (s.receive message).parsed = s.parsed ∧ (s.receive message).accepted = s.accepted ∨
      ∃ uri text, Accepts s uri text (s.receive message) := by
  cases message with
  | didOpen item =>
    rcases onDidOpen_cases s item with hsame | haccepts
    · exact Or.inl hsame
    · exact Or.inr ⟨item.uri, item.text, haccepts⟩
  | didChange uri version changes =>
    rcases receive_didChange s uri version changes with hsame | hchange
    · rw [hsame]
      exact Or.inl ⟨rfl, rfl⟩
    · rcases onDidChange_cases hchange with hsame | ⟨text, haccepts⟩
      · rw [hsame]
        exact Or.inl ⟨rfl, rfl⟩
      · exact Or.inr ⟨uri, text, haccepts⟩
  | didClose uri =>
    left
    rcases receive_didClose s uri with hended | hclose
    · rw [hended]
      exact ⟨rfl, rfl⟩
    · exact onDidClose_parsed hclose
  | request request => exact Or.inl ⟨rfl, rfl⟩
  | exit => exact Or.inl ⟨rfl, rfl⟩

theorem reparse_ok {file : SourceFile} {parsed : Parsed} (h : reparse interp file = .ok parsed) :
    parsed.tree.file = file ∧ parsed.tree.Parses interp := by
  unfold reparse at h
  obtain ⟨script, hparse, h⟩ := bind_eq_ok.mp h
  obtain ⟨result, -, h⟩ := bind_eq_ok.mp h
  cases h
  exact ⟨rfl, hparse⟩

theorem reparse_build {file : SourceFile} {parsed : Parsed} (h : reparse interp file = .ok parsed) :
    ∃ result, buildNew parsed.script = .ok result ∧ parsed.index = result.index := by
  unfold reparse at h
  obtain ⟨script, -, h⟩ := bind_eq_ok.mp h
  obtain ⟨result, hbuild, h⟩ := bind_eq_ok.mp h
  cases h
  exact ⟨result, hbuild, rfl⟩

/-- What a step does to texts and trees: nothing, or one text is accepted, or a `Reparse` writes the
tree of the source file it works on. -/
theorem step_parsed (h : ServerStep interp s event s') :
    (∀ uri, event ≠ .installed uri) ∧
      (s'.parsed = s.parsed ∧ s'.accepted = s.accepted ∨ ∃ uri text, Accepts s uri text s') ∨
    ∃ uri item old tree, event = .installed uri ∧ s.reparsing = some (.parsing uri tree.file) ∧
      tree.Parses interp ∧ s.parsed uri = some (item, old) ∧
      s'.parsed = Function.update s.parsed uri (some (item, tree)) ∧ s'.accepted = s.accepted := by
  cases h with
  | receive message => exact Or.inl ⟨by simp, receive_cases s message⟩
  | installed uri file parsed document hreparsing _ hreparse hdoc =>
    right
    obtain ⟨rfl, hparses⟩ := reparse_ok hreparse
    exact ⟨uri, document.item, document.tree, parsed.tree, rfl, hreparsing, hparses,
      parsed_eq_some.mpr ⟨document, hdoc, rfl, rfl⟩, parsed_installed s uri document parsed, rfl⟩
  | blocked | start | read | failed | cursor | noCursor | reply | noReply | written =>
    exact Or.inl ⟨by simp, Or.inl ⟨rfl, rfl⟩⟩

/-- What no notification changes. -/
structure Server.SameRest (s s' : Server) : Prop where
  index : s'.index = s.index
  requests : s'.requests = s.requests
  cursors : s'.cursors = s.cursors
  replying : s'.replying = s.replying
  blocked : s'.blocked = s.blocked

theorem onDidOpen_rest (s : Server) (item : TextDocumentItem) : s.SameRest (onDidOpen s item) := by
  unfold onDidOpen
  dsimp only
  cases s.documents item.uri with
  | none => exact ⟨rfl, rfl, rfl, rfl, rfl⟩
  | some document => exact ⟨rfl, rfl, rfl, rfl, rfl⟩

theorem onDidChange_rest {version : Int} {changes : List TextDocumentContentChangeEvent}
    (h : onDidChange s uri version changes = .ok s') : s.SameRest s' := by
  unfold onDidChange at h
  split at h
  · cases h
  · split at h
    · split at h
      · cases h
        exact ⟨rfl, rfl, rfl, rfl, rfl⟩
      · cases h
        exact ⟨rfl, rfl, rfl, rfl, rfl⟩
    · cases h
      exact ⟨rfl, rfl, rfl, rfl, rfl⟩

theorem onDidClose_rest (h : onDidClose s uri = .ok s') : s.SameRest s' := by
  unfold onDidClose at h
  split at h
  · cases h
  · cases h
    exact ⟨rfl, rfl, rfl, rfl, rfl⟩

/-- A message spawns at most the handler of one request and leaves what runs alone. -/
theorem receive_rest (s : Server) (message : Message) :
    s.SameRest (s.receive message) ∨ ∃ request, message = .request request ∧
      s.receive message = { s with requests := s.requests ++ [request] } := by
  cases message with
  | didOpen item => exact Or.inl (onDidOpen_rest s item)
  | didChange uri version changes =>
    rcases receive_didChange s uri version changes with hsame | hchange
    · rw [hsame]
      exact Or.inl ⟨rfl, rfl, rfl, rfl, rfl⟩
    · exact Or.inl (onDidChange_rest hchange)
  | didClose uri =>
    rcases receive_didClose s uri with hended | hclose
    · rw [hended]
      exact Or.inl ⟨rfl, rfl, rfl, rfl, rfl⟩
    · exact Or.inl (onDidClose_rest hclose)
  | request request => exact Or.inr ⟨request, rfl, rfl⟩
  | exit => exact Or.inl ⟨rfl, rfl, rfl, rfl, rfl⟩

theorem receive_index (s : Server) (message : Message) : (s.receive message).index = s.index := by
  rcases receive_rest s message with hsame | ⟨request, -, hreceive⟩
  · exact hsame.index
  · rw [hreceive]

theorem receive_accepted {document : Document} {version : Int}
    (change : TextDocumentContentChangeEvent) (hdoc : s.documents uri = some document)
    (hversion : document.item.version < version) :
    s.receive (.didChange uri version [change]) =
      { s with
        documents := Function.update s.documents uri
          (some { document with item := { document.item with text := change.text, version } })
        indexQueue := s.indexQueue ++ [uri]
        reparsing := s.reparsing.map (Reparsing.write uri)
        accepted := s.accepted ++ [(uri, change.text)] } := by
  simp only [Server.receive, onDidChange, hdoc, if_pos hversion]
  rfl

/-- Only an accepted change touches the `Reparse` that runs: it writes the text that is read. -/
theorem receive_reparsing (s : Server) (message : Message) :
    (s.receive message).reparsing = s.reparsing ∨ ∃ uri version change document,
      message = .didChange uri version [change] ∧ s.documents uri = some document ∧
      document.item.version < version ∧
      (s.receive message).reparsing = s.reparsing.map (Reparsing.write uri) := by
  cases message with
  | didOpen item =>
    left
    unfold Server.receive onDidOpen
    dsimp only
    cases s.documents item.uri with
    | none => rfl
    | some document => rfl
  | didChange uri version changes =>
    cases hdoc : s.documents uri with
    | none =>
      rw [(receive_missing (entry_eq_none.mpr hdoc) version changes).1]
      exact Or.inl rfl
    | some document =>
      by_cases hone : ∃ change, changes = [change]
      · obtain ⟨change, rfl⟩ := hone
        by_cases hversion : document.item.version < version
        · right
          refine ⟨uri, version, change, document, rfl, hdoc, hversion, ?_⟩
          rw [receive_accepted change hdoc hversion]
        · rw [receive_didChange_stale (entry_eq_some.mpr ⟨document, hdoc, rfl, rfl⟩) hversion]
          exact Or.inl rfl
      · rw [receive_didChange_ignored hone]
        exact Or.inl rfl
  | didClose uri =>
    left
    rcases receive_didClose s uri with hended | hclose
    · rw [hended]
    · unfold onDidClose at hclose
      split at hclose
      · cases hclose
      · injection hclose with hserver
        rw [← hserver]
  | request request => exact Or.inl rfl
  | exit => exact Or.inl rfl

/-- A source file that is parsed stays the same. -/
theorem receive_parsing {message : Message} {file : SourceFile} :
    (s.receive message).reparsing = some (.parsing uri file) ↔
      s.reparsing = some (.parsing uri file) := by
  rcases receive_reparsing s message with hsame | ⟨uri', _, _, _, -, -, -, hwrites⟩
  · rw [hsame]
  · rw [hwrites]
    cases hreparsing : s.reparsing with
    | none => simp
    | some reparsing => cases reparsing <;> simp [Reparsing.write]

theorem races_of_reading {document : Document} {version : Int} {torn : Bool}
    (change : TextDocumentContentChangeEvent) (hdoc : s.documents uri = some document)
    (hversion : document.item.version < version) (hreading : s.reparsing = some (.reading uri torn)) :
    s.Races (.receive (.didChange uri version [change])) := by
  refine ⟨uri, version, [change], rfl, ?_⟩
  simp [Server.races, hdoc, hreading, hversion]

theorem receive_reparsing_of_raceFree (h : ¬s.Races (.receive message)) :
    (s.receive message).reparsing = s.reparsing := by
  rcases receive_reparsing s message with
    hsame | ⟨uri, version, change, document, rfl, hdoc, hversion, hwrites⟩
  · exact hsame
  · rw [hwrites]
    cases hreparsing : s.reparsing with
    | none => rfl
    | some reparsing =>
      cases reparsing with
      | parsing => rfl
      | reading uri' torn =>
        have hne : uri' ≠ uri := by
          rintro rfl
          exact h (races_of_reading change hdoc hversion hreparsing)
        simp [Reparsing.write, hne]

/-- A source file is made from the text of its document, unless that is written while it is copied. -/
theorem step_parsing (h : ServerStep interp s event s') {file : SourceFile}
    (hfile : s'.reparsing = some (.parsing uri file)) :
    (∀ uri, event ≠ .read uri) ∧ s.reparsing = some (.parsing uri file) ∨
    ∃ torn item tree text, event = .read uri ∧ s.reparsing = some (.reading uri torn) ∧
      s.parsed uri = some (item, tree) ∧ (torn = false → text = item.text) ∧
      file = makeSourceFile item.uri text := by
  cases h with
  | receive message => exact Or.inl ⟨by simp, receive_parsing.mp hfile⟩
  | start => cases hfile
  | read _ torn document text hreading hdoc htext =>
    cases hfile
    exact Or.inr ⟨torn, document.item, document.tree, text, rfl, hreading,
      parsed_eq_some.mpr ⟨document, hdoc, rfl, rfl⟩, htext, rfl⟩
  | installed | failed => cases hfile
  | blocked | cursor | noCursor | reply | noReply | written => exact Or.inl ⟨by simp, hfile⟩

/-- Without a race, a text that is read is that of the document. -/
theorem step_reading (h : RaceFree interp s event s') {torn : Bool}
    (hreading : s'.reparsing = some (.reading uri torn)) :
    s.reparsing = some (.reading uri torn) ∨ event = .start uri ∧ torn = false := by
  obtain ⟨hstep, hrace⟩ := h
  cases hstep with
  | receive message =>
    rw [receive_reparsing_of_raceFree hrace] at hreading
    exact Or.inl hreading
  | start uri' =>
    cases hreading
    exact Or.inr ⟨rfl, rfl⟩
  | read | installed | failed => cases hreading
  | blocked | cursor | noCursor | reply | noReply | written => exact Or.inl hreading

/-! ## Texts in the order of acceptance -/

theorem step_accepted (h : ServerStep interp s event s') : s.accepted <+: s'.accepted := by
  rcases step_parsed h with ⟨-, ⟨-, hsame⟩ | ⟨uri, text, _, _, -, happend, -⟩⟩ |
    ⟨_, _, _, _, -, -, -, -, -, hsame⟩
  · exact hsame ▸ List.prefix_refl _
  · exact happend ▸ List.prefix_append _ _
  · exact hsame ▸ List.prefix_refl _

theorem run_accepted (h : Run (ServerStep interp) s events s') : s.accepted <+: s'.accepted :=
  h.invariant (I := fun t => s.accepted <+: t.accepted) (List.prefix_refl _)
    fun _ _ _ hgrows hstep => hgrows.trans (step_accepted hstep)

theorem getElem?_of_prefix {k : Nat} {entry : Str × Str} (h : accepted <+: accepted')
    (hk : accepted[k]? = some entry) : accepted'[k]? = some entry := by
  obtain ⟨rest, rfl⟩ := h
  obtain ⟨hlt, -⟩ := List.getElem?_eq_some_iff.mp hk
  rwa [List.getElem?_append_left hlt]

/-- The source file is made from an accepted text, see `TreeFrom`. -/
def FileFrom (accepted : List (Str × Str)) (uri : Str) (P : Nat → Prop) (file : SourceFile) : Prop :=
  ∃ k text, P k ∧ accepted[k]? = some (uri, text) ∧ file = makeSourceFile uri text

theorem FileFrom.parse (h : FileFrom accepted uri P tree.file) (hparses : tree.Parses interp) :
    TreeFrom interp accepted uri P tree := by
  obtain ⟨k, text, hk, haccepted, hfile⟩ := h
  exact ⟨k, text, hk, haccepted, hfile, hparses⟩

theorem FileFrom.mono {file : SourceFile} (h : FileFrom accepted uri P file)
    (hgrows : accepted <+: accepted') (hP : ∀ k, k < accepted.length → P k → Q k) :
    FileFrom accepted' uri Q file := by
  obtain ⟨k, text, hk, haccepted, hfile⟩ := h
  obtain ⟨hlt, -⟩ := List.getElem?_eq_some_iff.mp haccepted
  exact ⟨k, text, hP k hlt hk, getElem?_of_prefix hgrows haccepted, hfile⟩

theorem TreeFrom.mono (h : TreeFrom interp accepted uri P tree)
    (hgrows : accepted <+: accepted') (hP : ∀ k, k < accepted.length → P k → Q k) :
    TreeFrom interp accepted' uri Q tree := by
  obtain ⟨k, text, hk, haccepted, hparsed⟩ := h
  obtain ⟨hlt, -⟩ := List.getElem?_eq_some_iff.mp haccepted
  exact ⟨k, text, hP k hlt hk, getElem?_of_prefix hgrows haccepted, hparsed⟩

/-- The text of each document is the last one that was accepted for it, and each document with an
accepted text is there. -/
structure Server.Documented (s : Server) : Prop where
  item : ∀ uri item tree, s.parsed uri = some (item, tree) → item.uri = uri ∧
    ∃ k : Nat, s.accepted[k]? = some (uri, item.text) ∧
      ∀ (j : Nat) (text : Str), s.accepted[j]? = some (uri, text) → j ≤ k
  there : ∀ uri text, (uri, text) ∈ s.accepted → s.parsed uri ≠ none

theorem documented_initial : Server.initial.Documented where
  item _ _ _ h := nomatch h
  there _ _ h := nomatch h

theorem Server.Documented.accepts (h : s.Documented) (haccepts : Accepts s uri text s') :
    s'.Documented := by
  obtain ⟨item, tree, hparsed, haccepted, rfl, hentry⟩ := haccepts
  have huri : item.uri = uri := by
    rcases hentry with ⟨-, -, huri⟩ | ⟨old, hold, huri⟩
    · exact huri
    · rw [huri]
      exact (h.item uri old tree hold).1
  constructor
  · intro uri' item' tree' hitem
    rw [hparsed] at hitem
    by_cases heq : uri' = uri
    · subst heq
      rw [Function.update_self] at hitem
      cases hitem
      refine ⟨huri, s.accepted.length, by simp [haccepted], fun j text hj => ?_⟩
      have hlt : j < s'.accepted.length := (List.getElem?_eq_some_iff.mp hj).1
      rw [haccepted, List.length_append, List.length_singleton] at hlt
      omega
    · rw [Function.update_of_ne heq] at hitem
      obtain ⟨huri', k, hk, hlast⟩ := h.item uri' item' tree' hitem
      have hgrows : s.accepted <+: s'.accepted := ⟨_, haccepted.symm⟩
      refine ⟨huri', k, getElem?_of_prefix hgrows hk, fun j text hj => ?_⟩
      rw [haccepted, List.getElem?_append] at hj
      split at hj
      · exact hlast j text hj
      · have hsame := List.mem_of_getElem? hj
        rw [List.mem_singleton] at hsame
        cases hsame
        exact absurd rfl heq
  · intro uri' text' hmem
    rw [hparsed]
    by_cases heq : uri' = uri
    · subst heq
      simp
    · rw [Function.update_of_ne heq]
      rw [haccepted, List.mem_append, List.mem_singleton] at hmem
      rcases hmem with hmem | hmem
      · exact h.there uri' text' hmem
      · cases hmem
        exact absurd rfl heq

theorem Server.Documented.step (h : s.Documented) (hstep : ServerStep interp s event s') :
    s'.Documented := by
  rcases step_parsed hstep with ⟨-, ⟨hparsed, hsame⟩ | ⟨uri, text, haccepts⟩⟩ |
    ⟨uri, item, old, tree, -, -, -, hitem, hparsed, hsame⟩
  · exact ⟨by rw [hparsed, hsame]; exact h.item, by rw [hparsed, hsame]; exact h.there⟩
  · exact h.accepts haccepts
  · constructor
    · intro uri' item' tree' hitem'
      rw [hparsed] at hitem'
      rw [hsame]
      by_cases heq : uri' = uri
      · subst heq
        rw [Function.update_self] at hitem'
        cases hitem'
        exact h.item uri' item old hitem
      · rw [Function.update_of_ne heq] at hitem'
        exact h.item uri' item' tree' hitem'
    · intro uri' text hmem
      rw [hsame] at hmem
      rw [hparsed]
      by_cases heq : uri' = uri
      · subst heq
        simp
      · rw [Function.update_of_ne heq]
        exact h.there uri' text hmem

theorem run_documented (h : Run (ServerStep interp) .initial events s) : s.Documented :=
  h.invariant documented_initial fun _ _ _ hdocumented hstep => hdocumented.step hstep

/-! ## The tree of a document and the running `Reparse` -/

/-- The tree of a document, where there is one. -/
def Server.TreeOf (s : Server) (uri : Str) (A : Tree → Prop) : Prop :=
  ∀ item tree, s.parsed uri = some (item, tree) → A tree

/-- The source file that the running `Reparse` of a document works on. -/
def Server.FileOf (s : Server) (uri : Str) (B : SourceFile → Prop) : Prop :=
  ∀ file, s.reparsing = some (.parsing uri file) → B file

variable {A A' : Tree → Prop} {B B' : SourceFile → Prop}

theorem Server.TreeOf.mono (h : s.TreeOf uri A) (hA : ∀ tree, A tree → A' tree) :
    s.TreeOf uri A' := fun item tree hparsed => hA tree (h item tree hparsed)

theorem Server.FileOf.mono (h : s.FileOf uri B) (hB : ∀ file, B file → B' file) :
    s.FileOf uri B' := fun file hreparsing => hB file (h file hreparsing)

/-- Only a `Reparse` of the document changes its tree, but a document can be new. -/
theorem Server.TreeOf.step (h : s.TreeOf uri A) (hstep : ServerStep interp s event s')
    (hevent : event ≠ .installed uri) (hnew : s.parsed uri = none → A .initial) :
    s'.TreeOf uri A := by
  intro item tree hitem
  rcases step_parsed hstep with ⟨-, ⟨hparsed, -⟩ | ⟨uri', text, item', tree', hparsed, -, -, hentry⟩⟩ |
    ⟨uri', item', old, tree', rfl, -, -, -, hparsed, -⟩
  · rw [hparsed] at hitem
    exact h item tree hitem
  · rw [hparsed] at hitem
    by_cases heq : uri = uri'
    · subst heq
      rw [Function.update_self] at hitem
      cases hitem
      rcases hentry with ⟨hnone, rfl, -⟩ | ⟨old, hold, -⟩
      · exact hnew hnone
      · exact h old tree hold
    · rw [Function.update_of_ne heq] at hitem
      exact h item tree hitem
  · have heq : uri ≠ uri' := fun heq => hevent (by rw [heq])
    rw [hparsed, Function.update_of_ne heq] at hitem
    exact h item tree hitem

theorem treeOf_installed (hstep : ServerStep interp s (.installed uri) s') (hfile : s.FileOf uri B)
    (hparse : ∀ tree : Tree, B tree.file → tree.Parses interp → A tree) : s'.TreeOf uri A := by
  intro item tree hitem
  rcases step_parsed hstep with ⟨hother, -⟩ |
    ⟨uri', item', old, tree', huri, hreparsing, hparses, -, hparsed, -⟩
  · exact absurd rfl (hother uri)
  · cases huri
    rw [hparsed, Function.update_self] at hitem
    cases hitem
    exact hparse tree (hfile tree.file hreparsing) hparses

theorem Server.FileOf.step (h : s.FileOf uri B) (hstep : ServerStep interp s event s')
    (hevent : event ≠ .read uri) : s'.FileOf uri B := by
  intro file hfile
  rcases step_parsing hstep hfile with ⟨-, hsame⟩ | ⟨_, _, _, _, hread, -⟩
  · exact h file hsame
  · exact absurd hread hevent

/-- All trees but the initial one are parsed from some text of their document. -/
structure Server.Sourced (interp : TclInterp) (uri : Str) (s : Server) : Prop where
  file : s.FileOf uri fun file => ∃ text, file = makeSourceFile uri text
  tree : s.TreeOf uri fun tree =>
    tree = .initial ∨ ∃ text, tree.file = makeSourceFile uri text ∧ tree.Parses interp

theorem sourced_initial : Server.initial.Sourced interp uri where
  file _ h := nomatch h
  tree _ _ h := nomatch h

theorem Server.Sourced.step (h : s.Sourced interp uri) (hdocumented : s.Documented)
    (hstep : ServerStep interp s event s') : s'.Sourced interp uri := by
  constructor
  · intro file hfile
    rcases step_parsing hstep hfile with ⟨-, hsame⟩ | ⟨_, item, tree, text, -, -, hitem, -, rfl⟩
    · exact h.file file hsame
    · exact ⟨text, by rw [(hdocumented.item uri item tree hitem).1]⟩
  · by_cases hinstalled : event = .installed uri
    · subst hinstalled
      exact treeOf_installed hstep h.file fun tree ⟨text, hfile⟩ hparses => Or.inr ⟨text, hfile, hparses⟩
    · exact h.tree.step hstep hinstalled fun _ => Or.inl rfl

theorem run_sourced (h : Run (ServerStep interp) .initial events s) : s.Sourced interp uri := by
  have hrule : s.Documented ∧ s.Sourced interp uri := by
    refine h.invariant (I := fun s => s.Documented ∧ s.Sourced interp uri)
      ⟨documented_initial, sourced_initial⟩ ?_
    intro t event u hinv hstep
    exact ⟨hinv.1.step hstep, hinv.2.step hinv.1 hstep⟩
  exact hrule.2

/-! ## Without data races -/

theorem run_raceFree (h : Run (RaceFree interp) s events s') : Run (ServerStep interp) s events s' :=
  h.mono fun _ _ _ hstep => hstep.1

/-- A text that is read is whole. -/
def Server.Untorn (s : Server) : Prop := ∀ uri torn, s.reparsing = some (.reading uri torn) → torn = false

theorem Server.Untorn.step (h : s.Untorn) (hstep : RaceFree interp s event s') : s'.Untorn := by
  intro uri torn hreading
  rcases step_reading hstep hreading with hbefore | ⟨-, rfl⟩
  · exact h uri torn hbefore
  · rfl

theorem run_untorn (h : Run (RaceFree interp) .initial events s) : s.Untorn :=
  h.invariant (I := Server.Untorn) (fun _ _ h => nomatch h) fun _ _ _ ih hstep => ih.step hstep

/-- A text that is copied without a race is the last one of its document. -/
theorem fileOf_read (hstep : ServerStep interp s (.read uri) s') (huntorn : s.Untorn)
    (h : s.Documented) :
    s'.FileOf uri (FileFrom s.accepted uri fun k =>
      ∀ (j : Nat) (text : Str), s.accepted[j]? = some (uri, text) → j ≤ k) := by
  intro file hfile
  rcases step_parsing hstep hfile with ⟨hother, -⟩ | ⟨torn, item, tree, text, -, hreading, hitem, htext, rfl⟩
  · exact absurd rfl (hother uri)
  · obtain ⟨huri, k, hk, hlast⟩ := h.item uri item tree hitem
    obtain rfl := htext (huntorn uri torn hreading)
    exact ⟨k, item.text, hlast, hk, by rw [huri]⟩

/-- All trees but the initial one are parsed from accepted texts, and a text that is read is whole. -/
structure Server.Faithful (interp : TclInterp) (uri : Str) (s : Server) : Prop where
  documented : s.Documented
  untorn : s.Untorn
  file : s.FileOf uri (FileFrom s.accepted uri fun _ => True)
  tree : s.TreeOf uri fun tree =>
    tree = .initial ∨ TreeFrom interp s.accepted uri (fun _ => True) tree

theorem faithful_initial : Server.initial.Faithful interp uri where
  documented := documented_initial
  untorn _ _ h := nomatch h
  file _ h := nomatch h
  tree _ _ h := nomatch h

theorem Server.Faithful.step (h : s.Faithful interp uri) (hfree : RaceFree interp s event s') :
    s'.Faithful interp uri := by
  have hstep := hfree.1
  have hgrows := step_accepted hstep
  refine ⟨h.documented.step hstep, h.untorn.step hfree, ?_, ?_⟩
  · by_cases hread : event = .read uri
    · subst hread
      exact (fileOf_read hstep h.untorn h.documented).mono fun file hfile =>
        hfile.mono hgrows fun _ _ _ => trivial
    · exact (h.file.step hstep hread).mono fun file hfile => hfile.mono hgrows fun _ _ => id
  · by_cases hinstalled : event = .installed uri
    · subst hinstalled
      exact treeOf_installed hstep h.file fun tree hfile hparses =>
        Or.inr ((hfile.parse hparses).mono hgrows fun _ _ => id)
    · refine (h.tree.step hstep hinstalled fun _ => Or.inl rfl).mono fun tree htree => ?_
      exact htree.imp_right fun htree => htree.mono hgrows fun _ _ => id

theorem run_faithful (h : Run (RaceFree interp) .initial events s) : s.Faithful interp uri :=
  h.invariant (I := fun s => s.Faithful interp uri) faithful_initial fun _ _ _ ih hstep => ih.step hstep

/-! ## After a notification was accepted -/

theorem reparsed_concat : Reparsed uri (events ++ [event]) ↔
    Reparsed uri events ∨ .start uri ∈ events ∧ event = .installed uri := by
  unfold Reparsed
  constructor
  · intro h
    obtain ⟨l, l', heq, hl, hl'⟩ := List.sublist_append_iff.mp h
    rcases List.sublist_singleton.mp hl' with rfl | rfl
    · rw [List.append_nil] at heq
      exact Or.inl (heq ▸ hl)
    · have hpair : [ServerEvent.start uri] ++ [.installed uri] = l ++ [event] := heq
      obtain ⟨rfl, hevent⟩ := List.append_inj' hpair rfl
      cases hevent
      exact Or.inr ⟨List.singleton_sublist.mp hl, rfl⟩
  · rintro (h | ⟨hstart, rfl⟩)
    · exact h.trans (List.sublist_append_left _ _)
    · exact (List.singleton_sublist.mpr hstart).append (List.Sublist.refl [ServerEvent.installed uri])

/-- What holds from when text number `n` of a document is accepted: the tree stays an older one until
a `Reparse` that started after that is done. -/
structure Server.Since (interp : TclInterp) (uri : Str) (n : Nat) (events : List ServerEvent)
    (s : Server) : Prop where
  documented : s.Documented
  untorn : s.Untorn
  accepted : ∃ text, s.accepted[n]? = some (uri, text)
  notReading : .start uri ∉ events → ∀ torn, s.reparsing ≠ some (.reading uri torn)
  fileBefore : .start uri ∉ events → s.FileOf uri (FileFrom s.accepted uri (· < n))
  fileSince : .start uri ∈ events → s.FileOf uri (FileFrom s.accepted uri (n ≤ ·))
  treeBefore : ¬Reparsed uri events →
    s.TreeOf uri fun tree => tree = .initial ∨ TreeFrom interp s.accepted uri (· < n) tree
  treeSince : Reparsed uri events → s.TreeOf uri (TreeFrom interp s.accepted uri (n ≤ ·))

variable {n : Nat}

/-- No document goes away. -/
theorem step_documents (hstep : ServerStep interp s event s') (hthere : s.documents uri ≠ none) :
    s'.documents uri ≠ none := by
  rw [← parsed_ne_none] at hthere ⊢
  rcases step_parsed hstep with ⟨-, ⟨hparsed, -⟩ | ⟨uri', _, item, tree, hparsed, -⟩⟩ |
    ⟨uri', item, _, tree, -, -, -, -, hparsed, -⟩
  · rwa [hparsed]
  all_goals
    rw [hparsed]
    by_cases heq : uri = uri'
    · simp [heq]
    · rwa [Function.update_of_ne heq]

theorem Reparsing.write_uri (written : Str) (reparsing : Reparsing) :
    (reparsing.write written).uri = reparsing.uri := by
  cases reparsing with
  | reading | parsing => rfl

theorem receive_reparsing_uri (s : Server) (message : Message) :
    (s.receive message).reparsing.map Reparsing.uri = s.reparsing.map Reparsing.uri := by
  rcases receive_reparsing s message with hsame | ⟨uri, _, _, _, -, -, -, hwrites⟩
  · rw [hsame]
  · rw [hwrites, Option.map_map]
    congr 1
    exact funext (Reparsing.write_uri uri)

/-- A `Reparse` runs for a document that is there. -/
def Server.ReadsKnown (s : Server) : Prop :=
  ∀ uri, s.reparsing.map Reparsing.uri = some uri → s.documents uri ≠ none

theorem Server.ReadsKnown.step (h : s.ReadsKnown) (hstep : ServerStep interp s event s') :
    s'.ReadsKnown := by
  intro uri hruns
  refine step_documents hstep ?_
  cases hstep with
  | receive message => exact h uri (receive_reparsing_uri s message ▸ hruns)
  | start _ _ document _ _ hdoc =>
    cases hruns
    exact hdoc ▸ Option.some_ne_none document
  | read _ _ document _ _ hdoc =>
    cases hruns
    exact hdoc ▸ Option.some_ne_none document
  | installed | failed => cases hruns
  | blocked | cursor | noCursor | reply | noReply | written => exact h uri hruns

theorem run_readsKnown (h : Run (ServerStep interp) .initial events s) : s.ReadsKnown :=
  h.invariant (I := Server.ReadsKnown) (fun _ h => nomatch h) fun _ _ _ ih hstep => ih.step hstep

/-- A text is not accepted while a `Reparse` reads its document. -/
theorem not_reading_of_accepted (hknown : t.ReadsKnown)
    (hreceive : RaceFree interp t (.receive message) u)
    (haccepted : u.accepted = t.accepted ++ [(uri, text)]) (torn : Bool) :
    u.reparsing ≠ some (.reading uri torn) := by
  obtain ⟨hstep, hrace⟩ := hreceive
  cases hstep with
  | receive =>
    intro hreading
    rw [receive_reparsing_of_raceFree hrace] at hreading
    have hlonger : t.accepted ≠ t.accepted ++ [(uri, text)] := by simp
    cases message with
    | didOpen item =>
      rcases onDidOpen_cases t item with ⟨-, hsame⟩ | ⟨_, _, -, happend, -, hentry⟩
      · exact hlonger (hsame.symm.trans haccepted)
      · cases List.singleton_inj.mp (List.append_cancel_left (happend.symm.trans haccepted))
        have hdoc : t.documents item.uri ≠ none := hknown item.uri (by rw [hreading]; rfl)
        obtain ⟨document, hdoc⟩ := Option.ne_none_iff_exists'.mp hdoc
        have hsame : (t.receive (.didOpen item)).accepted = t.accepted := by
          simp only [Server.receive, onDidOpen, hdoc]
        exact hlonger (hsame.symm.trans haccepted)
    | didChange uri' version changes =>
      cases hdoc : t.documents uri' with
      | none =>
        rw [(receive_missing (entry_eq_none.mpr hdoc) version changes).1] at haccepted
        exact hlonger haccepted
      | some document =>
        by_cases hone : ∃ change, changes = [change]
        · obtain ⟨change, rfl⟩ := hone
          by_cases hversion : document.item.version < version
          · rw [receive_accepted change hdoc hversion] at haccepted
            cases List.singleton_inj.mp (List.append_cancel_left haccepted)
            exact hrace (races_of_reading change hdoc hversion hreading)
          · rw [receive_didChange_stale (entry_eq_some.mpr ⟨document, hdoc, rfl, rfl⟩) hversion]
              at haccepted
            exact hlonger haccepted
        · rw [receive_didChange_ignored hone] at haccepted
          exact hlonger haccepted
    | didClose uri' =>
      rcases receive_didClose t uri' with hended | hclose
      · rw [hended] at haccepted
        exact hlonger haccepted
      · exact hlonger ((onDidClose_parsed hclose).2.symm.trans haccepted)
    | request request => exact hlonger haccepted
    | exit => exact hlonger haccepted

/-- Accepting a text makes all that is there older. -/
theorem since_accepted (hknown : t.ReadsKnown) (hfaithful : t.Faithful interp uri)
    (hreceive : RaceFree interp t (.receive message) u)
    (haccepted : u.accepted = t.accepted ++ [(uri, text)]) :
    u.Since interp uri t.accepted.length [] := by
  have hstep := hreceive.1
  have hgrows := step_accepted hstep
  have hfile : u.FileOf uri (FileFrom u.accepted uri (· < t.accepted.length)) :=
    (hfaithful.file.step hstep (by simp)).mono fun file hfile =>
      hfile.mono hgrows fun _ hlt _ => hlt
  have htree : u.TreeOf uri fun tree =>
      tree = .initial ∨ TreeFrom interp u.accepted uri (· < t.accepted.length) tree := by
    refine (hfaithful.tree.step hstep (by simp) fun _ => Or.inl rfl).mono fun tree htree => ?_
    exact htree.imp_right fun htree => htree.mono hgrows fun _ hlt _ => hlt
  have hnot : ¬Reparsed uri [] := by simp [Reparsed]
  exact ⟨hfaithful.documented.step hstep, hfaithful.untorn.step hreceive, ⟨text, by simp [haccepted]⟩,
    fun _ => not_reading_of_accepted hknown hreceive haccepted, fun _ => hfile,
    fun h => absurd h List.not_mem_nil, fun _ => htree, fun h => absurd h hnot⟩

theorem Server.Since.step (h : s.Since interp uri n events) (hfree : RaceFree interp s event s') :
    s'.Since interp uri n (events ++ [event]) := by
  have hstep := hfree.1
  have hgrows := step_accepted hstep
  obtain ⟨text, hn⟩ := h.accepted
  have hthere : s.parsed uri ≠ none := h.documented.there uri text (List.mem_of_getElem? hn)
  have hbefore : .start uri ∉ events ++ [event] → .start uri ∉ events ∧ event ≠ .start uri := by
    intro hstart
    rw [List.mem_append, List.mem_singleton, not_or] at hstart
    exact ⟨hstart.1, Ne.symm hstart.2⟩
  refine ⟨h.documented.step hstep, h.untorn.step hfree, ⟨text, getElem?_of_prefix hgrows hn⟩,
    fun hstart torn hreading => ?_, fun hstart => ?_, fun hstart => ?_, fun hreparsed => ?_,
    fun hreparsed => ?_⟩
  · obtain ⟨hno, hevent⟩ := hbefore hstart
    rcases step_reading hfree hreading with hstill | ⟨hstarts, -⟩
    · exact h.notReading hno torn hstill
    · exact hevent hstarts
  · -- no `Reparse` of the document has started, so the one that runs has an older text
    obtain ⟨hno, -⟩ := hbefore hstart
    have hread : event ≠ .read uri := by
      rintro rfl
      cases hstep with
      | read _ torn _ _ hreading => exact h.notReading hno torn hreading
    refine ((h.fileBefore hno).step hstep hread).mono fun file hfile => ?_
    exact hfile.mono hgrows fun _ _ => id
  · by_cases hread : event = .read uri
    · subst hread
      refine (fileOf_read hstep h.untorn h.documented).mono fun file hfile => ?_
      exact hfile.mono hgrows fun _ _ hlast => hlast n text hn
    · by_cases hstarted : .start uri ∈ events
      · refine ((h.fileSince hstarted).step hstep hread).mono fun file hfile => ?_
        exact hfile.mono hgrows fun _ _ => id
      · have hevent : event = .start uri := by
          rcases List.mem_append.mp hstart with hbefore | hlast
          · exact absurd hbefore hstarted
          · exact (List.mem_singleton.mp hlast).symm
        subst hevent
        intro file hfile
        cases hstep
        cases hfile
  · rw [reparsed_concat, not_or] at hreparsed
    by_cases hevent : event = .installed uri
    · subst hevent
      have hstart : .start uri ∉ events := fun hstart => hreparsed.2 ⟨hstart, rfl⟩
      refine treeOf_installed hstep (h.fileBefore hstart) fun tree hfile hparses => Or.inr ?_
      exact (hfile.parse hparses).mono hgrows fun _ _ => id
    · refine ((h.treeBefore hreparsed.1).step hstep hevent fun _ => Or.inl rfl).mono
        fun tree htree => ?_
      exact htree.imp_right fun htree => htree.mono hgrows fun _ _ => id
  · by_cases hevent : event = .installed uri
    · subst hevent
      have hstart : .start uri ∈ events := by
        rcases reparsed_concat.mp hreparsed with hbefore | ⟨hstart, -⟩
        · exact hbefore.subset List.mem_cons_self
        · exact hstart
      refine treeOf_installed hstep (h.fileSince hstart) fun tree hfile hparses => ?_
      exact (hfile.parse hparses).mono hgrows fun _ _ => id
    · have hbefore : Reparsed uri events := by
        rcases reparsed_concat.mp hreparsed with hbefore | ⟨-, hlast⟩
        · exact hbefore
        · exact absurd hlast hevent
      refine ((h.treeSince hbefore).step hstep hevent fun hnone => absurd hnone hthere).mono
        fun tree htree => ?_
      exact htree.mono hgrows fun _ _ => id

theorem run_since (hbefore : Run (RaceFree interp) .initial before t)
    (hreceive : RaceFree interp t (.receive message) u)
    (haccepted : u.accepted = t.accepted ++ [(uri, text)])
    (hafter : Run (RaceFree interp) u after s) : s.Since interp uri t.accepted.length after := by
  have hstart := since_accepted (run_readsKnown (run_raceFree hbefore)) (run_faithful hbefore)
    hreceive haccepted
  exact hafter.history (J := fun events s => s.Since interp uri t.accepted.length events) hstart
    fun _ _ _ _ _ ih hstep => ih.step hstep

/-! ## Requests -/

theorem treeNumber_eq_some {n : Nat} : s.treeNumber uri = some n ↔
    ∃ document, s.documents uri = some document ∧ document.trees = n := by
  simp [Server.treeNumber]

theorem treeNumber_update {document : Document} (document' : Document)
    (hdoc : s.documents uri = some document)
    (h : s'.documents = Function.update s.documents uri (some document'))
    (htrees : document'.trees = document.trees) : s'.treeNumber = s.treeNumber := by
  funext uri'
  unfold Server.treeNumber
  rw [h]
  by_cases heq : uri' = uri
  · subst heq
    simp [hdoc, htrees]
  · rw [Function.update_of_ne heq]

/-- A message writes no tree. -/
theorem receive_treeNumber (s : Server) (message : Message) (h : s.treeNumber uri = some n) :
    (s.receive message).treeNumber uri = some n := by
  cases message with
  | didOpen item =>
    show (onDidOpen s item).treeNumber uri = some n
    cases hdoc : s.documents item.uri with
    | some document =>
      have hsame : (onDidOpen s item).documents = s.documents := by simp only [onDidOpen, hdoc]
      unfold Server.treeNumber
      rw [hsame]
      exact h
    | none =>
      have hne : uri ≠ item.uri := by
        rintro rfl
        simp [Server.treeNumber, hdoc] at h
      rw [onDidOpen_new hdoc]
      unfold Server.treeNumber
      dsimp only
      rw [Function.update_of_ne hne]
      exact h
  | didChange uri' version changes =>
    cases hdoc : s.documents uri' with
    | none =>
      rw [(receive_missing (entry_eq_none.mpr hdoc) version changes).1]
      exact h
    | some document =>
      by_cases hone : ∃ change, changes = [change]
      · obtain ⟨change, rfl⟩ := hone
        by_cases hversion : document.item.version < version
        · rw [receive_accepted change hdoc hversion,
            treeNumber_update
              { document with item := { document.item with text := change.text, version } } hdoc rfl rfl]
          exact h
        · rw [receive_didChange_stale (entry_eq_some.mpr ⟨document, hdoc, rfl, rfl⟩) hversion]
          exact h
      · rw [receive_didChange_ignored hone]
        exact h
  | didClose uri' =>
    rcases receive_didClose s uri' with hended | hclose
    · rw [hended]
      exact h
    · unfold onDidClose at hclose
      split at hclose
      · cases hclose
      · next document hdoc =>
        injection hclose with hserver
        rw [treeNumber_update { document with state := .CLOSED } hdoc (by rw [← hserver]) rfl]
        exact h
  | request request => exact h
  | exit => exact h

/-- Only a `Reparse` of the document writes a tree, and with it the next number. -/
theorem step_treeNumber (h : ServerStep interp s event s') (hn : s.treeNumber uri = some n) :
    event ≠ .installed uri ∧ s'.treeNumber uri = some n ∨
      event = .installed uri ∧ s'.treeNumber uri = some (n + 1) := by
  cases h with
  | receive message => exact Or.inl ⟨by simp, receive_treeNumber s message hn⟩
  | installed uri' file parsed document _ _ _ hdoc =>
    by_cases heq : uri = uri'
    · subst heq
      obtain ⟨document', hdoc', rfl⟩ := treeNumber_eq_some.mp hn
      cases hdoc.symm.trans hdoc'
      exact Or.inr ⟨rfl, by simp [Server.treeNumber, Document.install]⟩
    · refine Or.inl ⟨by simpa using Ne.symm heq, ?_⟩
      unfold Server.treeNumber
      dsimp only
      rw [Function.update_of_ne heq]
      exact hn
  | blocked | start | read | failed | cursor | noCursor | reply | noReply | written =>
    exact Or.inl ⟨by simp, hn⟩

theorem getLookup_eq_ok {lookup : Lookup} : getLookup s request = .ok lookup ↔
    ∃ document, s.documents request.uri = some document ∧
      findPositionInScript { line := request.position.line, column := request.position.character }
        document.script = .ok lookup.cursor ∧
      lookup.request = request ∧ lookup.tree = document.tree ∧ lookup.number = document.trees := by
  unfold getLookup getCursor
  cases hdoc : s.documents request.uri with
  | none => simp [throw, throwThe, MonadExceptOf.throw]
  | some document =>
    dsimp only
    rw [bind_eq_ok]
    constructor
    · rintro ⟨cursor, hfind, hlookup⟩
      cases hlookup
      exact ⟨document, rfl, hfind, rfl, rfl, rfl⟩
    · rintro ⟨_, hsame, hfind, rfl, htree, hnumber⟩
      cases hsame
      refine ⟨lookup.cursor, hfind, ?_⟩
      rw [← htree, ← hnumber]
      rfl

/-- Where a lookup is answered, its pointers are still good. -/
theorem lookupAnswer_eq_ok {lookup : Lookup} {remains : Remains} {index : Index} :
    lookup.answer s remains = .ok (reply, index) ↔
      (lookup.cursor.Points → s.treeNumber lookup.request.uri = some lookup.number) ∧
      ∃ found, lookup.request.answer s.index (lookup.cursor.read lookup.tree remains) =
        .ok (found, index) ∧ reply = found.read remains := by
  unfold Lookup.answer
  by_cases hgone : lookup.cursor.Points ∧ s.treeNumber lookup.request.uri ≠ some lookup.number
  · rw [if_pos hgone]
    exact ⟨fun h => (nomatch h), fun h => absurd (h.1 hgone.1) hgone.2⟩
  · rw [if_neg hgone]
    have hgood : lookup.cursor.Points → s.treeNumber lookup.request.uri = some lookup.number :=
      fun hpoints => by_contra fun hne => hgone ⟨hpoints, hne⟩
    rw [bind_eq_ok]
    constructor
    · rintro ⟨⟨found, index'⟩, hfound, hreply⟩
      cases hreply
      exact ⟨hgood, found, hfound, rfl⟩
    · rintro ⟨-, found, hfound, rfl⟩
      exact ⟨(found, index), hfound, rfl⟩

/-- A handler that has no pointers to follow rejects the request. -/
theorem answer_of_not_points {cursor : ScriptCursor} {index : Index} (h : ¬cursor.Points) :
    request.answer index cursor = .ok (.reject 101 (bytes "Invalid position"), index) := by
  have hreject : ∀ keep, answer keep index cursor =
      .ok (.reject 101 (bytes "Invalid position"), index) := by
    intro keep
    unfold answer
    split
    · next hcall hword => exact absurd ⟨by rw [hcall]; rfl, by rw [hword]; rfl⟩ h
    · rfl
  unfold Request.answer
  cases request.method with
  | references => exact hreject _
  | definition => exact hreject _

theorem read_points {cursor : ScriptCursor} {remains : Remains} :
    (cursor.read tree remains).Points ↔ cursor.Points := by
  simp [ScriptCursor.Points, ScriptCursor.read]

theorem read_of_hasContents {cursor : ScriptCursor} {remains : Remains} (h : tree.HasContents) :
    cursor.read tree remains = cursor := by
  have hread : (fun word : Word => { word with text := tree.read remains word.text }) = id := by
    funext word
    simp only [Tree.read, if_pos h]
    cases word
    rfl
  unfold ScriptCursor.read
  rw [hread, Option.map_id, id]

/-- The handlers that wait are spawned by a message, those that have their cursor went through
`GetCursor`. -/
theorem step_handlers (h : ServerStep interp s event s') :
    (∀ request ∈ s'.requests, request ∈ s.requests ∨ event = .receive (.request request)) ∧
    ∀ lookup ∈ s'.cursors, lookup ∈ s.cursors ∨
      event = .cursor lookup.request lookup.tree ∧ getLookup s lookup.request = .ok lookup ∧
        s'.documents = s.documents := by
  cases h with
  | receive message =>
    rcases receive_rest s message with hsame | ⟨request, rfl, hreceive⟩
    · exact ⟨fun request hmem => Or.inl (hsame.requests ▸ hmem),
        fun lookup hmem => Or.inl (hsame.cursors ▸ hmem)⟩
    · rw [hreceive]
      refine ⟨fun request' hmem => ?_, fun _ => Or.inl⟩
      rcases List.mem_append.mp hmem with hmem | hmem
      · exact Or.inl hmem
      · exact Or.inr (by rw [List.mem_singleton.mp hmem])
  | blocked | start | read | installed | failed | written => exact ⟨fun _ => Or.inl, fun _ => Or.inl⟩
  | cursor before after lookup _ hrequests hlookup =>
    refine ⟨fun request' hmem => Or.inl ?_, fun lookup' hmem => ?_⟩
    · rw [hrequests]
      exact List.mem_append.mpr ((List.mem_append.mp hmem).imp_right (List.mem_cons_of_mem _))
    · rcases List.mem_append.mp hmem with hmem | hmem
      · exact Or.inl hmem
      · obtain rfl := List.mem_singleton.mp hmem
        exact Or.inr ⟨rfl, hlookup, rfl⟩
  | noCursor before after request _ _ hrequests =>
    refine ⟨fun request' hmem => Or.inl ?_, fun _ => Or.inl⟩
    rw [hrequests]
    exact List.mem_append.mpr ((List.mem_append.mp hmem).imp_right (List.mem_cons_of_mem _))
  | reply before after lookup _ _ _ _ hcursors | noReply before after lookup _ _ _ hcursors =>
    refine ⟨fun _ => Or.inl, fun lookup' hmem => Or.inl ?_⟩
    rw [hcursors]
    exact List.mem_append.mpr ((List.mem_append.mp hmem).imp_right (List.mem_cons_of_mem _))

/-- A handler has found its cursor in this tree. A tree that was written since has a higher number. -/
structure Lookup.Found (lookup : Lookup) (between : List ServerEvent) (s : Server) : Prop where
  cursor : findPositionInScript
    { line := lookup.request.position.line, column := lookup.request.position.character }
    lookup.tree.script = .ok lookup.cursor
  number : ∃ n, s.treeNumber lookup.request.uri = some n ∧ lookup.number ≤ n ∧
    (.installed lookup.request.uri ∈ between → lookup.number < n)

theorem Lookup.Found.step {lookup : Lookup} (h : lookup.Found events s)
    (hstep : ServerStep interp s event s') : lookup.Found (events ++ [event]) s' := by
  refine ⟨h.cursor, ?_⟩
  obtain ⟨n, hn, hle, hlt⟩ := h.number
  rcases step_treeNumber hstep hn with ⟨hevent, hsame⟩ | ⟨-, hnext⟩
  · refine ⟨n, hsame, hle, fun hmem => ?_⟩
    rcases List.mem_append.mp hmem with hbefore | hlast
    · exact hlt hbefore
    · exact absurd (List.mem_singleton.mp hlast).symm hevent
  · exact ⟨n + 1, hnext, by omega, fun _ => by omega⟩

/-- Where the handlers come from that wait and that have their cursor. -/
structure Server.Handled (events : List ServerEvent) (s : Server) : Prop where
  requests : ∀ request ∈ s.requests, .receive (.request request) ∈ events
  cursors : ∀ lookup ∈ s.cursors, ∃ mid between,
    events = mid ++ .cursor lookup.request lookup.tree :: between ∧ lookup.Found between s

theorem handled_initial : Server.initial.Handled [] where
  requests _ h := nomatch h
  cursors _ h := nomatch h

theorem Server.Handled.step (h : s.Handled events) (hstep : ServerStep interp s event s') :
    s'.Handled (events ++ [event]) := by
  obtain ⟨hrequests, hcursors⟩ := step_handlers hstep
  refine ⟨fun request hmem => ?_, fun lookup hmem => ?_⟩
  · rcases hrequests request hmem with hbefore | rfl
    · exact List.mem_append_left _ (h.requests request hbefore)
    · exact List.mem_append_right _ (List.mem_singleton_self _)
  · rcases hcursors lookup hmem with hbefore | ⟨rfl, hlookup, hsame⟩
    · obtain ⟨mid, between, rfl, hfound⟩ := h.cursors lookup hbefore
      exact ⟨mid, between ++ [event], by simp, hfound.step hstep⟩
    · obtain ⟨document, hdoc, hfind, -, htree, hnumber⟩ := getLookup_eq_ok.mp hlookup
      refine ⟨events, [], rfl, ?_, lookup.number, ?_, Nat.le_refl _, fun h => nomatch h⟩
      · rw [htree]
        exact hfind
      · exact treeNumber_eq_some.mpr ⟨document, hsame ▸ hdoc, hnumber.symm⟩

theorem run_handled (h : Run (ServerStep interp) .initial events s) : s.Handled events :=
  h.history (J := fun events s => s.Handled events) handled_initial
    fun _ _ _ _ _ ih hstep => ih.step hstep

/-- `GetCursor` runs for a request that was received before. -/
theorem received_of_cursor (h : Run (ServerStep interp) .initial events s)
    (hcursor : .cursor request tree ∈ events) : .receive (.request request) ∈ events := by
  obtain ⟨before, after, rfl⟩ := List.append_of_mem hcursor
  obtain ⟨t, u, hbefore, hstep, -⟩ := h.split_cons
  cases hstep with
  | cursor waiting rest lookup _ hrequests =>
    have hmem : lookup.request ∈ t.requests := by simp [hrequests]
    exact List.mem_append_left _ ((run_handled hbefore).requests _ hmem)

/-- The reply is what the handler of a request makes, with some index, of the cursor that it finds in
the tree. The words of the cursor are read from the text of the tree if that has stayed where it was,
and the names of files are left open. -/
def Tree.Answers (tree : Tree) (request : Request) (reply : Reply) : Prop :=
  ∃ cursor index index' remains found,
    findPositionInScript { line := request.position.line, column := request.position.character }
      tree.script = .ok cursor ∧
    request.answer index (cursor.read tree remains) = .ok (found, index') ∧
    reply = found.read remains

/-- A request is answered from the tree that `GetCursor` finds for it, and that is still the tree of
the document then, unless the request is rejected. -/
theorem cursor_of_reply (h : Run (ServerStep interp) .initial events s)
    (hstep : ServerStep interp s (.reply request tree reply) s') :
    ∃ mid between, events = mid ++ .cursor request tree :: between ∧ tree.Answers request reply ∧
      (.installed request.uri ∉ between ∨
        reply = .reject 101 (bytes "Invalid position")) := by
  cases hstep with
  | reply before after lookup remains _ index _ hcursors hanswer =>
    have hmem : lookup ∈ s.cursors := by simp [hcursors]
    obtain ⟨mid, between, hevents, hfound⟩ := (run_handled h).cursors lookup hmem
    obtain ⟨hgood, found, hanswers, rfl⟩ := lookupAnswer_eq_ok.mp hanswer
    refine ⟨mid, between, hevents,
      ⟨lookup.cursor, s.index, index, remains, found, hfound.cursor, hanswers, rfl⟩, ?_⟩
    by_cases hpoints : lookup.cursor.Points
    · left
      intro hinstalled
      obtain ⟨n, hn, -, hlt⟩ := hfound.number
      cases hn.symm.trans (hgood hpoints)
      exact absurd (hlt hinstalled) (Nat.lt_irrefl _)
    · right
      rw [answer_of_not_points (mt read_points.mp hpoints)] at hanswers
      cases hanswers
      rfl

/-- A request that is received after a text of its document was accepted is answered from the tree of
that text or of a later one exactly where a `Reparse` that started after the text was accepted has
written its result before `GetCursor` runs; otherwise from the initial tree or that of an older text. -/
theorem answer_tree (hbefore : Run (RaceFree interp) .initial before t)
    (hreceive : RaceFree interp t (.receive message) u)
    (haccepted : u.accepted = t.accepted ++ [(uri, text)])
    (hafter : Run (RaceFree interp) u after s) (hrequest : request.uri = uri)
    (hnew : .receive (.request request) ∉ before) (hreply : .reply request tree reply ∈ after) :
    ∃ mid between rest,
      after = mid ++ .cursor request tree :: between ++ .reply request tree reply :: rest ∧
      (Reparsed uri mid → TreeFrom interp s.accepted uri (t.accepted.length ≤ ·) tree) ∧
      (¬Reparsed uri mid →
        tree = .initial ∨ TreeFrom interp s.accepted uri (· < t.accepted.length) tree) ∧
      tree.Answers request reply ∧
      (.installed uri ∉ between ∨ reply = .reject 101 (bytes "Invalid position")) := by
  obtain ⟨first, rest, rfl⟩ := List.append_of_mem hreply
  obtain ⟨v, w, hfirst, hanswer, hrest⟩ := hafter.split_cons
  have hwhole : Run (ServerStep interp) .initial (before ++ .receive message :: first) v :=
    run_raceFree (hbefore.append (Run.cons hreceive hfirst))
  obtain ⟨mid', between, heq, hanswers, hstays⟩ := cursor_of_reply hwhole hanswer.1
  -- `GetCursor` runs after the text was accepted, as the request came after that
  have hlater : ∃ mid, mid' = before ++ .receive message :: mid := by
    rcases List.append_eq_append_iff.mp heq with ⟨mid, rfl, hmid⟩ | ⟨mid, rfl, hmid⟩
    · cases mid with
      | nil => cases hmid
      | cons event mid =>
        cases hmid
        exact ⟨mid, rfl⟩
    · cases mid with
      | nil => cases hmid
      | cons event mid =>
        cases hmid
        have hmem := List.mem_append_right mid' (List.mem_cons_self (a := .cursor request tree) (l := mid))
        exact absurd (received_of_cursor (run_raceFree hbefore) hmem) hnew
  obtain ⟨mid, rfl⟩ := hlater
  obtain rfl : first = mid ++ .cursor request tree :: between := by simpa using heq
  obtain ⟨x, y, hmid, hstep, hlast⟩ := hfirst.split_cons
  have hsince := run_since hbefore hreceive haccepted hmid
  have hgrows : x.accepted <+: s.accepted :=
    run_accepted (run_raceFree ((Run.cons hstep hlast).append (Run.cons hanswer hrest)))
  obtain ⟨item, hitem⟩ : ∃ item, x.parsed uri = some (item, tree) := by
    cases hstep.1 with
    | cursor waiting rest lookup _ _ hlookup =>
      obtain ⟨document, hdoc, -, -, htree, -⟩ := getLookup_eq_ok.mp hlookup
      rw [hrequest] at hdoc
      exact ⟨document.item, parsed_eq_some.mpr ⟨document, hdoc, rfl, htree.symm⟩⟩
  refine ⟨mid, between, rest, by simp, ?_, ?_, hanswers, hrequest ▸ hstays⟩
  · intro hreparsed
    exact (hsince.treeSince hreparsed item tree hitem).mono hgrows fun _ _ => id
  · intro hreparsed
    exact (hsince.treeBefore hreparsed item tree hitem).imp_right fun htree =>
      htree.mono hgrows fun _ _ => id

/-! ## A request that is answered before and one that is answered after the `Reparse` -/

theorem raceFree (h : ServerStep interp s event s')
    (hevent : ∀ uri version changes, event ≠ .receive (.didChange uri version changes)) :
    RaceFree interp s event s' := by
  refine ⟨h, ?_⟩
  rintro ⟨uri, version, changes, hchange, -⟩
  exact hevent uri version changes hchange

/-- The state after the first `Reparse` that waits. -/
def Server.install (s : Server) (uri : Str) (queue : List Str) (document : Document)
    (parsed : Parsed) : Server :=
  { s with
    indexQueue := queue
    reparsing := none
    documents := Function.update s.documents uri (some (document.install parsed))
    index := parsed.index }

theorem install_run {queue : List Str} {document : Document} {parsed : Parsed}
    (hidle : s.reparsing = none) (hqueue : s.indexQueue = uri :: queue) (hreplying : s.replying = 0)
    (hdoc : s.documents uri = some document)
    (hreparse : reparse interp (makeSourceFile document.item.uri document.item.text) = .ok parsed) :
    Run (RaceFree interp) s [.start uri, .read uri, .installed uri]
      (s.install uri queue document parsed) :=
  .cons (raceFree (.start s uri queue document hidle hqueue hdoc) (by simp))
    (.cons (raceFree (.read _ uri false document _ rfl hdoc fun _ => rfl) (by simp))
      (.single (raceFree (.installed _ uri _ parsed document rfl hreplying hreparse hdoc) (by simp))))

theorem install_documents (s : Server) (uri : Str) (queue : List Str) (document : Document)
    (parsed : Parsed) : (s.install uri queue document parsed).documents uri =
      some (document.install parsed) :=
  Function.update_self ..

theorem install_documents_other {uri' : Str} (h : uri' ≠ uri) (s : Server) (queue : List Str)
    (document : Document) (parsed : Parsed) :
    (s.install uri queue document parsed).documents uri' = s.documents uri' :=
  Function.update_of_ne h _ _

/-- A request that is answered as soon as it is received. -/
theorem answer_run (interp : TclInterp) (document : Document) (remains : Remains)
    {cursor : ScriptCursor} {index : Index} (hlistening : s.listening = true)
    (hblocked : s.blocked = false) (hdoc : s.documents request.uri = some document)
    (hfind : findPositionInScript
      { line := request.position.line, column := request.position.character } document.script =
      .ok cursor)
    (hanswer : request.answer s.index (cursor.read document.tree remains) = .ok (reply, index)) :
    ∃ s', s'.accepted = s.accepted ∧ Run (RaceFree interp) s
      [.receive (.request request), .cursor request document.tree,
        .reply request document.tree (reply.read remains)] s' := by
  let lookup : Lookup := { request, tree := document.tree, number := document.trees, cursor }
  have hlookup : getLookup s request = .ok lookup :=
    getLookup_eq_ok.mpr ⟨document, hdoc, hfind, rfl, rfl, rfl⟩
  have hnumber : s.treeNumber request.uri = some document.trees :=
    treeNumber_eq_some.mpr ⟨document, hdoc, rfl⟩
  have hreply : lookup.answer s remains = .ok (reply.read remains, index) :=
    lookupAnswer_eq_ok.mpr ⟨fun _ => hnumber, reply, hanswer, rfl⟩
  refine ⟨_, ?_, .cons (raceFree (.receive s _ hlistening (by simp [Message.locks])) (by simp))
    (.cons (raceFree (.cursor _ s.requests [] lookup hblocked rfl hlookup) (by simp))
      (.single (raceFree (.reply _ s.cursors [] lookup remains _ index hblocked rfl hreply) (by simp))))⟩
  rfl

/-- The definition of what is at the first character of the document. -/
def definitionOfF : Request :=
  { method := .definition, id := 1, uri := bytes "u", position := { line := 0, character := 0 } }

theorem openF_documents (version : Int) (text : String) :
    (Server.initial.receive (.didOpen (openF version text))).documents (bytes "u") =
      some (newDocument (openF version text)) := by
  show Function.update (fun _ => none) (bytes "u") (some (newDocument (openF version text)))
    (bytes "u") = _
  exact Function.update_self ..

/-- Memory that is gone and reads as zeros. -/
def zeroed : Remains := { contents := fun _ => 0, fileName := fun _ => [] }

/-- The document is opened, and a request for it answered from the initial tree. -/
theorem answer_initial : ∃ u s reply,
    RaceFree oneWordInterp .initial (.receive (.didOpen (openF 1 "reloadEverything"))) u ∧
    u.accepted = Server.initial.accepted ++ [(bytes "u", bytes "reloadEverything")] ∧
    Run (RaceFree oneWordInterp) u
      [.receive (.request definitionOfF), .cursor definitionOfF .initial,
        .reply definitionOfF .initial reply] s ∧
    ¬TreeFrom oneWordInterp s.accepted (bytes "u") (Server.initial.accepted.length ≤ ·) .initial := by
  have hreturns : returns (do
      let cursor ← findPositionInScript { line := 0, column := 0 } .initial
      definitionOfF.answer makeIndex (cursor.read .initial zeroed)) (fun _ => true) = true := by
    decide +kernel
  obtain ⟨⟨reply, index⟩, hrun, -⟩ := exists_of_returns hreturns
  obtain ⟨cursor, hfind, hanswer⟩ := bind_eq_ok.mp hrun
  have hopened : (Server.initial.receive (.didOpen (openF 1 "reloadEverything"))).documents
      definitionOfF.uri = _ := openF_documents 1 "reloadEverything"
  obtain ⟨s, haccepted, hanswered⟩ := answer_run oneWordInterp _ zeroed rfl rfl hopened hfind hanswer
  refine ⟨_, s, _, raceFree (.receive _ _ rfl (by simp [Message.locks])) (by simp), rfl, hanswered, ?_⟩
  rintro ⟨k, text, -, hk, hfile, -⟩
  rw [haccepted] at hk
  cases List.mem_singleton.mp (List.mem_of_getElem? hk)
  -- the file of the text has the URI as its name, that of the initial tree has none
  have hname : Tree.initial.file.fileName = bytes "u" := by rw [hfile]; rfl
  exact absurd hname (by decide)

/-- The events after the document is opened, with the request answered after the `Reparse`. -/
def reparsedThenAnswered (tree : Tree) (reply : Reply) : List ServerEvent :=
  [.start (bytes "u"), .read (bytes "u"), .installed (bytes "u"), .receive (.request definitionOfF),
    .cursor definitionOfF tree, .reply definitionOfF tree reply]

theorem answer_tree_reparsed : ∃ u s tree reply,
    Run (RaceFree oneWordInterp) u (reparsedThenAnswered tree reply) s ∧
    ∃ mid between rest, reparsedThenAnswered tree reply =
        mid ++ .cursor definitionOfF tree :: between ++ .reply definitionOfF tree reply :: rest ∧
      (Reparsed (bytes "u") mid → TreeFrom oneWordInterp s.accepted (bytes "u") (0 ≤ ·) tree) ∧
      (¬Reparsed (bytes "u") mid →
        tree = .initial ∨ TreeFrom oneWordInterp s.accepted (bytes "u") (· < 0) tree) ∧
      tree.Answers definitionOfF reply ∧
      (.installed (bytes "u") ∉ between ∨ reply = .reject 101 (bytes "Invalid position")) := by
  have hreturns : returns (do
      let parsed ← reparse oneWordInterp (makeSourceFile (bytes "u") (bytes "reloadEverything"))
      let cursor ← findPositionInScript { line := 0, column := 0 } parsed.script
      definitionOfF.answer parsed.index (cursor.read parsed.tree zeroed)) (fun _ => true) = true := by
    decide +kernel
  obtain ⟨⟨reply, index⟩, hrun, -⟩ := exists_of_returns hreturns
  obtain ⟨parsed, hreparse, hrun⟩ := bind_eq_ok.mp hrun
  obtain ⟨cursor, hfind, hanswer⟩ := bind_eq_ok.mp hrun
  set u := Server.initial.receive (.didOpen (openF 1 "reloadEverything"))
  set installed := u.install (bytes "u") [] (newDocument (openF 1 "reloadEverything")) parsed
  have hreparsed : Run (RaceFree oneWordInterp) u
      [.start (bytes "u"), .read (bytes "u"), .installed (bytes "u")] installed :=
    install_run rfl rfl rfl (openF_documents 1 "reloadEverything") hreparse
  have hdoc : installed.documents definitionOfF.uri = _ := install_documents u _ [] _ parsed
  obtain ⟨s, -, hanswered⟩ := answer_run oneWordInterp _ zeroed rfl rfl hdoc hfind hanswer
  have hafter : Run (RaceFree oneWordInterp) u (reparsedThenAnswered parsed.tree _) s :=
    hreparsed.append hanswered
  have hopen : RaceFree oneWordInterp .initial
      (.receive (.didOpen (openF 1 "reloadEverything"))) u :=
    raceFree (.receive _ _ rfl (by simp [Message.locks])) (by simp)
  exact ⟨u, s, parsed.tree, _, hafter,
    answer_tree .nil hopen rfl hafter rfl List.not_mem_nil (by simp [reparsedThenAnswered])⟩

end TclAnalyzer
