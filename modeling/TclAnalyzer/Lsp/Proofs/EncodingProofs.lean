import TclAnalyzer.Lsp.Encoding
import TclAnalyzer.Lsp.Proofs.WireProofs

/-!
# Messages arrive as they are sent

The conversions from JSON undo the ones to JSON, up to the width of the numbers.
-/

namespace TclAnalyzer

/-! ## Numbers -/

/-- An `int64_t` keeps the lowest 64 bits of a number. -/
theorem getInteger_number (i : Int) : (Json.number i).getInteger = .ok (i.bmod (2 ^ 64)) := by
  unfold Json.number
  split_ifs with h
  · show Except.ok ((i.toNat : Int).bmod (2 ^ 64)) = _
    rw [Int.toNat_of_nonneg h]
  · rfl

theorem bmod_eq_iff (i : Int) : i.bmod (2 ^ 64) = i ↔ VersionFits i := by
  unfold VersionFits
  rw [Int.bmod_eq_iff (by decide)]
  omega

/-- A `uint64_t` keeps the lowest 64 bits too. -/
theorem getUnsigned_unsigned (n : Nat) : (Json.unsigned n).getUnsigned = .ok (n % 2 ^ 64) := by
  show Except.ok (((n : Int) % 2 ^ 64).toNat) = _
  congr 1

theorem mod_eq_iff (n : Nat) : n % 2 ^ 64 = n ↔ n < 2 ^ 64 :=
  ⟨fun h => h ▸ Nat.mod_lt n (by decide), Nat.mod_eq_of_lt⟩

/-! ## What arrives -/

/-- The position that arrives for one. -/
def Position.reduced (position : Position) : Position :=
  { line := position.line % 2 ^ 64, character := position.character % 2 ^ 64 }

def Range.reduced (range : Range) : Range :=
  { start := range.start.reduced, stop := range.stop.reduced }

def TextDocumentContentChangeEvent.reduced (change : TextDocumentContentChangeEvent) :
    TextDocumentContentChangeEvent :=
  { range := change.range.map Range.reduced, text := change.text }

/-- The conversion from JSON after the one to JSON, for a position. -/
theorem position_fromJson_toJson (position : Position) :
    Position.fromJson position.toJson = .ok position.reduced :=
  position_eq_ok.mpr ⟨⟨_, rfl, getUnsigned_unsigned _⟩, ⟨_, rfl, getUnsigned_unsigned _⟩⟩

theorem range_fromJson_toJson (range : Range) : Range.fromJson range.toJson = .ok range.reduced := by
  have hstart := position_fromJson_toJson range.start
  have hstop := position_fromJson_toJson range.stop
  show (Position.fromJson range.start.toJson >>= fun start =>
    Position.fromJson range.stop.toJson >>= fun stop => .ok (Range.mk start stop)) = _
  rw [hstart, hstop]
  rfl

/-- A change keeps its text, and its range if it has one. -/
theorem change_fromJson_toJson (change : TextDocumentContentChangeEvent) :
    TextDocumentContentChangeEvent.fromJson change.toJson = .ok change.reduced := by
  obtain ⟨range, text⟩ := change
  cases range with
  | none => rfl
  | some range =>
    show ((some <$> Range.fromJson range.toJson) >>= fun range =>
      .ok (TextDocumentContentChangeEvent.mk range text)) = _
    rw [range_fromJson_toJson]
    rfl

theorem changes_fromJson_toJson (changes : List TextDocumentContentChangeEvent) :
    (Json.array (changes.map TextDocumentContentChangeEvent.toJson)).getArray
      TextDocumentContentChangeEvent.fromJson =
      .ok (changes.map TextDocumentContentChangeEvent.reduced) := by
  show (changes.map TextDocumentContentChangeEvent.toJson).mapM
    TextDocumentContentChangeEvent.fromJson = _
  induction changes with
  | nil => rfl
  | cons change changes ih =>
    rw [List.map_cons, List.mapM_cons, change_fromJson_toJson, ih]
    rfl

/-- Of an opened document only the version can change on the way. -/
theorem item_fromJson_toJson (item : TextDocumentItem) : TextDocumentItem.fromJson item.toJson =
    .ok { item with version := item.version.bmod (2 ^ 64) } := by
  show ((Json.number item.version).getInteger >>= fun version =>
    .ok (TextDocumentItem.mk item.uri item.languageId version item.text)) = _
  rw [getInteger_number]
  rfl

theorem versioned_fromJson_toJson (uri : Str) (version : Int) :
    versionedTextDocumentIdentifier (versionedTextDocumentIdentifierToJson uri version) =
      .ok (uri, version.bmod (2 ^ 64)) := by
  show ((Json.number version).getInteger >>= fun version => .ok (uri, version)) = _
  rw [getInteger_number]
  rfl

/-- The message that arrives for one. -/
def Message.reduced : Message → Message
  | .didOpen item => .didOpen { item with version := item.version.bmod (2 ^ 64) }
  | .didChange uri version contentChanges => .didChange uri (version.bmod (2 ^ 64))
      (contentChanges.map TextDocumentContentChangeEvent.reduced)
  | .request r => .request { r with position := r.position.reduced }
  | .didClose uri => .didClose uri
  | .exit => .exit

/-- A request arrives with either value of `includeDeclaration`. -/
theorem request_arrives (r : Request) (includeDeclaration : Bool) :
    r.method.params (r.paramsToJson includeDeclaration) = .ok (r.uri, r.position.reduced) := by
  obtain ⟨method, id, uri, position⟩ := r
  refine requestParams_eq_ok.mpr ?_
  cases method with
  | references =>
    exact ⟨⟨_, rfl, _, rfl, includeDeclaration, rfl⟩, ⟨_, rfl, rfl⟩, _, rfl, ⟨_, rfl, getUnsigned_unsigned _⟩,
      ⟨_, rfl, getUnsigned_unsigned _⟩⟩
  | definition =>
    exact ⟨trivial, ⟨_, rfl, rfl⟩, _, rfl, ⟨_, rfl, getUnsigned_unsigned _⟩,
      ⟨_, rfl, getUnsigned_unsigned _⟩⟩

theorem params_of_find {α : Type} {message params : Json} {get : Json → Except Fault α} {a : α}
    (h : message.find (bytes "params") = some params) (hget : get params = .ok a) :
    message.params get = some a :=
  params_eq_some.mpr (bind_eq_ok.mpr ⟨params, Json.at_eq_ok.mpr h, hget⟩)

/-- Every message of a client is converted, whatever its numbers are. -/
theorem message_arrives (m : Message) (includeDeclaration : Bool) (n : Nat) :
    (m.toJson includeDeclaration).toMessage n = some (m.renumber n).reduced := by
  cases m with
  | didOpen item =>
    have hparams : didOpenParams (.object [(bytes "textDocument", item.toJson)]) = _ :=
      item_fromJson_toJson item
    rw [toMessage_didOpen rfl, params_of_find rfl hparams]
    rfl
  | didChange uri version contentChanges =>
    have hparams : didChangeParams (.object
        [(bytes "textDocument", versionedTextDocumentIdentifierToJson uri version),
          (bytes "contentChanges", .array (contentChanges.map TextDocumentContentChangeEvent.toJson))]) =
        .ok (uri, version.bmod (2 ^ 64),
          contentChanges.map TextDocumentContentChangeEvent.reduced) := by
      unfold didChangeParams
      refine bind_eq_ok.mpr ⟨_, Json.at_eq_ok.mpr rfl, ?_⟩
      refine bind_eq_ok.mpr ⟨_, versioned_fromJson_toJson uri version, ?_⟩
      refine bind_eq_ok.mpr ⟨_, Json.at_eq_ok.mpr rfl, ?_⟩
      exact bind_eq_ok.mpr ⟨_, changes_fromJson_toJson contentChanges, rfl⟩
    rw [toMessage_didChange rfl, params_of_find rfl hparams]
    rfl
  | didClose uri => rfl
  | request r =>
    rw [toMessage_request rfl, params_of_find rfl (request_arrives r includeDeclaration)]
    rfl
  | exit => exact toMessage_exit rfl

/-! ## When it is the same -/

theorem position_reduced_eq_iff (position : Position) : position.reduced = position ↔ position.Fits := by
  unfold Position.Fits
  rw [← mod_eq_iff, ← mod_eq_iff, Position.mk.injEq]
  rfl

theorem range_reduced_eq_iff (range : Range) : range.reduced = range ↔ range.Fits := by
  unfold Range.Fits
  rw [← position_reduced_eq_iff, ← position_reduced_eq_iff, Range.mk.injEq]
  rfl

theorem change_reduced_eq_iff (change : TextDocumentContentChangeEvent) :
    change.reduced = change ↔ ∀ range ∈ change.range, range.Fits := by
  obtain ⟨range, text⟩ := change
  cases range with
  | none => simp [TextDocumentContentChangeEvent.reduced]
  | some range =>
    simp [TextDocumentContentChangeEvent.reduced, range_reduced_eq_iff]

theorem map_eq_self_iff {α : Type} {f : α → α} {l : List α} : l.map f = l ↔ ∀ a ∈ l, f a = a := by
  conv_lhs => rhs; rw [← List.map_id l]
  exact List.map_inj_left

/-- A message arrives as it is exactly when its numbers fit. -/
theorem reduced_eq_iff (m : Message) : m.reduced = m ↔ m.Fits := by
  cases m with
  | didOpen item =>
    show Message.didOpen { item with version := item.version.bmod (2 ^ 64) } = _ ↔ VersionFits _
    rw [← bmod_eq_iff, Message.didOpen.injEq]
    exact ⟨congrArg TextDocumentItem.version, fun h => by rw [h]⟩
  | didChange uri version contentChanges =>
    show Message.didChange _ _ _ = _ ↔ VersionFits _ ∧ _
    rw [← bmod_eq_iff, Message.didChange.injEq, map_eq_self_iff]
    simp [change_reduced_eq_iff]
  | request r =>
    show Message.request { r with position := r.position.reduced } = _ ↔ r.position.Fits
    rw [← position_reduced_eq_iff, Message.request.injEq]
    exact ⟨congrArg Request.position, fun h => by rw [h]⟩
  | didClose uri => exact iff_of_true rfl trivial
  | exit => exact iff_of_true rfl trivial

theorem fits_renumber (m : Message) (n : Nat) : (m.renumber n).Fits ↔ m.Fits := by
  cases m <;> rfl

/-- A message that a client sends is what the server receives, exactly when its numbers are in the
ranges of their types. -/
theorem toMessage_toJson_iff (m : Message) (includeDeclaration : Bool) (n : Nat) :
    (m.toJson includeDeclaration).toMessage n = some (m.renumber n) ↔ m.Fits := by
  rw [message_arrives, Option.some.injEq, reduced_eq_iff, fits_renumber]

end TclAnalyzer
