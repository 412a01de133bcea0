import TclAnalyzer.Lsp.Answerable

/-!
# Conversions of parameters

A conversion succeeds exactly on the shapes of `Answerable`.
-/

namespace TclAnalyzer

variable {j : Json} {message params : Json}

/-! ## Accessors -/

namespace Json

/-- `at` returns a member that is there and throws otherwise. -/
theorem at_eq_ok {key : Str} {v : Json} : j.at key = .ok v ↔ j.find key = some v := by
  unfold «at»
  cases j.find key with
  | none => simp
  | some v' => simp

/-- `operator[]` on a member that is there. -/
theorem index_eq_ok {key : Str} {v : Json} (h : j.find key = some v) : j.index key = .ok v := by
  unfold find at h
  split at h
  · simp only [index, h]
  · cases h

theorem getString_eq_ok {s : Str} : j.getString = .ok s ↔ j = .string s := by
  cases j <;> simp [getString]

theorem getBoolean_eq_ok {b : Bool} : j.getBoolean = .ok b ↔ j = .boolean b := by
  cases j <;> simp [getBoolean]

/-- The conversion of a member. -/
theorem at_bind_eq_ok {α : Type} {key : String} {get : Json → Except Fault α} {a : α} :
    (j.at (bytes key) >>= get) = .ok a ↔ j.Has key fun v => get v = .ok a := by
  simp only [bind_eq_ok, at_eq_ok, Has]

/-- `value` on an object takes the default for a missing member only. -/
theorem value_of_object {α : Type} (h : j.IsObject) (key : Str) (get : Json → Except Fault α)
    (default : α) :
    j.value key get default = (match j.find key with | some v => get v | none => .ok default) := by
  obtain ⟨members, rfl⟩ := h
  rfl

/-- `value` throws on anything but an object. -/
theorem isObject_of_value {α : Type} {key : Str} {get : Json → Except Fault α} {default a : α}
    (h : j.value key get default = .ok a) : j.IsObject := by
  cases j with
  | object members => exact ⟨members, rfl⟩
  | _ => cases h

theorem mapM_getString {elements : List Json} :
    (∃ l, elements.mapM getString = .ok l) ↔ ∀ e ∈ elements, e.IsString := by
  induction elements with
  | nil => simp
  | cons e elements ih =>
    rw [List.forall_mem_cons, ← ih]
    constructor
    · rintro ⟨l, hl⟩
      rw [List.mapM_cons] at hl
      obtain ⟨s, hs, hl⟩ := bind_eq_ok.mp hl
      obtain ⟨l', hl', -⟩ := bind_eq_ok.mp hl
      exact ⟨⟨s, getString_eq_ok.mp hs⟩, l', hl'⟩
    · rintro ⟨⟨s, rfl⟩, l, hl⟩
      rw [List.mapM_cons]
      exact ⟨s :: l, bind_eq_ok.mpr ⟨s, rfl, bind_eq_ok.mpr ⟨l, hl, rfl⟩⟩⟩

/-- An array of strings, such as `auto_path`. -/
theorem getArray_getString : (∃ l, j.getArray getString = .ok l) ↔ j.IsStrings := by
  constructor
  · rintro ⟨l, hl⟩
    cases j with
    | array elements => exact ⟨elements, rfl, mapM_getString.mp ⟨l, hl⟩⟩
    | _ => cases hl
  · rintro ⟨elements, rfl, h⟩
    exact mapM_getString.mpr h

end Json

/-! ## Parameters -/

/-- A position needs both members, and numbers in them. -/
theorem position_eq_ok {position : Position} : Position.fromJson j = .ok position ↔
    (j.Has "line" fun v => v.getUnsigned = .ok position.line) ∧
      j.Has "character" fun v => v.getUnsigned = .ok position.character := by
  unfold Position.fromJson
  constructor
  · intro h
    obtain ⟨l, hl, h⟩ := bind_eq_ok.mp h
    obtain ⟨line, hline, h⟩ := bind_eq_ok.mp h
    obtain ⟨c, hc, h⟩ := bind_eq_ok.mp h
    obtain ⟨character, hcharacter, h⟩ := bind_eq_ok.mp h
    cases h
    exact ⟨⟨l, Json.at_eq_ok.mp hl, hline⟩, c, Json.at_eq_ok.mp hc, hcharacter⟩
  · rintro ⟨⟨l, hl, hline⟩, c, hc, hcharacter⟩
    refine bind_eq_ok.mpr ⟨l, Json.at_eq_ok.mpr hl, bind_eq_ok.mpr ⟨_, hline, ?_⟩⟩
    exact bind_eq_ok.mpr ⟨c, Json.at_eq_ok.mpr hc, bind_eq_ok.mpr ⟨_, hcharacter, rfl⟩⟩

theorem textDocumentIdentifier_eq_ok {uri : Str} :
    textDocumentIdentifier j = .ok uri ↔ j.find (bytes "uri") = some (.string uri) := by
  unfold textDocumentIdentifier
  rw [Json.at_bind_eq_ok]
  simp only [Json.Has, Json.getString_eq_ok, exists_eq_right]

/-- The parameters of a request for a position. -/
theorem textDocumentPositionParams_eq_ok {uri : Str} {position : Position} :
    textDocumentPositionParams params = .ok (uri, position) ↔ Locates params uri position := by
  unfold textDocumentPositionParams
  constructor
  · intro h
    obtain ⟨d, hd, h⟩ := bind_eq_ok.mp h
    obtain ⟨uri', huri, h⟩ := bind_eq_ok.mp h
    obtain ⟨p, hp, h⟩ := bind_eq_ok.mp h
    obtain ⟨position', hposition, h⟩ := bind_eq_ok.mp h
    cases h
    exact ⟨⟨d, Json.at_eq_ok.mp hd, textDocumentIdentifier_eq_ok.mp huri⟩, p, Json.at_eq_ok.mp hp,
      position_eq_ok.mp hposition⟩
  · rintro ⟨⟨d, hd, huri⟩, p, hp, hposition⟩
    refine bind_eq_ok.mpr ⟨d, Json.at_eq_ok.mpr hd,
      bind_eq_ok.mpr ⟨uri, textDocumentIdentifier_eq_ok.mpr huri, ?_⟩⟩
    exact bind_eq_ok.mpr ⟨p, Json.at_eq_ok.mpr hp,
      bind_eq_ok.mpr ⟨position, position_eq_ok.mpr hposition, rfl⟩⟩

/-- A request for references also needs its context. -/
theorem requestParams_eq_ok {method : RequestMethod} {uri : Str} {position : Position} :
    method.params params = .ok (uri, position) ↔
      method.Context params ∧ Locates params uri position := by
  cases method with
  | definition =>
    show textDocumentPositionParams params = .ok (uri, position) ↔ _
    rw [textDocumentPositionParams_eq_ok]
    exact ⟨fun h => ⟨trivial, h⟩, fun h => h.2⟩
  | references =>
    show referencesParams params = .ok (uri, position) ↔ _
    unfold referencesParams
    constructor
    · intro h
      obtain ⟨place, hplace, h⟩ := bind_eq_ok.mp h
      obtain ⟨c, hc, h⟩ := bind_eq_ok.mp h
      obtain ⟨d, hd, h⟩ := bind_eq_ok.mp h
      obtain ⟨b, hb, h⟩ := bind_eq_ok.mp h
      cases h
      exact ⟨⟨c, Json.at_eq_ok.mp hc, d, Json.at_eq_ok.mp hd, b, Json.getBoolean_eq_ok.mp hb⟩,
        textDocumentPositionParams_eq_ok.mp hplace⟩
    · rintro ⟨⟨c, hc, d, hd, b, hb⟩, hplace⟩
      refine bind_eq_ok.mpr ⟨_, textDocumentPositionParams_eq_ok.mpr hplace,
        bind_eq_ok.mpr ⟨c, Json.at_eq_ok.mpr hc, ?_⟩⟩
      exact bind_eq_ok.mpr ⟨d, Json.at_eq_ok.mpr hd,
        bind_eq_ok.mpr ⟨b, Json.getBoolean_eq_ok.mpr hb, rfl⟩⟩

theorem workspaceOptions_ok :
    (∃ paths, workspaceOptions j = .ok paths) ↔ j.Allows "auto_path" Json.IsStrings := by
  unfold workspaceOptions Json.Allows
  cases j.find (bytes "auto_path") with
  | none => simp
  | some v => simpa using Json.getArray_getString

/-- The conversions of `handle_initialize`, on the parameters it has or on an empty object. -/
theorem initializeParams_ok {params : Json} :
    (∃ options paths root, params.value (bytes "initializationOptions") pure (.object []) = .ok options ∧
      workspaceOptions options = .ok paths ∧
      params.value (bytes "rootUri") Json.getString [] = .ok root) ↔
    params.IsObject ∧
      (params.Allows "initializationOptions" fun options => options.Allows "auto_path" Json.IsStrings) ∧
      params.Allows "rootUri" Json.IsString := by
  constructor
  · rintro ⟨options, paths, root, hoptions, hpaths, hroot⟩
    have hobject := Json.isObject_of_value hoptions
    rw [Json.value_of_object hobject] at hoptions hroot
    refine ⟨hobject, fun v hv => ?_, fun v hv => ?_⟩
    · rw [hv] at hoptions
      cases hoptions
      exact workspaceOptions_ok.mp ⟨paths, hpaths⟩
    · rw [hv] at hroot
      exact ⟨root, Json.getString_eq_ok.mp hroot⟩
  · rintro ⟨hobject, hoptions, hroot⟩
    have hoptions' : ∃ options paths, params.value (bytes "initializationOptions") pure (.object []) =
        .ok options ∧ workspaceOptions options = .ok paths := by
      rw [Json.value_of_object hobject]
      cases hfind : params.find (bytes "initializationOptions") with
      | none => exact ⟨.object [], [], rfl, rfl⟩
      | some v =>
        obtain ⟨paths, hpaths⟩ := workspaceOptions_ok.mpr (hoptions v hfind)
        exact ⟨v, paths, rfl, hpaths⟩
    have hroot' : ∃ root, params.value (bytes "rootUri") Json.getString [] = .ok root := by
      rw [Json.value_of_object hobject]
      cases hfind : params.find (bytes "rootUri") with
      | none => exact ⟨[], rfl⟩
      | some v =>
        obtain ⟨root, rfl⟩ := hroot v hfind
        exact ⟨root, rfl⟩
    obtain ⟨options, paths, hoptions, hpaths⟩ := hoptions'
    obtain ⟨root, hroot⟩ := hroot'
    exact ⟨options, paths, root, hoptions, hpaths, hroot⟩

/-- When `handle_initialize` returns, the message has the shape and the capabilities are sent. -/
theorem handleInitialize_ok {d d' : Dispatcher} {id : Json}
    (hid : message.find (bytes "id") = some id) (h : handleInitialize d message = .ok d') :
    InitializeShape message ∧
      d' = d.send (responseMessage id (.object [(bytes "capabilities", capabilities)])) := by
  unfold handleInitialize at h
  obtain ⟨params, hparams, h⟩ := bind_eq_ok.mp h
  obtain ⟨options, hoptions, h⟩ := bind_eq_ok.mp h
  obtain ⟨paths, hpaths, h⟩ := bind_eq_ok.mp h
  obtain ⟨root, hroot, h⟩ := bind_eq_ok.mp h
  rw [Json.index_eq_ok hid] at h
  cases h
  refine ⟨fun v hv => ?_, rfl⟩
  rw [Json.value_of_object (Json.isObject_of_value hparams), hv] at hparams
  cases hparams
  exact initializeParams_ok.mp ⟨options, paths, root, hoptions, hpaths, hroot⟩

/-- On the shape it returns. -/
theorem handleInitialize_of_shape {d : Dispatcher} {id : Json}
    (hid : message.find (bytes "id") = some id) (h : InitializeShape message) :
    handleInitialize d message =
      .ok (d.send (responseMessage id (.object [(bytes "capabilities", capabilities)]))) := by
  have hobject : message.IsObject := by
    cases message with
    | object members => exact ⟨members, rfl⟩
    | _ => cases hid
  have hparams : ∃ params, message.value (bytes "params") pure (.object []) = .ok params ∧
      params.IsObject ∧
      (params.Allows "initializationOptions" fun options => options.Allows "auto_path" Json.IsStrings) ∧
      params.Allows "rootUri" Json.IsString := by
    rw [Json.value_of_object hobject]
    cases hfind : message.find (bytes "params") with
    | none => exact ⟨.object [], rfl, ⟨[], rfl⟩, nofun, nofun⟩
    | some v => exact ⟨v, rfl, h v hfind⟩
  obtain ⟨params, hparams, hshape⟩ := hparams
  obtain ⟨options, paths, root, hoptions, hpaths, hroot⟩ := initializeParams_ok.mpr hshape
  refine bind_eq_ok.mpr ⟨params, hparams, bind_eq_ok.mpr ⟨options, hoptions, ?_⟩⟩
  refine bind_eq_ok.mpr ⟨paths, hpaths, bind_eq_ok.mpr ⟨root, hroot, ?_⟩⟩
  exact bind_eq_ok.mpr ⟨id, Json.index_eq_ok hid, rfl⟩

end TclAnalyzer
