import Mathlib.Data.List.Forall2

/-!
# Byte strings and faults

`std::string` and the contents of a `std::string_view` are lists of bytes. Code that can abort,
throw or run into undefined behaviour returns `Except Fault`; all assertions are compiled in (no
build of the repository defines `NDEBUG`).
-/

namespace TclAnalyzer

/-- The contents of a `std::string`: bytes, no encoding. -/
abbrev Str := List UInt8

/-- The bytes of a literal of the source. -/
def bytes (s : String) : Str := s.toUTF8.data.toList

/-- Why a function of the source does not return normally. -/
inductive Fault where
  /-- A failing `assert`, or an `abort()`. -/
  | assertion
  /-- `std::out_of_range`. -/
  | outOfRange
  /-- An index outside of an array. -/
  | undefined
  /-- A `std::get` of an alternative the variant does not hold. -/
  | badVariantAccess
  /-- A `size_t` subtraction below zero. -/
  | underflow
  /-- A loop or recursion that does not end. -/
  | diverges
  /-- `std::length_error`, or `std::bad_alloc`. -/
  | lengthError
  /-- An exception of the JSON library. -/
  | json
  deriving DecidableEq, Repr

/-- The fault is an exception. The others end the process or have no defined effect. -/
def Fault.isException : Fault → Bool
  | .outOfRange | .badVariantAccess | .lengthError | .json => true
  | .undefined | .assertion | .underflow | .diverges => false

/-- The faults that are no exceptions. -/
def Fault.fatal : List Fault := [.undefined, .assertion, .underflow, .diverges]

theorem Fault.mem_fatal {fault : Fault} : fault ∈ fatal ↔ fault.isException = false := by
  cases fault <;> decide

section Except

variable {α β : Type}

@[simp] theorem pure_eq_ok (a : α) : (pure a : Except Fault α) = .ok a := rfl

@[simp] theorem throw_eq_error (fault : Fault) : (throw fault : Except Fault α) = .error fault := rfl

@[simp] theorem ok_bind (a : α) (f : α → Except Fault β) : (.ok a >>= f) = f a := rfl

@[simp] theorem error_bind (fault : Fault) (f : α → Except Fault β) :
    (.error fault >>= f) = .error fault := rfl

@[simp] theorem map_ok (f : α → β) (a : α) : (f <$> .ok a : Except Fault β) = .ok (f a) := rfl

@[simp] theorem map_error (f : α → β) (fault : Fault) :
    (f <$> .error fault : Except Fault β) = .error fault := rfl

end Except

/-- `v[i]`, with an index outside of the vector made a fault. -/
def nth {α : Type} (v : List α) (i : Nat) : Except Fault α :=
  match v[i]? with
  | some a => .ok a
  | none => .error .undefined

/-- A computation returns normally when both of its steps do. -/
theorem bind_eq_ok {α β : Type} {x : Except Fault α} {f : α → Except Fault β} {b : β} :
    (x >>= f) = .ok b ↔ ∃ a, x = .ok a ∧ f a = .ok b := by
  cases x with
  | error fault => simp
  | ok a => simp

theorem exists_bind_eq_ok {α β : Type} {x : Except Fault α} {f : α → Except Fault β} :
    (∃ b, (x >>= f) = .ok b) ↔ ∃ a, x = .ok a ∧ ∃ b, f a = .ok b := by
  cases x with
  | error fault => simp
  | ok a => simp

theorem nth_eq_ok {α : Type} {v : List α} {i : Nat} {a : α} : nth v i = .ok a ↔ v[i]? = some a := by
  unfold nth
  cases v[i]? <;> simp

theorem lt_of_nth {α : Type} {v : List α} {i : Nat} {a : α} (h : nth v i = .ok a) : i < v.length :=
  (List.getElem?_eq_some_iff.mp (nth_eq_ok.mp h)).1

theorem forall₂_of_mapM {α β : Type} {f : α → Except Fault β} {l : List α} {l' : List β}
    (h : l.mapM f = .ok l') : List.Forall₂ (fun a b => f a = .ok b) l l' := by
  induction l generalizing l' with
  | nil =>
    cases h
    exact .nil
  | cons a l ih =>
    rw [List.mapM_cons] at h
    obtain ⟨b, hb, h⟩ := bind_eq_ok.mp h
    obtain ⟨rest, hrest, h⟩ := bind_eq_ok.mp h
    cases h
    exact .cons hb (ih hrest)

theorem mem_of_forall₂_left {α β : Type} {R : α → β → Prop} {l : List α} {l' : List β}
    (h : List.Forall₂ R l l') {a : α} (ha : a ∈ l) : ∃ b ∈ l', R a b := by
  induction h with
  | nil => cases ha
  | cons hab _ ih =>
    rcases List.mem_cons.mp ha with rfl | ha
    · exact ⟨_, List.mem_cons_self, hab⟩
    · obtain ⟨b, hb, hr⟩ := ih ha
      exact ⟨b, List.mem_cons_of_mem _ hb, hr⟩

theorem mem_of_forall₂_right {α β : Type} {R : α → β → Prop} {l : List α} {l' : List β}
    (h : List.Forall₂ R l l') {b : β} (hb : b ∈ l') : ∃ a ∈ l, R a b :=
  mem_of_forall₂_left h.flip hb

/-- The computation returns normally, with a result that passes the test. -/
def returns {α : Type} (x : Except Fault α) (test : α → Bool) : Bool :=
  match x with
  | .ok a => test a
  | .error _ => false

theorem exists_of_returns {α : Type} {x : Except Fault α} {test : α → Bool}
    (h : returns x test = true) : ∃ a, x = .ok a ∧ test a = true := by
  cases x with
  | error fault => cases h
  | ok a => exact ⟨a, rfl, h⟩

/-! ## Computations without certain faults -/

/-- The computation does not end with one of these faults. -/
def Avoids (faults : List Fault) {α : Type} (x : Except Fault α) : Prop :=
  ∀ fault ∈ faults, x ≠ .error fault

section Avoids

variable {faults : List Fault} {α β : Type} {x : Except Fault α} {f : α → Except Fault β}

theorem Avoids.ok (a : α) : Avoids faults (.ok a : Except Fault α) := by
  intro fault _ h
  cases h

theorem Avoids.error {fault : Fault} (h : fault ∉ faults) :
    Avoids faults (.error fault : Except Fault α) := by
  intro fault' hmem herror
  cases herror
  exact h hmem

theorem Avoids.bind (hx : Avoids faults x) (hf : ∀ a, x = .ok a → Avoids faults (f a)) :
    Avoids faults (x >>= f) := by
  cases x with
  | ok a => exact hf a rfl
  | error fault =>
    refine .error fun hmem => ?_
    exact hx fault hmem rfl

theorem Avoids.of_bind (h : Avoids faults (x >>= f)) : Avoids faults x := by
  cases x with
  | ok a => exact .ok a
  | error fault =>
    refine .error fun hmem => ?_
    exact h fault hmem rfl

/-- A first step that returns hands over to the second one. -/
theorem avoids_bind_ok {a : α} (hx : x = .ok a) :
    Avoids faults (x >>= f) ↔ Avoids faults (f a) := by
  rw [hx]
  rfl

theorem Avoids.ite_throw {c : Prop} [Decidable c] {fault : Fault} (hc : c → fault ∉ faults)
    (hx : ¬ c → Avoids faults x) : Avoids faults (if c then (do throw fault; x) else x) := by
  split
  · next h => exact .error (hc h)
  · next h => exact hx h

theorem nth_avoids (h : .undefined ∉ faults) (v : List α) (i : Nat) : Avoids faults (nth v i) := by
  unfold nth
  split
  · exact .ok _
  · exact .error h

end Avoids

/-- Only an exception ends a computation that avoids the other faults. -/
theorem Avoids.isException {α : Type} {x : Except Fault α} {fault : Fault}
    (hx : Avoids Fault.fatal x) (h : x = .error fault) : fault.isException = true := by
  by_contra hfatal
  exact hx fault (Fault.mem_fatal.mpr (Bool.not_eq_true _ ▸ hfatal)) h

theorem Avoids.mapM {α β : Type} {faults : List Fault} {f : α → Except Fault β} {l : List α}
    (hf : ∀ a ∈ l, Avoids faults (f a)) : Avoids faults (l.mapM f) := by
  induction l with
  | nil => exact .ok []
  | cons a l ih =>
    rw [List.mapM_cons]
    refine .bind (hf a List.mem_cons_self) fun b _ => .bind (ih ?_) fun bs _ => .ok _
    exact fun a' ha' => hf a' (List.mem_cons_of_mem a ha')

/-! ## Computations that agree under a condition -/

/-- The computations are the same under the condition, which holds whenever the first one returns. -/
structure AgreesIf {α : Type} (P : Prop) (x y : Except Fault α) : Prop where
  eq : P → x = y
  holds : ∀ a, x = .ok a → P

namespace AgreesIf

variable {α β : Type} {P Q : Prop} {x y : Except Fault α} {f g : α → Except Fault β}

theorem refl (h : P) (x : Except Fault α) : AgreesIf P x x := ⟨fun _ => rfl, fun _ _ => h⟩

theorem error (fault : Fault) : AgreesIf P (.error fault : Except Fault α) (.error fault) :=
  ⟨fun _ => rfl, fun _ h => nomatch h⟩

/-- A computation that fails agrees with anything under a condition that does not hold. -/
theorem of_not (h : ¬P) (fault : Fault) (y : Except Fault α) : AgreesIf P (.error fault) y :=
  ⟨fun hP => absurd hP h, fun _ h => nomatch h⟩

theorem congr (h : AgreesIf P x y) (hQ : P ↔ Q) : AgreesIf Q x y :=
  ⟨fun h' => h.eq (hQ.mpr h'), fun a ha => hQ.mp (h.holds a ha)⟩

theorem ok (h : AgreesIf P x y) {a : α} (ha : x = .ok a) : y = .ok a :=
  (h.eq (h.holds a ha)).symm.trans ha

theorem bind (h : AgreesIf P x y) (hfg : ∀ a, y = .ok a → AgreesIf Q (f a) (g a)) :
    AgreesIf (P ∧ Q) (x >>= f) (y >>= g) where
  eq := by
    rintro ⟨hP, hQ⟩
    rw [h.eq hP]
    cases hy : y with
    | error fault => rfl
    | ok a => exact (hfg a hy).eq hQ
  holds := by
    intro b hb
    obtain ⟨a, ha, hb⟩ := bind_eq_ok.mp hb
    exact ⟨h.holds a ha, (hfg a (h.ok ha)).holds b hb⟩

end AgreesIf

/-! ## Loops -/

/-- A loop returns, or one of its turns is the first that does not. -/
theorem foldlM_cases {α σ : Type} (turn : σ → α → Except Fault σ) (l : List α) (s : σ) :
    (∃ s', l.foldlM turn s = .ok s') ∨ ∃ before a after t fault, l = before ++ a :: after ∧
      before.foldlM turn s = .ok t ∧ turn t a = .error fault ∧ l.foldlM turn s = .error fault := by
  induction l generalizing s with
  | nil => exact Or.inl ⟨s, rfl⟩
  | cons a l ih =>
    rw [List.foldlM_cons]
    cases hturn : turn s a with
    | error fault => exact Or.inr ⟨[], a, l, s, fault, rfl, rfl, hturn, rfl⟩
    | ok t =>
      rcases ih t with hok | ⟨before, b, after, u, fault, rfl, hbefore, hb, hloop⟩
      · exact Or.inl hok
      · right
        refine ⟨a :: before, b, after, u, fault, rfl, ?_, hb, hloop⟩
        rw [List.foldlM_cons, hturn]
        exact hbefore

/-- What every turn of a loop keeps, the loop keeps. -/
theorem foldlM_invariant {α σ : Type} {turn : σ → α → Except Fault σ} {I : σ → Prop}
    (hturn : ∀ s a t, I s → turn s a = .ok t → I t) {l : List α} {s s' : σ} (hs : I s)
    (h : l.foldlM turn s = .ok s') : I s' := by
  induction l generalizing s with
  | nil =>
    cases h
    exact hs
  | cons a l ih =>
    rw [List.foldlM_cons] at h
    obtain ⟨t, ht, h⟩ := bind_eq_ok.mp h
    exact ih (hturn s a t hs ht) h

/-- A loop on a part of the state does what the loop does to that part. -/
theorem foldlM_map_ok {α σ τ : Type} {turn : σ → α → Except Fault σ} {turn' : τ → α → Except Fault τ}
    (f : σ → τ) (hturn : ∀ s a t, turn s a = .ok t → turn' (f s) a = .ok (f t)) {l : List α} {s s' : σ}
    (h : l.foldlM turn s = .ok s') : l.foldlM turn' (f s) = .ok (f s') := by
  induction l generalizing s with
  | nil =>
    cases h
    rfl
  | cons a l ih =>
    rw [List.foldlM_cons] at h
    obtain ⟨t, ht, h⟩ := bind_eq_ok.mp h
    rw [List.foldlM_cons]
    exact bind_eq_ok.mpr ⟨f t, hturn s a t ht, ih h⟩

/-- Each turn of a loop that returns has returned. -/
theorem foldlM_turn {α σ : Type} {turn : σ → α → Except Fault σ} {before after : List α} {a : α}
    {s s' : σ} (h : (before ++ a :: after).foldlM turn s = .ok s') :
    ∃ t u, before.foldlM turn s = .ok t ∧ turn t a = .ok u ∧ after.foldlM turn u = .ok s' := by
  rw [List.foldlM_append] at h
  obtain ⟨t, hbefore, h⟩ := bind_eq_ok.mp h
  rw [List.foldlM_cons] at h
  obtain ⟨u, hturn, hafter⟩ := bind_eq_ok.mp h
  exact ⟨t, u, hbefore, hturn, hafter⟩

/-- The fault a computation ends with. -/
def faultOf {α : Type} : Except Fault α → Option Fault
  | .ok _ => none
  | .error fault => some fault

theorem faultOf_eq_some {α : Type} {x : Except Fault α} {fault : Fault} :
    faultOf x = some fault ↔ x = .error fault := by
  cases x with
  | error fault' => simp [faultOf]
  | ok a => simp [faultOf]

end TclAnalyzer
