import TclAnalyzer.Analyzer.Flat
import TclAnalyzer.Analyzer.Proofs.RegisterProofs

/-!
# Loops over the calls of a pass

A loop over the calls that a pass reaches stops at no call because of its scope: that is the scope the
pass starts in, or one that an earlier turn has entered.
-/

namespace TclAnalyzer

/-! ## Scopes of sites -/

section Rooted

variable {σ : Type} {p : Pass σ} {R R' : σ → Prop} {sites sites' : List (Site σ)}

theorem RootedIn.mono (h : RootedIn p R sites) (hR : ∀ scope, R scope → R' scope) :
    RootedIn p R' sites := by
  induction sites generalizing R R' with
  | nil => trivial
  | cons site sites ih => exact ⟨hR _ h.1, ih h.2 fun scope => Or.imp_left (hR scope)⟩

/-- The second list may use the scopes that the first one started with. -/
theorem RootedIn.append (h : RootedIn p R sites) (h' : RootedIn p R sites') :
    RootedIn p R (sites ++ sites') := by
  induction sites generalizing R with
  | nil => exact h'
  | cons site sites ih => exact ⟨h.1, ih h.2 (h'.mono fun scope => Or.inl)⟩

/-- The scope of a site was there at the start, or an earlier site enters it. -/
theorem RootedIn.scope {before after : List (Site σ)} {site : Site σ}
    (h : RootedIn p R (before ++ site :: after)) : R site.scope ∨
      ∃ outer ∈ before, ∃ k, p.enter outer.scope outer.call k = some site.scope := by
  induction before generalizing R with
  | nil => exact Or.inl h.1
  | cons first before ih =>
    rcases ih h.2 with (hR | hfirst) | ⟨outer, houter, hk⟩
    · exact Or.inl hR
    · exact Or.inr ⟨first, List.mem_cons_self, hfirst⟩
    · exact Or.inr ⟨outer, List.mem_cons_of_mem _ houter, hk⟩

mutual

/-- The sites of a tree are in the scope started from or in one that an earlier site enters. The
induction is on the tree. -/
theorem sitesScript_rooted (hp : p.Steady) : ∀ (script : Script) (scope : σ) (pos : Pos),
    RootedIn p (· = scope) (sitesScript p scope pos script)
  | ⟨_, commands⟩, scope, pos => by
    rw [sitesScript]
    exact sitesCalls_rooted hp commands scope pos 0

theorem sitesCalls_rooted (hp : p.Steady) : ∀ (commands : List Call) (scope : σ) (pos : Pos)
    (i : Nat),
    RootedIn p (· = scope) (sitesCalls p scope pos i commands)
  | [], _, _, _ => by
    rw [sitesCalls]
    trivial
  | call :: commands, scope, pos, i => by
    rw [sitesCalls]
    exact (sitesCall_rooted hp call scope (pos ++ [i])).append
      (sitesCalls_rooted hp commands scope pos (i + 1))

theorem sitesCall_rooted (hp : p.Steady) : ∀ (call : Call) (scope : σ) (pos : Pos),
    RootedIn p (· = scope) (sitesCall p scope pos call)
  | ⟨type, words, ns⟩, scope, pos => by
    rw [sitesCall]
    exact ⟨rfl, (sitesWords_rooted hp words _ pos 0).mono fun _ => Or.inr⟩

/-- Over the words of a call the scopes at the start are those that the call enters. -/
theorem sitesWords_rooted (hp : p.Steady) : ∀ (words : List Word) (enter : Nat → Option σ)
    (pos : Pos) (k : Nat),
    RootedIn p (fun scope => ∃ k, enter k = some scope) (sitesWords p enter pos k words)
  | [], _, _, _ => by
    rw [sitesWords]
    trivial
  | word :: words, enter, pos, k => by
    rw [sitesWords]
    refine RootedIn.append ?_ (sitesWords_rooted hp words enter pos (k + 1))
    cases henter : enter k with
    | none => trivial
    | some scope =>
      refine (sitesWord_rooted hp word scope (pos ++ [k])).mono ?_
      rintro _ rfl
      exact ⟨k, henter⟩

theorem sitesWord_rooted (hp : p.Steady) : ∀ (word : Word) (scope : σ) (pos : Pos),
    RootedIn p (· = scope) (sitesWord p scope pos word)
  | ⟨type, _, _, data⟩, scope, pos => by
    rw [sitesWord]
    cases hdescend : p.descend scope type with
    | none => trivial
    | some scope' =>
      cases hp _ _ _ hdescend
      exact sitesData_rooted hp data scope pos

theorem sitesData_rooted (hp : p.Steady) : ∀ (data : WordData) (scope : σ) (pos : Pos),
    RootedIn p (· = scope) (sitesData p scope pos data)
  | .nothing, _, _ => by
    rw [sitesData]
    trivial
  | .script script, scope, pos => by
    rw [sitesData]
    exact sitesScript_rooted hp script scope pos
  | .arrayAccess _ words, scope, pos | .words words, scope, pos => by
    rw [sitesData]
    refine (sitesWords_rooted hp words _ pos 0).mono ?_
    rintro _ ⟨_, ⟨⟩⟩
    rfl

end

theorem scanPass_steady : scanPass.Steady := by
  rintro path type path' h
  cases type <;> simp_all [scanPass]

theorem indexPass_steady : indexPass.Steady := by
  rintro path type path' h
  cases type <;> simp_all [indexPass]

end Rooted

/-! ## Trees with the promised data -/

section Fits

variable {σ : Type} {p : Pass σ}

/-- A call whose command word is not entered is one that has a body. -/
def Pass.Bodies (p : Pass σ) : Prop := ∀ scope call, p.enter scope call 0 = none →
  call.type = .PROC ∨ call.type = .NAMESPACE_EVAL

theorem scanPass_bodies : scanPass.Bodies := by
  rintro path ⟨type, words, ns⟩ henter
  cases type with
  | NAMESPACE_EVAL => exact Or.inr rfl
  | PROC | WHILE | FOR | FOREACH | IF | USER => cases henter

theorem indexPass_bodies : indexPass.Bodies := by
  rintro path ⟨type, words, ns⟩ henter
  cases type with
  | NAMESPACE_EVAL => exact Or.inr rfl
  | PROC => exact Or.inl rfl
  | WHILE | FOR | FOREACH | IF | USER => cases henter

mutual

/-- A typed tree fits every pass of this kind. The induction is on the tree. -/
theorem fitsScript_typed (hp : p.Bodies) : ∀ (script : Script) (scope : σ), script.Typed →
    fitsScript p scope script
  | ⟨_, commands⟩, scope, h => by
    rw [fitsScript]
    exact fitsCalls_typed hp commands scope (fun call hcall => h.shaped hcall)
      fun call hcall word hword => h.word hcall hword

theorem fitsCalls_typed (hp : p.Bodies) : ∀ (commands : List Call) (scope : σ),
    (∀ call ∈ commands, call.Shaped) → (∀ call ∈ commands, ∀ word ∈ call.words, word.Typed) →
    fitsCalls p scope commands
  | [], _, _, _ => by
    rw [fitsCalls]
    trivial
  | call :: commands, scope, hshaped, htyped => by
    rw [fitsCalls]
    exact ⟨fitsCall_typed hp call scope (hshaped call List.mem_cons_self)
        (htyped call List.mem_cons_self),
      fitsCalls_typed hp commands scope (fun c hc => hshaped c (List.mem_cons_of_mem call hc))
        fun c hc => htyped c (List.mem_cons_of_mem call hc)⟩

theorem fitsCall_typed (hp : p.Bodies) : ∀ (call : Call) (scope : σ), call.Shaped →
    (∀ word ∈ call.words, word.Typed) → fitsCall p scope call
  | ⟨type, words, ns⟩, scope, hshaped, htyped => by
    rw [fitsCall]
    exact ⟨fun henter => hshaped.body (hp scope _ henter), fitsWords_typed hp words _ 0 htyped⟩

theorem fitsWords_typed (hp : p.Bodies) : ∀ (words : List Word) (enter : Nat → Option σ) (k : Nat),
    (∀ word ∈ words, word.Typed) → fitsWords p enter k words
  | [], _, _, _ => by
    rw [fitsWords]
    trivial
  | word :: words, enter, k, htyped => by
    rw [fitsWords]
    refine ⟨?_, fitsWords_typed hp words enter (k + 1) fun w hw => htyped w (List.mem_cons_of_mem word hw)⟩
    cases enter k with
    | none => trivial
    | some scope => exact fitsWord_typed hp word scope (htyped word List.mem_cons_self)

theorem fitsWord_typed (hp : p.Bodies) : ∀ (word : Word) (scope : σ), word.Typed →
    fitsWord p scope word
  | ⟨type, _, _, data⟩, scope, h => by
    rw [fitsWord]
    cases p.descend scope type with
    | none => trivial
    | some scope' =>
      exact ⟨h.dataFits, fitsData_typed hp data scope' (fun script => h.script) fun inner => h.component⟩

theorem fitsData_typed (hp : p.Bodies) : ∀ (data : WordData) (scope : σ),
    (∀ script, data = .script script → script.Typed) →
    (∀ inner ∈ data.components, inner.Typed) → fitsData p scope data
  | .nothing, _, _, _ => by
    rw [fitsData]
    trivial
  | .script script, scope, hscript, _ => by
    rw [fitsData]
    exact fitsScript_typed hp script scope (hscript script rfl)
  | .arrayAccess _ words, scope, _, hwords | .words words, scope, _, hwords => by
    rw [fitsData]
    exact fitsWords_typed hp words _ 0 hwords

end

/-- What fits does not depend on the order of the commands. -/
theorem fitsCalls_iff {scope : σ} {commands : List Call} :
    fitsCalls p scope commands ↔ ∀ call ∈ commands, fitsCall p scope call := by
  induction commands with
  | nil => simp [fitsCalls]
  | cons call commands ih => simp [fitsCalls, ih]

end Fits

/-! ## Turns -/

/-- A turn of the loop keeps the index, and makes the namespaces in which the words of its call are
entered. -/
structure Turns (p : Pass Path) (turn : PassState → Site Path → Except Fault PassState) : Prop where
  wf : ∀ {st st' site}, st.index.WF → turn st site = .ok st' → st'.index.WF
  extended : ∀ {st st' site}, st.index.WF → turn st site = .ok st' → st.index.Extends st'.index
  enters : ∀ {st st' site}, st.index.WF → turn st site = .ok st' → ∀ k path,
    p.enter site.scope site.call k = some path → st'.index.HasPath path

/-- The turn at a call returns wherever its scope exists. -/
def Passes (turn : PassState → Site Path → Except Fault PassState) (site : Site Path) : Prop :=
  ∀ st : PassState, st.index.WF → st.index.HasPath site.scope → ∃ st', turn st site = .ok st'

namespace Turns

variable {p : Pass Path} {turn : PassState → Site Path → Except Fault PassState}
  {st st' : PassState} {sites : List (Site Path)} {R : Path → Prop}

/-- A loop keeps the invariant, and the namespaces that its turns enter are there at its end. -/
theorem loop (h : Turns p turn) (hwf : st.index.WF) (hloop : sites.foldlM turn st = .ok st') :
    st'.index.WF ∧ st.index.Extends st'.index ∧ ∀ site ∈ sites, ∀ k path,
      p.enter site.scope site.call k = some path → st'.index.HasPath path := by
  induction sites generalizing st with
  | nil =>
    cases hloop
    exact ⟨hwf, .refl _, by simp⟩
  | cons site sites ih =>
    rw [List.foldlM_cons] at hloop
    obtain ⟨st1, hturn, hloop⟩ := bind_eq_ok.mp hloop
    have hwf1 := h.wf hwf hturn
    obtain ⟨hwf', hextended, henters⟩ := ih hwf1 hloop
    refine ⟨hwf', (h.extended hwf hturn).trans hextended, fun site' hsite' k path hk => ?_⟩
    rcases List.mem_cons.mp hsite' with rfl | hsite'
    · obtain ⟨ns, hns⟩ := h.enters hwf hturn k path hk
      exact ⟨ns, hextended.atPath hwf1.namespaces hns⟩
    · exact henters site' hsite' k path hk

/-- A loop that does not return stops at a turn whose scope exists. -/
theorem loop_cases (h : Turns p turn) (hwf : st.index.WF)
    (hR : ∀ path, R path → st.index.HasPath path) (hrooted : RootedIn p R sites) :
    (∃ st', sites.foldlM turn st = .ok st') ∨ ∃ before site after st1 fault,
      sites = before ++ site :: after ∧ before.foldlM turn st = .ok st1 ∧ st1.index.WF ∧
      st1.index.HasPath site.scope ∧ turn st1 site = .error fault ∧
      sites.foldlM turn st = .error fault := by
  rcases foldlM_cases turn sites st with hok |
    ⟨before, site, after, st1, fault, rfl, hbefore, hturn, hloop⟩
  · exact Or.inl hok
  · right
    obtain ⟨hwf1, hextended, henters⟩ := h.loop hwf hbefore
    refine ⟨before, site, after, st1, fault, rfl, hbefore, hwf1, ?_, hturn, hloop⟩
    rcases hrooted.scope with hscope | ⟨outer, houter, k, hk⟩
    · obtain ⟨ns, hns⟩ := hR _ hscope
      exact ⟨ns, hextended.atPath hwf.namespaces hns⟩
    · exact henters outer houter k _ hk

/-- A loop whose turns all return where their scope exists returns. -/
theorem loop_exists (h : Turns p turn) (hwf : st.index.WF)
    (hR : ∀ path, R path → st.index.HasPath path) (hrooted : RootedIn p R sites)
    (hpasses : ∀ site ∈ sites, Passes turn site) : ∃ st', sites.foldlM turn st = .ok st' := by
  rcases h.loop_cases hwf hR hrooted with hok |
    ⟨before, site, after, st1, fault, rfl, -, hwf1, hscope, hturn, -⟩
  · exact hok
  · obtain ⟨st2, hok⟩ := hpasses site (by simp) st1 hwf1 hscope
    cases hturn.symm.trans hok

end Turns

end TclAnalyzer
