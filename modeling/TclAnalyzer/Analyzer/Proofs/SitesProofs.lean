import TclAnalyzer.Analyzer.Sites

/-!
# The ways to a call

A site of a pass is a call together with a way down to it; `Reaches` is that way. Positions tell
calls apart, so that what two passes do can be compared call by call.
-/

namespace TclAnalyzer

/-- The words that the data of a word holds. -/
def WordData.components : WordData → List Word
  | .arrayAccess _ index => index
  | .words vec => vec
  | _ => []

/-- A part of a script that a pass goes through. -/
inductive Node where
  | script (script : Script)
  | call (call : Call)
  | word (word : Word)

/-- The pass gets from a part, in this scope and at this position, to the site. -/
inductive Reaches {σ : Type} (p : Pass σ) : σ → Pos → Node → Site σ → Prop
  | here {scope : σ} {pos : Pos} {call : Call} : Reaches p scope pos (.call call) ⟨pos, call, scope⟩
  | command {scope : σ} {pos : Pos} {script : Script} {i : Nat} {call : Call} {site : Site σ} :
    script.commands[i]? = some call → Reaches p scope (pos ++ [i]) (.call call) site →
    Reaches p scope pos (.script script) site
  | word {scope scope' : σ} {pos : Pos} {call : Call} {k : Nat} {word : Word} {site : Site σ} :
    call.words[k]? = some word → p.enter scope call k = some scope' →
    Reaches p scope' (pos ++ [k]) (.word word) site → Reaches p scope pos (.call call) site
  | nested {scope scope' : σ} {pos : Pos} {word : Word} {script : Script} {site : Site σ} :
    word.data = .script script → p.descend scope word.type = some scope' →
    Reaches p scope' pos (.script script) site → Reaches p scope pos (.word word) site
  | component {scope scope' : σ} {pos : Pos} {word : Word} {k : Nat} {inner : Word} {site : Site σ} :
    word.data.components[k]? = some inner → p.descend scope word.type = some scope' →
    Reaches p scope' (pos ++ [k]) (.word inner) site → Reaches p scope pos (.word word) site

section Membership

variable {σ : Type} {p : Pass σ} {site : Site σ}

theorem mem_sitesCalls {scope : σ} {pos : Pos} {i : Nat} {commands : List Call} :
    site ∈ sitesCalls p scope pos i commands ↔
      ∃ j call, commands[j]? = some call ∧ site ∈ sitesCall p scope (pos ++ [i + j]) call := by
  induction commands generalizing i with
  | nil => simp [sitesCalls]
  | cons call commands ih =>
    rw [sitesCalls, List.mem_append, ih]
    constructor
    · rintro (h | ⟨j, call', hc, h⟩)
      · exact ⟨0, call, rfl, h⟩
      · exact ⟨j + 1, call', hc, by rwa [show i + (j + 1) = i + 1 + j by omega]⟩
    · rintro ⟨j, call', hc, h⟩
      cases j with
      | zero =>
        cases hc
        exact Or.inl h
      | succ j => exact Or.inr ⟨j, call', hc, by rwa [show i + 1 + j = i + (j + 1) by omega]⟩

theorem mem_sitesWords {enter : Nat → Option σ} {pos : Pos} {k : Nat} {words : List Word} :
    site ∈ sitesWords p enter pos k words ↔
      ∃ j word scope, words[j]? = some word ∧ enter (k + j) = some scope ∧
        site ∈ sitesWord p scope (pos ++ [k + j]) word := by
  induction words generalizing k with
  | nil => simp [sitesWords]
  | cons word words ih =>
    rw [sitesWords, List.mem_append, ih]
    constructor
    · rintro (h | ⟨j, word', scope, hw, he, h⟩)
      · cases he : enter k with
        | none => simp [he] at h
        | some scope => exact ⟨0, word, scope, rfl, he, by simpa [he] using h⟩
      · have hj : k + (j + 1) = k + 1 + j := by omega
        exact ⟨j + 1, word', scope, hw, by rwa [hj], by rwa [hj]⟩
    · rintro ⟨j, word', scope, hw, he, h⟩
      cases j with
      | zero =>
        cases hw
        rw [Nat.add_zero] at he h
        exact Or.inl (by simpa [he] using h)
      | succ j =>
        have hj : k + 1 + j = k + (j + 1) := by omega
        exact Or.inr ⟨j, word', scope, hw, by rwa [hj], by rwa [hj]⟩

theorem mem_sitesCall {scope : σ} {pos : Pos} {call : Call} :
    site ∈ sitesCall p scope pos call ↔ site = ⟨pos, call, scope⟩ ∨
      site ∈ sitesWords p (p.enter scope call) pos 0 call.words := by
  cases call
  rw [sitesCall, List.mem_cons]

theorem mem_sitesWord {scope : σ} {pos : Pos} {word : Word} :
    site ∈ sitesWord p scope pos word ↔
      ∃ scope', p.descend scope word.type = some scope' ∧ site ∈ sitesData p scope' pos word.data := by
  obtain ⟨type, _, _, data⟩ := word
  rw [sitesWord]
  cases p.descend scope type <;> simp

end Membership

variable {σ τ : Type} {p : Pass σ} {q : Pass τ}

mutual

theorem sitesScript_reaches : ∀ (script : Script) {scope : σ} {pos : Pos} {site : Site σ},
    site ∈ sitesScript p scope pos script → Reaches p scope pos (.script script) site
  | ⟨location, commands⟩, scope, pos, site, h => by
    rw [sitesScript] at h
    obtain ⟨j, call, hc, hr⟩ := sitesCalls_reaches commands h
    rw [Nat.zero_add] at hr
    exact .command hc hr

theorem sitesCalls_reaches : ∀ (commands : List Call) {scope : σ} {pos : Pos} {i : Nat}
    {site : Site σ}, site ∈ sitesCalls p scope pos i commands →
    ∃ j call, commands[j]? = some call ∧ Reaches p scope (pos ++ [i + j]) (.call call) site
  | [], _, _, _, _, h => by
    rw [sitesCalls] at h
    cases h
  | call :: commands, scope, pos, i, site, h => by
    rw [sitesCalls] at h
    rcases List.mem_append.mp h with h | h
    · exact ⟨0, call, rfl, sitesCall_reaches call h⟩
    · obtain ⟨j, call', hc, hr⟩ := sitesCalls_reaches commands h
      exact ⟨j + 1, call', hc, by rwa [show i + (j + 1) = i + 1 + j by omega]⟩

theorem sitesCall_reaches : ∀ (call : Call) {scope : σ} {pos : Pos} {site : Site σ},
    site ∈ sitesCall p scope pos call → Reaches p scope pos (.call call) site
  | ⟨type, words, ns⟩, scope, pos, site, h => by
    rw [sitesCall] at h
    rcases List.mem_cons.mp h with rfl | h
    · exact .here
    · obtain ⟨j, word, scope', hw, he, hr⟩ := sitesWords_reaches words h
      rw [Nat.zero_add] at he hr
      exact .word hw he hr

theorem sitesWords_reaches : ∀ (words : List Word) {enter : Nat → Option σ} {pos : Pos} {k : Nat}
    {site : Site σ}, site ∈ sitesWords p enter pos k words →
    ∃ j word scope, words[j]? = some word ∧ enter (k + j) = some scope ∧
      Reaches p scope (pos ++ [k + j]) (.word word) site
  | [], _, _, _, _, h => by
    rw [sitesWords] at h
    cases h
  | word :: words, enter, pos, k, site, h => by
    rw [sitesWords] at h
    rcases List.mem_append.mp h with h | h
    · cases he : enter k with
      | none => simp [he] at h
      | some scope =>
        rw [he, Option.elim_some] at h
        exact ⟨0, word, scope, rfl, he, sitesWord_reaches word h⟩
    · obtain ⟨j, word', scope, hw, he, hr⟩ := sitesWords_reaches words h
      have hj : k + (j + 1) = k + 1 + j := by omega
      exact ⟨j + 1, word', scope, hw, by rwa [hj], by rwa [hj]⟩

theorem sitesWord_reaches : ∀ (word : Word) {scope : σ} {pos : Pos} {site : Site σ},
    site ∈ sitesWord p scope pos word → Reaches p scope pos (.word word) site
  | ⟨type, _, _, data⟩, scope, pos, site, h => by
    rw [sitesWord] at h
    cases hd : p.descend scope type with
    | none => simp [hd] at h
    | some scope' =>
      rw [hd, Option.elim_some] at h
      rcases sitesData_reaches data h with ⟨script, rfl, hr⟩ | ⟨j, inner, hw, hr⟩
      · exact .nested rfl hd hr
      · exact .component hw hd hr

theorem sitesData_reaches : ∀ (data : WordData) {scope : σ} {pos : Pos} {site : Site σ},
    site ∈ sitesData p scope pos data →
    (∃ script, data = .script script ∧ Reaches p scope pos (.script script) site) ∨
    ∃ j inner, data.components[j]? = some inner ∧ Reaches p scope (pos ++ [j]) (.word inner) site
  | .nothing, _, _, _, h => by
    rw [sitesData] at h
    cases h
  | .arrayAccess _ index, _, _, _, h => by
    rw [sitesData] at h
    obtain ⟨j, word, scope', hw, he, hr⟩ := sitesWords_reaches index h
    cases he
    rw [Nat.zero_add] at hr
    exact Or.inr ⟨j, word, hw, hr⟩
  | .script script, _, _, _, h => by
    rw [sitesData] at h
    exact Or.inl ⟨script, rfl, sitesScript_reaches script h⟩
  | .words words, _, _, _, h => by
    rw [sitesData] at h
    obtain ⟨j, word, scope', hw, he, hr⟩ := sitesWords_reaches words h
    cases he
    rw [Nat.zero_add] at hr
    exact Or.inr ⟨j, word, hw, hr⟩

end

/-- The sites of a part of a script. -/
def Node.sites (p : Pass σ) (scope : σ) (pos : Pos) : Node → List (Site σ)
  | .script s => sitesScript p scope pos s
  | .call c => sitesCall p scope pos c
  | .word w => sitesWord p scope pos w

theorem Reaches.mem {scope : σ} {pos : Pos} {node : Node} {site : Site σ}
    (h : Reaches p scope pos node site) : site ∈ node.sites p scope pos := by
  induction h with
  | here => exact mem_sitesCall.mpr (Or.inl rfl)
  | @command scope pos script i call site hc _ ih =>
    cases script
    rw [Node.sites, sitesScript]
    exact mem_sitesCalls.mpr ⟨i, call, hc, by rwa [Nat.zero_add]⟩
  | @word scope scope' pos call k word site hw he _ ih =>
    exact mem_sitesCall.mpr (Or.inr (mem_sitesWords.mpr
      ⟨k, word, scope', hw, by rwa [Nat.zero_add], by rwa [Nat.zero_add]⟩))
  | nested hd hdesc _ ih =>
    refine mem_sitesWord.mpr ⟨_, hdesc, ?_⟩
    rw [hd, sitesData]
    exact ih
  | @component scope scope' pos word k inner site hw hdesc _ ih =>
    refine mem_sitesWord.mpr ⟨_, hdesc, ?_⟩
    have hmem : site ∈ sitesWords p (fun _ => some scope') pos 0 word.data.components :=
      mem_sitesWords.mpr ⟨k, inner, scope', hw, rfl, by rwa [Nat.zero_add]⟩
    cases hdata : word.data <;> simp only [hdata, WordData.components] at hmem hw
    · simp at hw
    · rwa [sitesData]
    · simp at hw
    · rwa [sitesData]

/-- The sites of a part are the calls that the pass gets to from it. -/
theorem mem_sites_iff {scope : σ} {pos : Pos} {node : Node} {site : Site σ} :
    site ∈ node.sites p scope pos ↔ Reaches p scope pos node site := by
  refine ⟨fun h => ?_, Reaches.mem⟩
  cases node with
  | script script => exact sitesScript_reaches script h
  | call call => exact sitesCall_reaches call h
  | word word => exact sitesWord_reaches word h

theorem mem_sitesScript {scope : σ} {pos : Pos} {script : Script} {site : Site σ} :
    site ∈ sitesScript p scope pos script ↔ Reaches p scope pos (.script script) site := by
  rw [← mem_sites_iff, Node.sites]

/-! ## Positions -/

/-- A site is at or below the position of the part it is reached from. -/
theorem Reaches.prefix {scope : σ} {pos : Pos} {node : Node} {site : Site σ}
    (h : Reaches p scope pos node site) : pos <+: site.pos := by
  induction h with
  | here => exact List.prefix_rfl
  | nested _ _ _ ih => exact ih
  | command _ _ ih | word _ _ _ ih | component _ _ _ ih => exact (List.prefix_append _ _).trans ih

theorem prefix_concat_inj {pos target : Pos} {i j : Nat} (hi : pos ++ [i] <+: target)
    (hj : pos ++ [j] <+: target) : i = j := by
  have h := List.prefix_of_prefix_length_le hi hj (by simp)
  simpa using h

theorem not_prefix_self {pos : Pos} {i : Nat} (h : pos ++ [i] <+: pos) : False := by
  have := h.length_le
  rw [List.length_append, List.length_singleton] at this
  omega

/-- Two passes that reach the same position reach the same call there, and so does their product. -/
theorem Reaches.join {scope : σ} {pos : Pos} {node : Node} {s : Site σ}
    (h : Reaches p scope pos node s) : ∀ {scope' : τ} {t : Site τ}, Reaches q scope' pos node t →
      s.pos = t.pos → s.call = t.call ∧
        Reaches (p.prod q) (scope, scope') pos node ⟨s.pos, s.call, (s.scope, t.scope)⟩ := by
  induction h with
  | here =>
    intro scope' t ht hpos
    cases ht with
    | here => exact ⟨rfl, .here⟩
    | word _ _ hr =>
      have := hr.prefix
      rw [← hpos] at this
      exact (not_prefix_self this).elim
  | @command scope pos script i call s hc hr ih =>
    intro scope' t ht hpos
    cases ht with
    | @command _ _ _ j call' _ hc' hr' =>
      obtain rfl := prefix_concat_inj hr.prefix (hpos ▸ hr'.prefix)
      cases hc.symm.trans hc'
      obtain ⟨hcall, hprod⟩ := ih hr' hpos
      exact ⟨hcall, .command hc hprod⟩
  | @word scope scope1 pos call k word s hw he hr ih =>
    intro scope' t ht hpos
    cases ht with
    | here => exact (not_prefix_self (hpos ▸ hr.prefix)).elim
    | @word _ scope2 _ _ k' word' _ hw' he' hr' =>
      obtain rfl := prefix_concat_inj hr.prefix (hpos ▸ hr'.prefix)
      cases hw.symm.trans hw'
      obtain ⟨hcall, hprod⟩ := ih hr' hpos
      exact ⟨hcall, .word hw (by simp [Pass.prod, he, he']) hprod⟩
  | @nested scope scope1 pos word script s hd he hr ih =>
    intro scope' t ht hpos
    cases ht with
    | nested hd' he' hr' =>
      cases hd.symm.trans hd'
      obtain ⟨hcall, hprod⟩ := ih hr' hpos
      exact ⟨hcall, .nested hd (by simp [Pass.prod, he, he']) hprod⟩
    | component hw' _ _ => simp [hd, WordData.components] at hw'
  | @component scope scope1 pos word k inner s hw he hr ih =>
    intro scope' t ht hpos
    cases ht with
    | nested hd' _ _ => simp [hd', WordData.components] at hw
    | @component _ scope2 _ _ k' inner' _ hw' he' hr' =>
      obtain rfl := prefix_concat_inj hr.prefix (hpos ▸ hr'.prefix)
      cases hw.symm.trans hw'
      obtain ⟨hcall, hprod⟩ := ih hr' hpos
      exact ⟨hcall, .component hw (by simp [Pass.prod, he, he']) hprod⟩

/-- A call that a pass reaches at a position below another one is reached from that one. -/
theorem Reaches.onward {scope : σ} {pos : Pos} {node : Node} {outer inner : Site σ}
    (h : Reaches p scope pos node outer) : Reaches p scope pos node inner →
      outer.pos <+: inner.pos → Reaches p outer.scope outer.pos (.call outer.call) inner := by
  induction h with
  | here => exact fun hinner _ => hinner
  | command hc hr ih =>
    intro hinner hpos
    cases hinner with
    | command hc' hr' =>
      obtain rfl := prefix_concat_inj (List.IsPrefix.trans hr.prefix hpos) hr'.prefix
      cases hc.symm.trans hc'
      exact ih hr' hpos
  | word hw he hr ih =>
    intro hinner hpos
    cases hinner with
    | here => exact (not_prefix_self (List.IsPrefix.trans hr.prefix hpos)).elim
    | word hw' he' hr' =>
      obtain rfl := prefix_concat_inj (List.IsPrefix.trans hr.prefix hpos) hr'.prefix
      cases hw.symm.trans hw'
      cases he.symm.trans he'
      exact ih hr' hpos
  | nested hd he hr ih =>
    intro hinner hpos
    cases hinner with
    | nested hd' he' hr' =>
      cases hd.symm.trans hd'
      cases he.symm.trans he'
      exact ih hr' hpos
    | component hw' _ _ => simp [hd, WordData.components] at hw'
  | component hw he hr ih =>
    intro hinner hpos
    cases hinner with
    | nested hd' _ _ => simp [hd', WordData.components] at hw
    | component hw' he' hr' =>
      obtain rfl := prefix_concat_inj (List.IsPrefix.trans hr.prefix hpos) hr'.prefix
      cases hw.symm.trans hw'
      cases he.symm.trans he'
      exact ih hr' hpos

/-- A pass reaches one call at a position, in one scope. -/
theorem Reaches.unique {scope : σ} {pos : Pos} {node : Node} {s t : Site σ}
    (hs : Reaches p scope pos node s) (ht : Reaches p scope pos node t) (hpos : s.pos = t.pos) :
    s = t := by
  have honward := hs.onward ht (hpos ▸ List.prefix_rfl)
  obtain ⟨tpos, tcall, tscope⟩ := t
  dsimp only at hpos
  subst hpos
  cases honward with
  | here => rfl
  | word _ _ hr => exact (not_prefix_self hr.prefix).elim

/-- What the product of two passes reaches, each of them reaches. -/
theorem Reaches.proj {scope : σ × τ} {pos : Pos} {node : Node} {site : Site (σ × τ)}
    (h : Reaches (p.prod q) scope pos node site) :
    Reaches p scope.1 pos node ⟨site.pos, site.call, site.scope.1⟩ ∧
      Reaches q scope.2 pos node ⟨site.pos, site.call, site.scope.2⟩ := by
  induction h with
  | here => exact ⟨.here, .here⟩
  | command hc _ ih => exact ⟨.command hc ih.1, .command hc ih.2⟩
  | word hw he _ ih =>
    obtain ⟨a, b, ha, hb, rfl⟩ := Option.map₂_eq_some_iff.mp he
    exact ⟨.word hw ha ih.1, .word hw hb ih.2⟩
  | nested hd he _ ih =>
    obtain ⟨a, b, ha, hb, rfl⟩ := Option.map₂_eq_some_iff.mp he
    exact ⟨.nested hd ha ih.1, .nested hd hb ih.2⟩
  | component hw he _ ih =>
    obtain ⟨a, b, ha, hb, rfl⟩ := Option.map₂_eq_some_iff.mp he
    exact ⟨.component hw ha ih.1, .component hw hb ih.2⟩

/-- The pass goes into every part. -/
def Pass.Total (p : Pass σ) : Prop :=
  (∀ scope call k, ∃ scope', p.enter scope call k = some scope') ∧
    ∀ scope type, ∃ scope', p.descend scope type = some scope'

/-- What a pass reaches, its product with a pass that goes everywhere reaches. -/
theorem Reaches.lift (hp : p.Total) {scope : τ} {pos : Pos} {node : Node} {site : Site τ}
    (h : Reaches q scope pos node site) (scope' : σ) : ∃ s,
      Reaches (p.prod q) (scope', scope) pos node ⟨site.pos, site.call, (s, site.scope)⟩ := by
  induction h generalizing scope' with
  | here => exact ⟨scope', .here⟩
  | command hc _ ih =>
    obtain ⟨s, hr⟩ := ih scope'
    exact ⟨s, .command hc hr⟩
  | @word scope _ _ call k _ _ hw he _ ih =>
    obtain ⟨inner, hinner⟩ := hp.1 scope' call k
    obtain ⟨s, hr⟩ := ih inner
    exact ⟨s, .word hw (by simp [Pass.prod, he, hinner]) hr⟩
  | @nested scope _ _ word _ _ hd he _ ih =>
    obtain ⟨inner, hinner⟩ := hp.2 scope' word.type
    obtain ⟨s, hr⟩ := ih inner
    exact ⟨s, .nested hd (by simp [Pass.prod, he, hinner]) hr⟩
  | @component scope _ _ word _ _ _ hw he _ ih =>
    obtain ⟨inner, hinner⟩ := hp.2 scope' word.type
    obtain ⟨s, hr⟩ := ih inner
    exact ⟨s, .component hw (by simp [Pass.prod, he, hinner]) hr⟩

/-- A pass that goes wherever another one goes, in any scopes, reaches the same calls. -/
theorem Reaches.rescope
    (henter : ∀ {a : σ} {b : τ} {call : Call} {k : Nat} {a' : σ}, p.enter a call k = some a' →
      ∃ b', q.enter b call k = some b')
    (hdescend : ∀ {a : σ} {b : τ} {type : WordType} {a' : σ}, p.descend a type = some a' →
      ∃ b', q.descend b type = some b')
    {scope : σ} {pos : Pos} {node : Node} {site : Site σ} (h : Reaches p scope pos node site)
    (scope' : τ) : ∃ s, Reaches q scope' pos node ⟨site.pos, site.call, s⟩ := by
  induction h generalizing scope' with
  | here => exact ⟨scope', .here⟩
  | command hc _ ih =>
    obtain ⟨s, hr⟩ := ih scope'
    exact ⟨s, .command hc hr⟩
  | word hw he _ ih =>
    obtain ⟨inner, hinner⟩ := henter he
    obtain ⟨s, hr⟩ := ih inner
    exact ⟨s, .word hw hinner hr⟩
  | nested hd he _ ih =>
    obtain ⟨inner, hinner⟩ := hdescend he
    obtain ⟨s, hr⟩ := ih inner
    exact ⟨s, .nested hd hinner hr⟩
  | component hw he _ ih =>
    obtain ⟨inner, hinner⟩ := hdescend he
    obtain ⟨s, hr⟩ := ih inner
    exact ⟨s, .component hw hinner hr⟩

/-! ## What holds of all scopes -/

theorem Reaches.trans {scope : σ} {pos : Pos} {node : Node} {site inner : Site σ}
    (h : Reaches p scope pos node site)
    (hi : Reaches p site.scope site.pos (.call site.call) inner) : Reaches p scope pos node inner := by
  induction h with
  | here => exact hi
  | command hc _ ih => exact .command hc (ih hi)
  | word hw he _ ih => exact .word hw he (ih hi)
  | nested hd he _ ih => exact .nested hd he (ih hi)
  | component hw he _ ih => exact .component hw he (ih hi)

/-- Going into a word does not change the scope, entering a word of a call may. -/
def Pass.Steady (p : Pass σ) : Prop := ∀ scope type scope', p.descend scope type = some scope' →
  scope' = scope

/-- The outermost call around one that is reached is reached in the scope started from. -/
theorem Reaches.exists_outermost (hp : p.Steady) {scope : σ} {pos : Pos} {node : Node}
    {site : Site σ} (h : Reaches p scope pos node site) :
    ∃ first, Reaches p scope pos node first ∧ first.scope = scope ∧ first.pos <+: site.pos := by
  induction h with
  | here => exact ⟨_, .here, rfl, List.prefix_rfl⟩
  | command hc _ ih =>
    obtain ⟨first, hr, hf, hpos⟩ := ih
    exact ⟨first, .command hc hr, hf, hpos⟩
  | word hw he hr => exact ⟨_, .here, rfl, Reaches.prefix (.word hw he hr)⟩
  | nested hd he _ ih =>
    obtain ⟨first, hr, hf, hpos⟩ := ih
    exact ⟨first, .nested hd he hr, hf.trans (hp _ _ _ he), hpos⟩
  | component hw he _ ih =>
    obtain ⟨first, hr, hf, hpos⟩ := ih
    exact ⟨first, .component hw he hr, hf.trans (hp _ _ _ he), hpos⟩

/-- Where a call is reached, one is reached in the scope started from. -/
theorem Reaches.exists_first (hp : p.Steady) {scope : σ} {pos : Pos} {node : Node} {site : Site σ}
    (h : Reaches p scope pos node site) :
    ∃ first, Reaches p scope pos node first ∧ first.scope = scope := by
  obtain ⟨first, hr, hf, -⟩ := h.exists_outermost hp
  exact ⟨first, hr, hf⟩

/-- What holds of the scope started from, and of the scopes of the words that are entered and lead to
a call, holds of all scopes. -/
theorem Reaches.scope_of_step (hp : p.Steady) {A : σ → Prop} {scope : σ} {pos : Pos} {node : Node}
    {site : Site σ} (h : Reaches p scope pos node site) : A scope →
    (∀ outer k word scope' inner, Reaches p scope pos node outer →
      outer.call.words[k]? = some word → p.enter outer.scope outer.call k = some scope' →
      Reaches p scope' (outer.pos ++ [k]) (.word word) inner → A outer.scope → A scope') →
    A site.scope := by
  induction h with
  | here => exact fun hA _ => hA
  | command hc _ ih =>
    exact fun hA hstep => ih hA fun outer k word scope' inner ho =>
      hstep outer k word scope' inner (.command hc ho)
  | word hw he hr ih =>
    exact fun hA hstep => ih (hstep _ _ _ _ _ .here hw he hr hA) fun outer k word scope' inner ho =>
      hstep outer k word scope' inner (.word hw he ho)
  | nested hd he _ ih =>
    exact fun hA hstep => ih (hp _ _ _ he ▸ hA) fun outer k word scope' inner ho =>
      hstep outer k word scope' inner (.nested hd he ho)
  | component hw he _ ih =>
    exact fun hA hstep => ih (hp _ _ _ he ▸ hA) fun outer k word scope' inner ho =>
      hstep outer k word scope' inner (.component hw he ho)

theorem mem_inWord {site inner : Site σ} {k : Nat} :
    inner ∈ site.inWord p k ↔ ∃ word scope, site.call.words[k]? = some word ∧
      p.enter site.scope site.call k = some scope ∧
      Reaches p scope (site.pos ++ [k]) (.word word) inner := by
  unfold Site.inWord
  cases hw : site.call.words[k]? <;> cases he : p.enter site.scope site.call k <;>
    simp [← mem_sites_iff, Node.sites]

/-- All calls are reached in scopes with a property exactly when entering a word that leads to a call
keeps it. -/
theorem forall_scope_iff (hp : p.Steady) (A : σ → Prop) (scope : σ) (hA : A scope) (pos : Pos)
    (script : Script) :
    (∀ site ∈ sitesScript p scope pos script, A site.scope) ↔
      ∀ site ∈ sitesScript p scope pos script, ∀ k scope', A site.scope → site.inWord p k ≠ [] →
        p.enter site.scope site.call k = some scope' → A scope' := by
  simp only [mem_sitesScript]
  constructor
  · intro h site hsite k scope' _ hne he
    obtain ⟨inner, hin⟩ := List.exists_mem_of_ne_nil _ hne
    obtain ⟨word, scope1, hw, he1, hr⟩ := mem_inWord.mp hin
    cases he.symm.trans he1
    obtain ⟨first, hfirst, rfl⟩ := hr.exists_first hp
    exact h first (hsite.trans (.word hw he hfirst))
  · intro h site hsite
    refine hsite.scope_of_step hp hA fun outer k word scope' inner ho hw he hi hAo => ?_
    exact h outer ho k scope' hAo
      (List.ne_nil_of_mem (mem_inWord.mpr ⟨word, scope', hw, he, hi⟩)) he

/-! ## Leaving nothing out -/

/-- The site as the pass reaches it, if it does. -/
def Site.reached (site : Site (σ × Bool)) : Option (Site σ) :=
  if site.scope.2 then some ⟨site.pos, site.call, site.scope.1⟩ else none

/-- The scope of a part, if the pass goes into it. -/
def entered (scope : σ × Bool) : Option σ := if scope.2 then some scope.1 else none

theorem entered_stay (scope : σ × Bool) (inner : σ → Option σ) :
    entered (stay scope inner) = (entered scope).bind inner := by
  obtain ⟨s, reached⟩ := scope
  cases reached
  · rfl
  · cases h : inner s <;> simp [stay, entered, h]

theorem sitesWords_none {enter : Nat → Option σ} {pos : Pos} {k : Nat} {words : List Word}
    (h : ∀ j, k ≤ j → enter j = none) : sitesWords p enter pos k words = [] := by
  induction words generalizing k with
  | nil => rw [sitesWords]
  | cons word words ih =>
    rw [sitesWords, h k (Nat.le_refl k), ih fun j hj => h j (by omega)]
    rfl

mutual

theorem sitesScript_everywhere : ∀ (script : Script) (scope : σ × Bool) (pos : Pos),
    (sitesScript p.everywhere scope pos script).filterMap Site.reached =
      (entered scope).elim [] fun s => sitesScript p s pos script
  | ⟨_, commands⟩, scope, pos => by
    simp only [sitesScript]
    exact sitesCalls_everywhere commands scope pos 0

theorem sitesCalls_everywhere : ∀ (commands : List Call) (scope : σ × Bool) (pos : Pos) (i : Nat),
    (sitesCalls p.everywhere scope pos i commands).filterMap Site.reached =
      (entered scope).elim [] fun s => sitesCalls p s pos i commands
  | [], scope, _, _ => by
    cases entered scope <;> simp [sitesCalls]
  | call :: commands, scope, pos, i => by
    simp only [sitesCalls]
    rw [List.filterMap_append, sitesCall_everywhere call, sitesCalls_everywhere commands]
    cases entered scope <;> rfl

theorem sitesCall_everywhere : ∀ (call : Call) (scope : σ × Bool) (pos : Pos),
    (sitesCall p.everywhere scope pos call).filterMap Site.reached =
      (entered scope).elim [] fun s => sitesCall p s pos call
  | ⟨type, words, ns⟩, scope, pos => by
    have hwords := sitesWords_everywhere words (p.everywhere.enter scope ⟨type, words, ns⟩)
      (fun k => (entered scope).bind fun s => p.enter s ⟨type, words, ns⟩ k) pos 0
      fun k => ⟨_, rfl, entered_stay _ _⟩
    obtain ⟨s, reached⟩ := scope
    simp only [sitesCall]
    rw [List.filterMap_cons, hwords]
    cases reached
    · exact sitesWords_none fun _ _ => rfl
    · rfl

theorem sitesWords_everywhere : ∀ (words : List Word) (enter : Nat → Option (σ × Bool))
    (enter' : Nat → Option σ) (pos : Pos) (k : Nat),
    (∀ j, ∃ scope, enter j = some scope ∧ entered scope = enter' j) →
    (sitesWords p.everywhere enter pos k words).filterMap Site.reached =
      sitesWords p enter' pos k words
  | [], _, _, _, _, _ => by simp [sitesWords]
  | word :: words, enter, enter', pos, k, h => by
    obtain ⟨scope, he, he'⟩ := h k
    rw [sitesWords, sitesWords, List.filterMap_append, sitesWords_everywhere words enter enter' _ _ h,
      he, ← he', Option.elim_some, sitesWord_everywhere word]

theorem sitesWord_everywhere : ∀ (word : Word) (scope : σ × Bool) (pos : Pos),
    (sitesWord p.everywhere scope pos word).filterMap Site.reached =
      (entered scope).elim [] fun s => sitesWord p s pos word
  | ⟨type, _, _, data⟩, scope, pos => by
    simp only [sitesWord]
    rw [show p.everywhere.descend scope type = some (stay scope fun s => p.descend s type) from rfl,
      Option.elim_some, sitesData_everywhere data, entered_stay]
    cases entered scope <;> rfl

theorem sitesData_everywhere : ∀ (data : WordData) (scope : σ × Bool) (pos : Pos),
    (sitesData p.everywhere scope pos data).filterMap Site.reached =
      (entered scope).elim [] fun s => sitesData p s pos data
  | .nothing, scope, _ => by
    cases entered scope <;> simp [sitesData]
  | .arrayAccess _ index, scope, pos => by
    simp only [sitesData]
    rw [sitesWords_everywhere index _ (fun _ => entered scope) pos 0 fun _ => ⟨scope, rfl, rfl⟩]
    cases entered scope
    · exact sitesWords_none fun _ _ => rfl
    · rfl
  | .script script, scope, pos => by
    simp only [sitesData]
    exact sitesScript_everywhere script scope pos
  | .words words, scope, pos => by
    simp only [sitesData]
    rw [sitesWords_everywhere words _ (fun _ => entered scope) pos 0 fun _ => ⟨scope, rfl, rfl⟩]
    cases entered scope
    · exact sitesWords_none fun _ _ => rfl
    · rfl

end

/-- What holds of the scope started from, and of every word that the pass enters or descends into,
holds of all scopes, also in what it leaves out. -/
theorem Reaches.everywhere_scope {A : σ → Prop}
    (hdescend : ∀ s type s', p.descend s type = some s' → A s → A s') {scope : σ × Bool} {pos : Pos}
    {node : Node} {site : Site (σ × Bool)} (h : Reaches p.everywhere scope pos node site) :
    A scope.1 → (∀ outer k s', Reaches p.everywhere scope pos node outer → outer.scope.2 = true →
      p.enter outer.scope.1 outer.call k = some s' → A s') → A site.scope.1 := by
  have hstay : ∀ (scope : σ × Bool) (inner : σ → Option σ), A scope.1 →
      (∀ s', scope.2 = true → inner scope.1 = some s' → A s') → A (stay scope inner).1 := by
    rintro ⟨s, reached⟩ inner hA hinner
    cases reached
    · exact hA
    · cases hi : inner s with
      | none => simpa [stay, hi] using hA
      | some s' => simpa [stay, hi] using hinner s' rfl hi
  induction h with
  | here => exact fun hA _ => hA
  | command hc _ ih =>
    exact fun hA hstep => ih hA fun outer k s' ho => hstep outer k s' (.command hc ho)
  | word hw he _ ih =>
    intro hA hstep
    cases he
    exact ih (hstay _ _ hA fun s' ht hs => hstep _ _ s' .here ht hs) fun outer k s' ho =>
      hstep outer k s' (.word hw rfl ho)
  | nested hd he _ ih =>
    intro hA hstep
    cases he
    exact ih (hstay _ _ hA fun s' _ hs => hdescend _ _ _ hs hA) fun outer k s' ho =>
      hstep outer k s' (.nested hd rfl ho)
  | component hw he _ ih =>
    intro hA hstep
    cases he
    exact ih (hstay _ _ hA fun s' _ hs => hdescend _ _ _ hs hA) fun outer k s' ho =>
      hstep outer k s' (.component hw rfl ho)

/-! ## Where a part stands does not matter -/

/-- What is reached, and in which scope. -/
def Site.content (site : Site σ) : Call × σ := (site.call, site.scope)

mutual

theorem sitesScript_content : ∀ (script : Script) (scope : σ) (pos pos' : Pos),
    (sitesScript p scope pos script).map Site.content =
      (sitesScript p scope pos' script).map Site.content
  | ⟨_, commands⟩, scope, pos, pos' => by
    rw [sitesScript, sitesScript]
    exact sitesCalls_content commands scope pos pos' 0 0

theorem sitesCalls_content : ∀ (commands : List Call) (scope : σ) (pos pos' : Pos) (i i' : Nat),
    (sitesCalls p scope pos i commands).map Site.content =
      (sitesCalls p scope pos' i' commands).map Site.content
  | [], _, _, _, _, _ => by rw [sitesCalls, sitesCalls]
  | call :: commands, scope, pos, pos', i, i' => by
    rw [sitesCalls, sitesCalls, List.map_append, List.map_append,
      sitesCall_content call scope (pos ++ [i]) (pos' ++ [i']),
      sitesCalls_content commands scope pos pos' (i + 1) (i' + 1)]

theorem sitesCall_content : ∀ (call : Call) (scope : σ) (pos pos' : Pos),
    (sitesCall p scope pos call).map Site.content = (sitesCall p scope pos' call).map Site.content
  | ⟨_, words, _⟩, scope, pos, pos' => by
    rw [sitesCall, sitesCall, List.map_cons, List.map_cons, sitesWords_content words _ pos pos' 0]
    rfl

theorem sitesWords_content : ∀ (words : List Word) (enter : Nat → Option σ) (pos pos' : Pos)
    (k : Nat), (sitesWords p enter pos k words).map Site.content =
      (sitesWords p enter pos' k words).map Site.content
  | [], _, _, _, _ => by rw [sitesWords, sitesWords]
  | word :: words, enter, pos, pos', k => by
    rw [sitesWords, sitesWords, List.map_append, List.map_append,
      sitesWords_content words enter pos pos' (k + 1)]
    cases enter k with
    | none => rfl
    | some scope =>
      rw [Option.elim_some, Option.elim_some,
        sitesWord_content word scope (pos ++ [k]) (pos' ++ [k])]

theorem sitesWord_content : ∀ (word : Word) (scope : σ) (pos pos' : Pos),
    (sitesWord p scope pos word).map Site.content = (sitesWord p scope pos' word).map Site.content
  | ⟨type, _, _, data⟩, scope, pos, pos' => by
    rw [sitesWord, sitesWord]
    cases p.descend scope type with
    | none => rfl
    | some scope' => exact sitesData_content data scope' pos pos'

theorem sitesData_content : ∀ (data : WordData) (scope : σ) (pos pos' : Pos),
    (sitesData p scope pos data).map Site.content = (sitesData p scope pos' data).map Site.content
  | .nothing, _, _, _ => by rw [sitesData, sitesData]
  | .arrayAccess _ index, scope, pos, pos' => by
    rw [sitesData, sitesData]
    exact sitesWords_content index _ pos pos' 0
  | .script script, scope, pos, pos' => by
    rw [sitesData, sitesData]
    exact sitesScript_content script scope pos pos'
  | .words words, scope, pos, pos' => by
    rw [sitesData, sitesData]
    exact sitesWords_content words _ pos pos' 0

end

end TclAnalyzer
