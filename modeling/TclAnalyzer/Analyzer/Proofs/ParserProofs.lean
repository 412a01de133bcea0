import TclAnalyzer.Analyzer.Proofs.ParserRuleProofs

/-!
# The namespace that the parser stores in a call

Every call of a parse tree carries the namespace string that `ParseCommand` has set for the place it
is in.
-/

namespace TclAnalyzer

/-- The calls in a part of a script carry the namespace strings that follow from `curNs` around it. -/
def Tagged (curNs : Str) (node : Node) : Prop :=
  ∀ pos site, Reaches parserPass curNs pos node site → site.call.ns = site.scope

/-- The data of a word, in which the namespace string does not change. -/
structure TaggedData (curNs : Str) (data : WordData) : Prop where
  script : ∀ script, data = .script script → Tagged curNs (.script script)
  components : ∀ word ∈ data.components, Tagged curNs (.word word)

/-! ## Tagged parts -/

theorem TaggedData.word {curNs : Str} {word : Word} (h : TaggedData curNs word.data) :
    Tagged curNs (.word word) := by
  intro pos site hr
  cases hr with
  | nested hd he hr =>
    cases he
    exact h.script _ hd _ _ hr
  | component hw he hr =>
    cases he
    exact h.components _ (List.mem_of_getElem? hw) _ _ hr

theorem TaggedData.nothing (curNs : Str) : TaggedData curNs .nothing where
  script _ h := nomatch h
  components _ h := nomatch h

theorem TaggedData.ofWords {curNs : Str} {words : List Word}
    (h : ∀ word ∈ words, Tagged curNs (.word word)) : TaggedData curNs (.words words) where
  script _ h := nomatch h
  components := h

theorem TaggedData.ofArrayAccess {curNs name : Str} {index : List Word}
    (h : ∀ word ∈ index, Tagged curNs (.word word)) :
    TaggedData curNs (.arrayAccess name index) where
  script _ h := nomatch h
  components := h

theorem TaggedData.ofScript {curNs : Str} {script : Script} (h : Tagged curNs (.script script)) :
    TaggedData curNs (.script script) where
  script _ heq := by
    cases heq
    exact h
  components _ h := nomatch h

theorem tagged_call {curNs : Str} {call : Call} (hns : call.ns = curNs)
    (h : ∀ k word, call.words[k]? = some word → Tagged (bodyNs curNs call k) (.word word)) :
    Tagged curNs (.call call) := by
  intro pos site hr
  cases hr with
  | here => exact hns
  | word hw he hr =>
    cases he
    exact h _ _ hw _ _ hr

theorem tagged_script {curNs : Str} {script : Script}
    (h : ∀ call ∈ script.commands, Tagged curNs (.call call)) : Tagged curNs (.script script) := by
  intro pos site hr
  cases hr with
  | command hc hr => exact h _ (List.mem_of_getElem? hc) _ _ hr

/-! ## Parsing -/

theorem tagged_rule : ParserRule (fun curNs word => TaggedData curNs word.data)
    (fun curNs call => Tagged curNs (.call call)) (fun curNs script => Tagged curNs (.script script))
    where
  text h := h.2 ▸ .nothing _
  missing _ hdata := hdata ▸ .nothing _
  components _ hdata h := hdata ▸ .ofWords fun word hword => (h word hword).word
  scalar h := h
  array _ hdata h := hdata ▸ .ofArrayAccess fun word hword => (h word hword).word
  nested _ hdata h := hdata ▸ .ofScript h
  list _ hdata h := by
    rw [hdata]
    refine .ofWords fun word hword => TaggedData.word ?_
    rcases h word hword with ⟨-, hnothing⟩ | ⟨-, vec, hvec, htexts⟩
    · exact hnothing ▸ .nothing _
    · rw [hvec]
      exact .ofWords fun inner hinner => TaggedData.word ((htexts inner hinner).2 ▸ .nothing _)
  call hns _ h := tagged_call hns fun k word hk => (h k word hk).word
  script := tagged_script

/-- Every call of a parse tree carries the namespace string of its place. -/
theorem parseScript_tagged {interp : TclInterp} {context : ParseContext} {view : StringView}
    {script : Script} (h : parseScript interp context view = .ok script) :
    Tagged context.curNs (.script script) := tagged_rule.parseScript h

end TclAnalyzer
