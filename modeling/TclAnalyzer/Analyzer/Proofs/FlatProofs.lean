import TclAnalyzer.Analyzer.Proofs.IndexProofs

/-!
# The passes are loops

A pass over a tree that fits is a loop over the calls that it reaches, each in the namespace on top of
the stack there, and a pass returns on no other tree. What holds of the loops holds of the passes.
-/

namespace TclAnalyzer

/-- The scope of the only word that is entered. -/
def only (n : Nat) (path : Path) (k : Nat) : Option Path := if k = n then some path else none

theorem only_self (n : Nat) (path : Path) : only n path n = some path := if_pos rfl

theorem only_of_ne {n k : Nat} (h : k ≠ n) (path : Path) : only n path k = none := if_neg h

/-- No call is reached behind the only word that is entered. -/
theorem sitesWords_after {p : Pass Path} {pos : Pos} {k n : Nat} {path : Path} {words : List Word}
    (h : n < k) : sitesWords p (only n path) pos k words = [] :=
  sitesWords_none fun j hj => only_of_ne (by omega) path

theorem fitsWords_after {p : Pass Path} {k n : Nat} {path : Path} {words : List Word} (h : n < k) :
    fitsWords p (only n path) k words := by
  induction words generalizing k with
  | nil => simp [fitsWords]
  | cons word words ih =>
    rw [fitsWords, only_of_ne (by omega)]
    exact ⟨trivial, ih (by omega)⟩

/-! ## `ScanScript` -/

section Scan

variable {st : PassState} {pos : Pos} {path : Path} {ns : Nat} {words : List Word} {callNs : Str}

/-- At a `namespace eval` the turn resolves the name and records the call. -/
theorem scanVisit_eval (hns : st.index.atPath path = some ns) :
    scanVisit st ⟨pos, ⟨.NAMESPACE_EVAL, words, callNs⟩, path⟩ = (do
      let word ← nth words 2
      let (_, index) ← resolveNamespace st.index (namespaceEvalName word) ns
      return { index, visits := st.visits ++
        [{ pos, call := ⟨.NAMESPACE_EVAL, words, callNs⟩, ns, fit := none }] }) := by
  unfold scanVisit scanAt
  simp only [hns, bind_assoc, pure_bind]

/-- At a `proc` the turn registers the proc. -/
theorem scanVisit_proc (hns : st.index.atPath path = some ns) :
    scanVisit st ⟨pos, ⟨.PROC, words, callNs⟩, path⟩ = (do
      let index ← addProcToIndex st.index ns words
      return { index, visits := st.visits ++
        [{ pos, call := ⟨.PROC, words, callNs⟩, ns, fit := none }] }) := by
  unfold scanVisit scanAt
  simp only [hns]

/-- At any other call nothing but the call is recorded. -/
theorem scanVisit_other {call : Call} (hns : st.index.atPath path = some ns)
    (heval : call.type ≠ .NAMESPACE_EVAL) (hproc : call.type ≠ .PROC) :
    scanVisit st ⟨pos, call, path⟩ =
      .ok { st with visits := st.visits ++ [{ pos, call, ns, fit := none }] } := by
  unfold scanVisit scanAt
  simp only [hns]
  rfl

end Scan

mutual

/-- The induction is on the tree. The namespace on top of the stack is the scope of the part, which the
turns before it have made. -/
theorem scanScript_agrees : ∀ (script : Script) {st : PassState} {context : ScanContext} {pos : Pos}
    {path : Path}, st.index.WF → context.At st.index path →
    AgreesIf (fitsScript scanPass path script) (scanScript st context pos script)
      ((sitesScript scanPass path pos script).foldlM scanVisit st)
  | ⟨_, commands⟩, _, _, _, _, h, hc => by
    rw [fitsScript, scanScript, sitesScript]
    exact scanCalls_agrees commands h hc

/-- The loop over the calls in the first command comes first, and keeps what the rest needs. -/
theorem scanCalls_agrees : ∀ (commands : List Call) {st : PassState} {context : ScanContext}
    {pos : Pos} {i : Nat} {path : Path}, st.index.WF → context.At st.index path →
    AgreesIf (fitsCalls scanPass path commands) (scanCalls st context pos i commands)
      ((sitesCalls scanPass path pos i commands).foldlM scanVisit st)
  | [], _, _, _, _, _, _, _ => by
    rw [fitsCalls, scanCalls, sitesCalls]
    exact .refl trivial _
  | call :: commands, _, _, _, _, _, h, hc => by
    rw [fitsCalls, scanCalls, sitesCalls, List.foldlM_append]
    refine (scanCall_agrees call h hc).bind fun st1 h1 => ?_
    have hcall := scanVisits_ok h h1
    exact scanCalls_agrees commands hcall.wf (hc.mono hcall.extended h.namespaces)

/-- The turn at the call comes first, and makes the namespace in which its words are entered. -/
theorem scanCall_agrees : ∀ (call : Call) {st : PassState} {context : ScanContext} {pos : Pos}
    {path : Path}, st.index.WF → context.At st.index path →
    AgreesIf (fitsCall scanPass path call) (scanCall st context pos call)
      ((sitesCall scanPass path pos call).foldlM scanVisit st)
  | ⟨type, words, callNs⟩, st, context, pos, path, h, hc => by
    obtain ⟨ns, hcur, hns⟩ := hc.current h.namespaces
    have hwords : ∀ {st1 : PassState}, scanVisit st ⟨pos, ⟨type, words, callNs⟩, path⟩ = .ok st1 →
        (∀ k, scanPass.enter path ⟨type, words, callNs⟩ k = some path) →
        AgreesIf (fitsCall scanPass path ⟨type, words, callNs⟩) (scanWords st1 context pos 0 words)
          ((sitesWords scanPass (scanPass.enter path ⟨type, words, callNs⟩) pos 0 words).foldlM
            scanVisit st1) := by
      intro st1 hvisit henter
      have hsite := scanVisit_ok h hvisit
      refine (scanWords_agrees words henter hsite.wf (hc.mono hsite.extended h.namespaces)).congr ?_
      rw [fitsCall, henter]
      simp
    rw [scanCall, sitesCall, List.foldlM_cons, hcur]
    cases type with
    | NAMESPACE_EVAL =>
      rw [scanVisit_eval hns]
      cases hword : nth words 2 with
      | error fault => exact .error fault
      | ok word =>
        simp only [ok_bind]
        cases hres : resolveNamespace st.index (namespaceEvalName word) ns.id with
        | error fault => exact .error fault
        | ok result =>
          obtain ⟨hpath, hwf, hg⟩ := resolveNamespace_eval h.namespaces hns
            ⟨.NAMESPACE_EVAL, words, callNs⟩ (nth_eq_ok.mp hword) hres
          refine (scanWordAt_agrees words (hg.wf h hwf) (.push hpath) ?_).congr ?_
          · funext k
            simp [scanPass, only]
          · rw [fitsCall]
            simp [scanPass]
    | PROC =>
      simp only [scanVisit_proc hns, ok_bind]
      cases hadd : addProcToIndex st.index ns.id words with
      | error fault => exact .error fault
      | ok index' =>
        refine hwords ?_ fun _ => rfl
        rw [scanVisit_proc hns, hadd]
        rfl
    | WHILE | FOR | FOREACH | IF | USER =>
      rw [scanVisit_other hns (by simp) (by simp)]
      exact hwords (scanVisit_other hns (by simp) (by simp)) fun _ => rfl

/-- Of a `namespace eval` only the body is entered, if it is there. -/
theorem scanWordAt_agrees : ∀ (words : List Word) {st : PassState} {context : ScanContext} {pos : Pos}
    {k n : Nat} {path : Path} {enter : Nat → Option Path}, st.index.WF → context.At st.index path →
    enter = only (k + n) path →
    AgreesIf (n < words.length ∧ fitsWords scanPass enter k words)
      (scanWordAt st context pos k n words)
      ((sitesWords scanPass enter pos k words).foldlM scanVisit st)
  | [], _, _, _, _, _, _, _, _, _, _ => by
    rw [scanWordAt]
    exact .of_not (by simp) _ _
  | word :: words, _, _, _, k, 0, path, _, h, hc, henter => by
    rw [henter, scanWordAt, sitesWords, sitesWords_after (by omega), List.append_nil, fitsWords]
    rw [show only (k + 0) path k = some path from only_self k path]
    refine (scanWord_agrees word h hc).congr ?_
    simp [fitsWords_after]
  | _ :: words, _, _, _, k, n + 1, path, _, h, hc, henter => by
    rw [henter, scanWordAt, sitesWords, only_of_ne (by omega), fitsWords, only_of_ne (by omega)]
    refine (scanWordAt_agrees words h hc (by rw [Nat.add_assoc, Nat.add_comm 1 n])).congr ?_
    simp

/-- Of any other call every word is entered, in one namespace. -/
theorem scanWords_agrees : ∀ (words : List Word) {st : PassState} {context : ScanContext} {pos : Pos}
    {k : Nat} {path : Path} {enter : Nat → Option Path}, (∀ k, enter k = some path) →
    st.index.WF → context.At st.index path →
    AgreesIf (fitsWords scanPass enter k words) (scanWords st context pos k words)
      ((sitesWords scanPass enter pos k words).foldlM scanVisit st)
  | [], _, _, _, _, _, _, _, _, _ => by
    rw [fitsWords, scanWords, sitesWords]
    exact .refl trivial _
  | word :: words, _, _, _, k, _, _, henter, h, hc => by
    rw [fitsWords, scanWords, sitesWords, henter k, List.foldlM_append]
    refine (scanWord_agrees word h hc).bind fun st1 h1 => ?_
    have hword := scanVisits_ok h h1
    exact scanWords_agrees words henter hword.wf (hc.mono hword.extended h.namespaces)

theorem scanWord_agrees : ∀ (word : Word) {st : PassState} {context : ScanContext} {pos : Pos}
    {path : Path}, st.index.WF → context.At st.index path →
    AgreesIf (fitsWord scanPass path word) (scanWord st context pos word)
      ((sitesWord scanPass path pos word).foldlM scanVisit st)
  | ⟨type, location, text, data⟩, _, _, _, _, h, hc => by
    rw [fitsWord, scanWord, sitesWord]
    exact scanData_agrees data h hc

/-- The cases are the alternatives of the data and, of the types, those that need one of them. -/
theorem scanData_agrees : ∀ (data : WordData) {st : PassState} {context : ScanContext} {pos : Pos}
    {path : Path} {type : WordType} {location : SourceLocation} {text : StringView},
    st.index.WF → context.At st.index path →
    AgreesIf ((scanPass.descend path type).elim True fun path =>
        Word.DataFits ⟨type, location, text, data⟩ ∧ fitsData scanPass path data)
      (scanData st context pos type data)
      (((scanPass.descend path type).elim [] fun path => sitesData scanPass path pos data).foldlM
        scanVisit st)
  | .nothing, _, _, _, _, type, _, _, _, _ => by
    cases type with
    | TEXT | VARIABLE | ARRAY_ACCESS | LIST | ERROR => exact .refl trivial _
    | EXPAND | TOKEN_LIST | SCRIPT => exact .of_not (by simp [scanPass, Word.DataFits]) _ _
  | .arrayAccess _ _, _, _, _, _, type, _, _, _, _ => by
    cases type with
    | TEXT | VARIABLE | ARRAY_ACCESS | LIST | ERROR => exact .refl trivial _
    | EXPAND | TOKEN_LIST | SCRIPT => exact .of_not (by simp [scanPass, Word.DataFits]) _ _
  | .script script, st, _, pos, path, type, _, _, h, hc => by
    cases type with
    | SCRIPT =>
      show AgreesIf (Word.DataFits _ ∧ fitsData scanPass path (.script script)) _
        ((sitesData scanPass path pos (.script script)).foldlM scanVisit st)
      rw [fitsData, scanData, sitesData]
      exact (scanScript_agrees script h hc).congr (by simp [Word.DataFits])
    | TEXT | VARIABLE | ARRAY_ACCESS | LIST | ERROR => exact .refl trivial _
    | EXPAND | TOKEN_LIST => exact .of_not (by simp [scanPass, Word.DataFits]) _ _
  | .words words, st, _, pos, path, type, _, _, h, hc => by
    cases type with
    | TOKEN_LIST | EXPAND =>
      show AgreesIf (Word.DataFits _ ∧ fitsData scanPass path (.words words)) _
        ((sitesData scanPass path pos (.words words)).foldlM scanVisit st)
      rw [fitsData, scanData, sitesData]
      exact (scanWords_agrees words (fun _ => rfl) h hc).congr (by simp [Word.DataFits])
    | TEXT | VARIABLE | ARRAY_ACCESS | LIST | ERROR => exact .refl trivial _
    | SCRIPT => exact .of_not (by simp [scanPass, Word.DataFits]) _ _

end

/-! ## `IndexScript` -/

section Index

variable {st : PassState} {pos : Pos} {path : Path} {ns : Nat} {words : List Word} {callNs : Str}

/-- At a `namespace eval` the turn does what it does in `ScanScript`. -/
theorem indexVisit_eval (hns : st.index.atPath path = some ns) :
    indexVisit st ⟨pos, ⟨.NAMESPACE_EVAL, words, callNs⟩, path⟩ = (do
      let word ← nth words 2
      let (_, index) ← resolveNamespace st.index (namespaceEvalName word) ns
      return { index, visits := st.visits ++
        [{ pos, call := ⟨.NAMESPACE_EVAL, words, callNs⟩, ns, fit := none }] }) := by
  unfold indexVisit indexAt
  simp only [hns, bind_assoc, pure_bind]

/-- At a `proc` the turn resolves its name. -/
theorem indexVisit_proc (hns : st.index.atPath path = some ns) :
    indexVisit st ⟨pos, ⟨.PROC, words, callNs⟩, path⟩ = (do
      let word ← nth words 1
      let (_, index) ← resolveNamespace st.index (splitName word.text.bytes) ns
      return { index, visits := st.visits ++
        [{ pos, call := ⟨.PROC, words, callNs⟩, ns, fit := none }] }) := by
  unfold indexVisit indexAt
  simp only [hns, bind_assoc, pure_bind]

/-- At a call of a proc the turn looks for the proc and records the usage. -/
theorem indexVisit_user (hns : st.index.atPath path = some ns) :
    indexVisit st ⟨pos, ⟨.USER, words, callNs⟩, path⟩ = (do
      let (fit, index) ← indexUsage st.index ns ⟨.USER, words, callNs⟩
      return { index, visits := st.visits ++
        [{ pos, call := ⟨.USER, words, callNs⟩, ns, fit }] }) := by
  unfold indexVisit
  simp only [hns]

theorem indexVisit_other {call : Call} (hns : st.index.atPath path = some ns)
    (heval : call.type ≠ .NAMESPACE_EVAL) (hproc : call.type ≠ .PROC) (huser : call.type ≠ .USER) :
    indexVisit st ⟨pos, call, path⟩ =
      .ok { st with visits := st.visits ++ [{ pos, call, ns, fit := none }] } := by
  unfold indexVisit indexAt
  simp only [hns]
  rfl

end Index

mutual

/-- As for `ScanScript`, with the turns of the other pass. -/
theorem indexScript_agrees : ∀ (script : Script) {st : PassState} {context : ScanContext} {pos : Pos}
    {path : Path}, st.index.WF → context.At st.index path →
    AgreesIf (fitsScript indexPass path script) (indexScript st context pos script)
      ((sitesScript indexPass path pos script).foldlM indexVisit st)
  | ⟨_, commands⟩, _, _, _, _, h, hc => by
    rw [fitsScript, indexScript, sitesScript]
    exact indexCalls_agrees commands h hc

theorem indexCalls_agrees : ∀ (commands : List Call) {st : PassState} {context : ScanContext}
    {pos : Pos} {i : Nat} {path : Path}, st.index.WF → context.At st.index path →
    AgreesIf (fitsCalls indexPass path commands) (indexCalls st context pos i commands)
      ((sitesCalls indexPass path pos i commands).foldlM indexVisit st)
  | [], _, _, _, _, _, _, _ => by
    rw [fitsCalls, indexCalls, sitesCalls]
    exact .refl trivial _
  | call :: commands, _, _, _, _, _, h, hc => by
    rw [fitsCalls, indexCalls, sitesCalls, List.foldlM_append]
    refine (indexCall_agrees call h hc).bind fun st1 h1 => ?_
    have hcall := indexVisits_ok h h1
    exact indexCalls_agrees commands hcall.wf (hc.mono hcall.extended h.namespaces)

/-- The turn at a `proc` too makes the namespace in which the body is entered. -/
theorem indexCall_agrees : ∀ (call : Call) {st : PassState} {context : ScanContext} {pos : Pos}
    {path : Path}, st.index.WF → context.At st.index path →
    AgreesIf (fitsCall indexPass path call) (indexCall st context pos call)
      ((sitesCall indexPass path pos call).foldlM indexVisit st)
  | ⟨type, words, callNs⟩, st, context, pos, path, h, hc => by
    obtain ⟨ns, hcur, hns⟩ := hc.current h.namespaces
    have hwords : ∀ {st1 : PassState}, indexVisit st ⟨pos, ⟨type, words, callNs⟩, path⟩ = .ok st1 →
        (∀ k, indexPass.enter path ⟨type, words, callNs⟩ k = some path) →
        AgreesIf (fitsCall indexPass path ⟨type, words, callNs⟩) (indexWords st1 context pos 0 words)
          ((sitesWords indexPass (indexPass.enter path ⟨type, words, callNs⟩) pos 0 words).foldlM
            indexVisit st1) := by
      intro st1 hvisit henter
      have hsite := indexVisit_ok h hvisit
      refine (indexWords_agrees words henter hsite.wf (hc.mono hsite.extended h.namespaces)).congr ?_
      rw [fitsCall, henter]
      simp
    rw [indexCall, sitesCall, List.foldlM_cons, hcur]
    cases type with
    | NAMESPACE_EVAL =>
      rw [indexVisit_eval hns]
      cases hword : nth words 2 with
      | error fault => exact .error fault
      | ok word =>
        simp only [ok_bind]
        cases hres : resolveNamespace st.index (namespaceEvalName word) ns.id with
        | error fault => exact .error fault
        | ok result =>
          obtain ⟨hpath, hwf, hg⟩ := resolveNamespace_eval h.namespaces hns
            ⟨.NAMESPACE_EVAL, words, callNs⟩ (nth_eq_ok.mp hword) hres
          refine (indexWordAt_agrees words (hg.wf h hwf) (.push hpath) ?_).congr ?_
          · funext k
            simp [indexPass, only]
          · rw [fitsCall]
            simp [indexPass]
    | PROC =>
      rw [indexVisit_proc hns]
      cases hword : nth words 1 with
      | error fault => exact .error fault
      | ok word =>
        simp only [ok_bind]
        cases hres : resolveNamespace st.index (splitName word.text.bytes) ns.id with
        | error fault => exact .error fault
        | ok result =>
          obtain ⟨hpath, hwf, hg, -⟩ := resolveNamespace_proc h.namespaces hns
            ⟨.PROC, words, callNs⟩ (nth_eq_ok.mp hword) hres
          refine (indexWordAt_agrees words (hg.wf h hwf) (.push hpath) ?_).congr ?_
          · funext k
            simp [indexPass, only]
          · rw [fitsCall]
            simp [indexPass]
    | USER =>
      simp only [indexVisit_user hns, ok_bind]
      cases hu : indexUsage st.index ns.id ⟨.USER, words, callNs⟩ with
      | error fault => exact .error fault
      | ok result =>
        refine hwords ?_ fun _ => rfl
        rw [indexVisit_user hns, hu]
        rfl
    | WHILE | FOR | FOREACH | IF =>
      rw [indexVisit_other hns (by simp) (by simp) (by simp)]
      exact hwords (indexVisit_other hns (by simp) (by simp) (by simp)) fun _ => rfl

/-- Of a `namespace eval` and of a `proc` only the body is entered. -/
theorem indexWordAt_agrees : ∀ (words : List Word) {st : PassState} {context : ScanContext} {pos : Pos}
    {k n : Nat} {path : Path} {enter : Nat → Option Path}, st.index.WF → context.At st.index path →
    enter = only (k + n) path →
    AgreesIf (n < words.length ∧ fitsWords indexPass enter k words)
      (indexWordAt st context pos k n words)
      ((sitesWords indexPass enter pos k words).foldlM indexVisit st)
  | [], _, _, _, _, _, _, _, _, _, _ => by
    rw [indexWordAt]
    exact .of_not (by simp) _ _
  | word :: words, _, _, _, k, 0, path, _, h, hc, henter => by
    rw [henter, indexWordAt, sitesWords, sitesWords_after (by omega), List.append_nil, fitsWords]
    rw [show only (k + 0) path k = some path from only_self k path]
    refine (indexWord_agrees word h hc).congr ?_
    simp [fitsWords_after]
  | _ :: words, _, _, _, k, n + 1, path, _, h, hc, henter => by
    rw [henter, indexWordAt, sitesWords, only_of_ne (by omega), fitsWords, only_of_ne (by omega)]
    refine (indexWordAt_agrees words h hc (by rw [Nat.add_assoc, Nat.add_comm 1 n])).congr ?_
    simp

theorem indexWords_agrees : ∀ (words : List Word) {st : PassState} {context : ScanContext} {pos : Pos}
    {k : Nat} {path : Path} {enter : Nat → Option Path}, (∀ k, enter k = some path) →
    st.index.WF → context.At st.index path →
    AgreesIf (fitsWords indexPass enter k words) (indexWords st context pos k words)
      ((sitesWords indexPass enter pos k words).foldlM indexVisit st)
  | [], _, _, _, _, _, _, _, _, _ => by
    rw [fitsWords, indexWords, sitesWords]
    exact .refl trivial _
  | word :: words, _, _, _, k, _, _, henter, h, hc => by
    rw [fitsWords, indexWords, sitesWords, henter k, List.foldlM_append]
    refine (indexWord_agrees word h hc).bind fun st1 h1 => ?_
    have hword := indexVisits_ok h h1
    exact indexWords_agrees words henter hword.wf (hc.mono hword.extended h.namespaces)

theorem indexWord_agrees : ∀ (word : Word) {st : PassState} {context : ScanContext} {pos : Pos}
    {path : Path}, st.index.WF → context.At st.index path →
    AgreesIf (fitsWord indexPass path word) (indexWord st context pos word)
      ((sitesWord indexPass path pos word).foldlM indexVisit st)
  | ⟨type, location, text, data⟩, _, _, _, _, h, hc => by
    rw [fitsWord, indexWord, sitesWord]
    exact indexData_agrees data h hc

/-- The words of an array index are entered here too. -/
theorem indexData_agrees : ∀ (data : WordData) {st : PassState} {context : ScanContext} {pos : Pos}
    {path : Path} {type : WordType} {location : SourceLocation} {text : StringView},
    st.index.WF → context.At st.index path →
    AgreesIf ((indexPass.descend path type).elim True fun path =>
        Word.DataFits ⟨type, location, text, data⟩ ∧ fitsData indexPass path data)
      (indexData st context pos type data)
      (((indexPass.descend path type).elim [] fun path => sitesData indexPass path pos data).foldlM
        indexVisit st)
  | .nothing, _, _, _, _, type, _, _, _, _ => by
    cases type with
    | TEXT | VARIABLE | LIST | ERROR => exact .refl trivial _
    | ARRAY_ACCESS | EXPAND | TOKEN_LIST | SCRIPT =>
      exact .of_not (by simp [indexPass, Word.DataFits]) _ _
  | .arrayAccess name index, st, _, pos, path, type, _, _, h, hc => by
    cases type with
    | ARRAY_ACCESS =>
      show AgreesIf (Word.DataFits _ ∧ fitsData indexPass path (.arrayAccess name index)) _
        ((sitesData indexPass path pos (.arrayAccess name index)).foldlM indexVisit st)
      rw [fitsData, indexData, sitesData]
      exact (indexWords_agrees index (fun _ => rfl) h hc).congr (by simp [Word.DataFits])
    | TEXT | VARIABLE | LIST | ERROR => exact .refl trivial _
    | EXPAND | TOKEN_LIST | SCRIPT => exact .of_not (by simp [indexPass, Word.DataFits]) _ _
  | .script script, st, _, pos, path, type, _, _, h, hc => by
    cases type with
    | SCRIPT =>
      show AgreesIf (Word.DataFits _ ∧ fitsData indexPass path (.script script)) _
        ((sitesData indexPass path pos (.script script)).foldlM indexVisit st)
      rw [fitsData, indexData, sitesData]
      exact (indexScript_agrees script h hc).congr (by simp [Word.DataFits])
    | TEXT | VARIABLE | LIST | ERROR => exact .refl trivial _
    | ARRAY_ACCESS | EXPAND | TOKEN_LIST => exact .of_not (by simp [indexPass, Word.DataFits]) _ _
  | .words words, st, _, pos, path, type, _, _, h, hc => by
    cases type with
    | TOKEN_LIST | EXPAND =>
      show AgreesIf (Word.DataFits _ ∧ fitsData indexPass path (.words words)) _
        ((sitesData indexPass path pos (.words words)).foldlM indexVisit st)
      rw [fitsData, indexData, sitesData]
      exact (indexWords_agrees words (fun _ => rfl) h hc).congr (by simp [Word.DataFits])
    | TEXT | VARIABLE | LIST | ERROR => exact .refl trivial _
    | ARRAY_ACCESS | SCRIPT => exact .of_not (by simp [indexPass, Word.DataFits]) _ _

end

/-! ## What holds of the passes -/

section Passes

variable {script : Script} {st st' : PassState} {context : ScanContext} {pos : Pos} {path : Path}

/-- On a tree with the promised data the passes are their loops, also where they fail. -/
theorem scanScript_typed (htyped : script.Typed) (h : st.index.WF) (hc : context.At st.index path) :
    scanScript st context pos script = (sitesScript scanPass path pos script).foldlM scanVisit st :=
  (scanScript_agrees script h hc).eq (fitsScript_typed scanPass_bodies script path htyped)

theorem indexScript_typed (htyped : script.Typed) (h : st.index.WF) (hc : context.At st.index path) :
    indexScript st context pos script = (sitesScript indexPass path pos script).foldlM indexVisit st :=
  (indexScript_agrees script h hc).eq (fitsScript_typed indexPass_bodies script path htyped)

/-- What a scan adds to the index, read off its loop. -/
theorem scanScript_ok (h : st.index.WF) (hc : context.At st.index path)
    (hs : scanScript st context pos script = .ok st') :
    Scanned st st' (sitesScript scanPass path pos script) :=
  scanVisits_ok h ((scanScript_agrees script h hc).ok hs)

/-- What an indexing adds to the index, read off its loop. -/
theorem indexScript_ok (h : st.index.WF) (hc : context.At st.index path)
    (hs : indexScript st context pos script = .ok st') :
    Indexed st st' (sitesScript indexPass path pos script) :=
  indexVisits_ok h ((indexScript_agrees script h hc).ok hs)

end Passes

end TclAnalyzer
