import TclAnalyzer.Analyzer.Name
import TclAnalyzer.Analyzer.SourceLocation

/-!
# Scripts

The parse tree and the parser that builds it from the tokens of the Tcl library. `Tcl_ParseCommand`
and `TclFindElement` belong to that library and are parameters (`TclInterp`).

`ParseScript`, `ParseCommand` and `ParseWord` recurse into each other. `parseWord` and `parseCommand`
take the parser of nested scripts as an argument, and `parseScriptAt` ties the knot, with a bound on
the depth of nesting.
-/

namespace TclAnalyzer

/-! ## The parse tree -/

/-- `Word::Type`. -/
inductive WordType where
  | TEXT | VARIABLE | ARRAY_ACCESS | SCRIPT | TOKEN_LIST | EXPAND | LIST | ERROR
  deriving DecidableEq, Repr

/-- `Call::Type`. -/
inductive CallType where
  | PROC | WHILE | FOR | FOREACH | NAMESPACE_EVAL | IF | USER
  deriving DecidableEq, Repr

mutual

/-- A word. The tag `type` says which alternative `data` holds, but nothing ties the two. -/
structure Word where
  type : WordType
  location : SourceLocation
  text : StringView
  data : WordData

/-- The alternatives of `Word::data`. `WordPtr` is left out: it is never built nor read. -/
inductive WordData where
  | nothing
  | arrayAccess (name : Str) (index : List Word)
  | script (script : Script)
  | words (words : List Word)

/-- A command with its words; `ns` is the lexical namespace in which the call happens. -/
structure Call where
  type : CallType
  words : List Word
  ns : Str

structure Script where
  location : SourceLocation
  commands : List Call

end

/-! ## The Tcl library -/

inductive TokenType where
  | WORD | SIMPLE_WORD | EXPAND_WORD | TEXT | BS | COMMAND | VARIABLE | SUB_EXPR | OPERATOR
  deriving DecidableEq, Repr

/-- `Tcl_Token`; `start` is an offset into the file. -/
structure Token where
  type : TokenType
  start : Nat
  size : Nat
  numComponents : Nat
  deriving DecidableEq, Repr

/-- What `Tcl_ParseCommand` fills in. -/
structure TclParse where
  commandStart : Nat
  commandSize : Nat
  commentSize : Nat
  numWords : Nat
  tokens : List Token
  deriving DecidableEq, Repr

/-- What `TclFindElement` fills in: the element and its size, and where the next one starts. -/
structure ListElement where
  element : Nat
  next : Nat
  size : Nat
  deriving DecidableEq, Repr

/-- The functions of the Tcl library that the parser calls; `none` is `TCL_ERROR`. -/
structure TclInterp where
  parseCommand : StringView → Option TclParse
  findElement : StringView → Option ListElement

/-- `curNs` is changed while the body of a `proc` or `namespace eval` is parsed and restored after
it; here the body is parsed in a changed context. -/
structure ParseContext where
  file : SourceFile
  curNs : Str
  deriving DecidableEq, Repr

/-- A parser for the scripts nested in a command. -/
abbrev ScriptParser := ParseContext → StringView → Except Fault Script

/-! ## Words -/

section Words

variable (nested : ScriptParser) (context : ParseContext) (tokens : List Token)

mutual

/-- `ParseWord` at token `nextToken`, with the index of the token after the word. -/
def parseWord : (fuel nextToken : Nat) → Except Fault (Word × Nat)
  | 0, _ => .error .diverges
  | fuel + 1, nextToken => do
    let token ← nth tokens nextToken
    let nextToken := nextToken + 1
    let text := context.file.view token.start token.size
    match token.type with
    | .SIMPLE_WORD =>
      if token.numComponents ≠ 1 then throw .assertion
      parseWord fuel nextToken
    | .WORD =>
      let location ← makeSourceLocation context.file token.start
      let (vec, nextToken) ← parseWords fuel (nextToken + token.numComponents) nextToken
      return ({ type := .TOKEN_LIST, location, text, data := .words vec }, nextToken)
    | .EXPAND_WORD =>
      let location ← makeSourceLocation context.file token.start
      let (vec, nextToken) ← parseWords fuel (nextToken + token.numComponents) nextToken
      return ({ type := .EXPAND, location, text, data := .words vec }, nextToken)
    | .TEXT | .BS =>
      let location ← makeSourceLocation context.file token.start
      return ({ type := .TEXT, location, text, data := .nothing }, nextToken)
    | .COMMAND =>
      let location ← makeSourceLocation context.file token.start
      if token.size < 2 then throw .underflow
      -- without the brackets
      let script ← nested context (context.file.view (token.start + 1) (token.size - 2))
      return ({ type := .SCRIPT, location, text, data := .script script }, nextToken)
    | .VARIABLE =>
      if token.numComponents = 1 then
        let (word, nextToken) ← parseWord fuel nextToken
        return ({ word with type := .VARIABLE }, nextToken)
      else
        let location ← makeSourceLocation context.file token.start
        let maxToken := nextToken + token.numComponents
        let (name, nextToken) ← parseWord fuel nextToken
        if name.type ≠ .TEXT then throw .assertion
        let (index, nextToken) ← parseWords fuel maxToken nextToken
        return ({ type := .ARRAY_ACCESS, location, text,
                  data := .arrayAccess name.text.bytes index }, nextToken)
    | .SUB_EXPR | .OPERATOR => throw .assertion

/-- The loops of `ParseWord` and `ParseCommand` that parse words as long as `nextToken < maxToken`. -/
def parseWords : (fuel maxToken nextToken : Nat) → Except Fault (List Word × Nat)
  | 0, _, _ => .error .diverges
  | fuel + 1, maxToken, nextToken =>
    if nextToken < maxToken then do
      let (word, nextToken) ← parseWord fuel nextToken
      let (rest, nextToken) ← parseWords fuel maxToken nextToken
      return (word :: rest, nextToken)
    else return ([], nextToken)

end

end Words

/-- The loop of `WordToList`; `none` when the text is not a list. -/
def wordToListFrom (interp : TclInterp) (context : ParseContext) (last : Nat) :
    (fuel list length : Nat) → Except Fault (Option (List Word))
  | 0, _, _ => .error .diverges
  | fuel + 1, list, length =>
    match interp.findElement (context.file.view list length) with
    | none => return none
    | some found => do
      if found.next < list ∨ length < found.next - list then throw .underflow
      if last ≤ found.element then return some []
      let location ← makeSourceLocation context.file found.element
      let word : Word := { type := .TEXT, location,
                           text := context.file.view found.element found.size, data := .nothing }
      let rest ← wordToListFrom interp context last fuel found.next (length - (found.next - list))
      return rest.map (word :: ·)

/-- The word with its text split into list elements, unless it is not a list or has one element. -/
def wordToList (interp : TclInterp) (context : ParseContext) (word : Word) : Except Fault Word := do
  let length := word.text.bytes.length
  let vec ← wordToListFrom interp context (word.text.data + length) (length + 1) word.text.data length
  match vec with
  | none => return word
  | some vec =>
    return if vec.length = 1 then word else { word with type := .LIST, data := .words vec }

/-! ## Commands -/

/-- The namespace in which `ParseCommand` parses the body of `proc name …`. -/
def procNs (curNs : Str) (name : Word) : Str :=
  if name.type = .TEXT then ((splitName name.text.bytes).absPath curNs).namespacePath else curNs

/-- The namespace in which `ParseCommand` parses the body of `namespace eval arg …`. -/
def namespaceEvalNs (curNs : Str) (arg : Word) : Str :=
  if arg.type = .TEXT then ((splitName arg.text.bytes).absPath curNs).path else curNs

namespace ParseCommand

variable (interp : TclInterp) (nested : ScriptParser) (context : ParseContext) (parse : TclParse)

/-- Steps that suffice for the tokens of a command: every call of `parseWord` takes one, and every
turn of a loop parses a word. -/
def fuel : Nat := 2 * parse.tokens.length + 2

def parseRest (tokenIndex : Nat) : Except Fault (List Word) := do
  let (words, _) ← parseWords nested context parse.tokens (fuel parse) parse.tokens.length tokenIndex
  return words

/-- The word put in the place of one that is missing. -/
def errorWord (message : String) : Except Fault Word := do
  let location ← makeSourceLocation context.file (parse.commandStart + parse.commentSize)
  return { type := .ERROR, location, text := { data := 0, bytes := bytes message }, data := .nothing }

def parseWord (tokenIndex : Nat) : Except Fault (Word × Nat) :=
  if parse.tokens.length ≤ tokenIndex then do
    return (← errorWord context parse "Expected word!", tokenIndex)
  else TclAnalyzer.parseWord nested context parse.tokens (fuel parse) tokenIndex

def parseArgs (tokenIndex : Nat) : Except Fault (Word × Nat) :=
  if parse.tokens.length ≤ tokenIndex then do
    return (← errorWord context parse "Expected list!", tokenIndex)
  else do
    let (word, tokenIndex) ← TclAnalyzer.parseWord nested context parse.tokens (fuel parse) tokenIndex
    let word ← wordToList interp context word
    match word.type, word.data with
    -- the elements of a list of arguments are lists as well
    | .LIST, .words vec =>
      let parsedArgs ← vec.mapM (wordToList interp context)
      return ({ word with data := .words parsedArgs }, tokenIndex)
    | .LIST, _ => throw .badVariantAccess
    | _, _ => return (word, tokenIndex)

def parseBody (tokenIndex : Nat) : Except Fault (Word × Nat) :=
  if parse.tokens.length ≤ tokenIndex then do
    return (← errorWord context parse "Expected body!", tokenIndex)
  else do
    let (word, tokenIndex) ← TclAnalyzer.parseWord nested context parse.tokens (fuel parse) tokenIndex
    if word.type = .TEXT then
      let script ← nested context word.text
      return ({ word with type := .SCRIPT, data := .script script }, tokenIndex)
    else return (word, tokenIndex)

/-- The type of the call and its words after the command word, up to the ones `parseRest` takes. -/
def parseKnown (cmdWord : Word) (i : Nat) : Except Fault (CallType × List Word × Nat) := do
  if cmdWord.type = .TEXT then
    let cmd := cmdWord.text.bytes
    if cmd = bytes "proc" ∧ parse.numWords = 4 then
      let (name, i) ← parseWord nested context parse i
      let (args, i) ← parseArgs interp nested context parse i
      let context' := { context with curNs := procNs context.curNs name }
      let (body, i) ← parseBody nested context' parse i
      return (.PROC, [name, args, body], i)
    else if cmd = bytes "while" ∧ parse.numWords = 3 then
      let (test, i) ← parseWord nested context parse i
      let (body, i) ← parseBody nested context parse i
      return (.WHILE, [test, body], i)
    else if cmd = bytes "for" ∧ parse.numWords = 5 then
      let (start, i) ← parseBody nested context parse i
      let (test, i) ← parseWord nested context parse i
      let (next, i) ← parseBody nested context parse i
      let (body, i) ← parseBody nested context parse i
      return (.FOR, [start, test, next, body], i)
    else if cmd = bytes "foreach" ∧ parse.numWords = 4 then
      let (names, i) ← parseWord nested context parse i
      let (list, i) ← parseWord nested context parse i
      let (body, i) ← parseBody nested context parse i
      return (.FOREACH, [names, list, body], i)
    else if cmd = bytes "namespace" ∧ parse.numWords > 1 then
      let (subCmd, i) ← parseWord nested context parse i
      if subCmd.type = .TEXT ∧ subCmd.text.bytes = bytes "eval" ∧ parse.numWords = 4 then
        let (arg, i) ← parseWord nested context parse i
        let context' := { context with curNs := namespaceEvalNs context.curNs arg }
        let (body, i) ← parseBody nested context' parse i
        return (.NAMESPACE_EVAL, [subCmd, arg, body], i)
      else return (.USER, [subCmd], i)
    else return (.USER, [], i)
  else return (.USER, [], i)

end ParseCommand

/-- The call appended to the script, if the command has any words. -/
def parseCommand (interp : TclInterp) (nested : ScriptParser) (context : ParseContext)
    (parse : TclParse) : Except Fault (Option Call) := do
  if parse.numWords < 1 then return none
  let (cmdWord, i) ← ParseCommand.parseWord nested context parse 0
  let (type, known, i) ← ParseCommand.parseKnown interp nested context parse cmdWord i
  let rest ← ParseCommand.parseRest nested context parse i
  return some { type, words := cmdWord :: known ++ rest, ns := context.curNs }

/-! ## Scripts -/

/-- The loop of `ParseScript` over the remaining text. -/
def parseScriptFrom (interp : TclInterp) (nested : ScriptParser) (context : ParseContext) :
    (fuel : Nat) → StringView → Except Fault (List Call)
  | 0, _ => .error .diverges
  | fuel + 1, script =>
    if script.bytes = [] then return []
    else
      match interp.parseCommand script with
      | none => return []
      | some parse => do
        let call ← parseCommand interp nested context parse
        let last := script.data + script.bytes.length
        let start := parse.commandStart + parse.commandSize
        if last < start then throw .assertion
        let rest ← parseScriptFrom interp nested context fuel (context.file.view start (last - start))
        return call.toList ++ rest

/-- `ParseScript` for scripts nested less than `depth` deep. -/
def parseScriptAt (interp : TclInterp) : (depth : Nat) → ScriptParser
  | 0, _, _ => .error .diverges
  | depth + 1, context, script => do
    let location ← makeSourceLocation context.file script.data
    let commands ← parseScriptFrom interp (parseScriptAt interp depth) context
      (script.bytes.length + 1) script
    return { location, commands }

/-- `ParseScript`. A nested script is shorter than the one around it, which bounds the depth. -/
def parseScript (interp : TclInterp) : ScriptParser := fun context script =>
  parseScriptAt interp (script.bytes.length + 1) context script

end TclAnalyzer
