import TclAnalyzer.Lsp.Comms

/-!
# Header blocks

What `read_message` takes off the stream, line by line and body by body, and where a body has to stand:
after the blank line of the header block that gives its length. What it yields is read off the bytes:
header blocks one after the other, each with the body that its last length asks for.
-/

namespace TclAnalyzer

/-! ## What is taken -/

/-- A piece that `read_message` consumes at once: a line, here without its newline, or a body. -/
inductive Taken where
  | line (text : Str)
  | body (data : Str)
  deriving DecidableEq, Repr

def Taken.bytes : Taken → Str
  | line text => text ++ [newline]
  | body data => data

/-- `readHeaders`, and before its result the lines that it takes. -/
def readHeadersTaken : (fuel contentLength : Nat) → Stream →
    List Taken × Except Fault (Option (Nat × Stream))
  | 0, _, _ => ([], .error .diverges)
  | fuel + 1, contentLength, str =>
    match asyncReadUntil str.buf str.chunks with
    | none => ([], .ok none)
    | some (bytesRead, str) =>
      let line := str.buf.take (bytesRead - 1)
      let str := { str with buf := str.buf.drop bytesRead }
      match headerTurn contentLength line with
      | none => ([.line line], .ok (some (contentLength, str)))
      | some contentLength =>
        let (taken, result) := readHeadersTaken fuel contentLength str
        (.line line :: taken, result)

section Messages

variable {Json : Type} (lib : JsonLib Json)

/-- `read_message` to its end, and before the messages and the end what it takes. A body that does not
parse is taken. -/
def readTakenFrom : (fuel : Nat) → Stream → List Taken × List Json × Except Fault Unit
  | 0, _ => ([], [], .error .diverges)
  | fuel + 1, str =>
    match readHeadersTaken (str.rest.length + 1) 0 str with
    | (lines, .error fault) => (lines, [], .error fault)
    | (lines, .ok none) => (lines, [], .ok ())
    | (lines, .ok (some (contentLength, str))) =>
      if contentLength = 0 then
        let (taken, yielded) := readTakenFrom fuel str
        (lines ++ taken, yielded)
      else
        match readContent contentLength str with
        | none => (lines, [], .ok ())
        | some str =>
          let data := str.buf.take contentLength
          match lib.parse data with
          | none => (lines ++ [.body data], [], .error .json)
          | some message =>
            let (taken, messages, ended) :=
              readTakenFrom fuel { str with buf := str.buf.drop contentLength }
            (lines ++ .body data :: taken, message :: messages, ended)

def readTaken (chunks : List Str) : List Taken × List Json × Except Fault Unit :=
  readTakenFrom lib (chunks.flatten.length + 1) { buf := [], chunks }

end Messages

/-! ## Lines of a header -/

/-- The line without the carriage returns at its end is empty. -/
def BlankLine (line : Str) : Prop := line.rdropWhile (· = carriageReturn) = []

/-- What stands after the colon of a Content-Length line and the whitespace there. -/
def lengthValue (line : Str) : Option Str :=
  let line := line.rdropWhile (· = carriageReturn)
  if colon ∈ line ∧ (line.takeWhile (· ≠ colon)).map tolower = bytes "content-length" then
    some (((line.dropWhile (· ≠ colon)).drop 1).dropWhile isspace)
  else none

/-- A Content-Length line with nothing after the colon, or with something that is no number. -/
def BadLength (line : Str) : Prop := ∃ value, lengthValue line = some value ∧ fromChars value = none

/-- The lines stand in a header without a blank line and without a bad length, and the last length
that they give is this one, or 0 when they give none. -/
inductive HeaderLines : List Str → Nat → Prop
  | nil : HeaderLines [] 0
  | other {lines : List Str} {n : Nat} {line : Str} :
    HeaderLines lines n → newline ∉ line → ¬ BlankLine line → lengthValue line = none →
    HeaderLines (lines ++ [line]) n
  | length {lines : List Str} {n : Nat} {line value : Str} {contentLength : Nat} :
    HeaderLines lines n → newline ∉ line → lengthValue line = some value →
    fromChars value = some contentLength → HeaderLines (lines ++ [line]) contentLength

def lineBytes (lines : List Str) : Str := lines.flatMap (· ++ [newline])

/-! ## Where bodies stand -/

/-- These are the last bytes before the body: the lines of a header block with its length, and the
blank line that ends the block. -/
def FollowsBlock (before : List Taken) (data : Str) : Prop :=
  ∃ (earlier : List Taken) (lines : List Str) (blank : Str),
    before = earlier ++ (lines ++ [blank]).map Taken.line ∧ HeaderLines lines data.length ∧
    BlankLine blank

/-- Every body is the content of the header block right before it, and no part of a block in which a
length is bad. -/
structure BodiesPlaced (input : Str) (taken : List Taken) : Prop where
  /-- Nothing on the stream is left out. -/
  isPrefix : taken.flatMap Taken.bytes <+: input
  follows : ∀ before data after, taken = before ++ .body data :: after → FollowsBlock before data
  /-- No body is taken before the end of the block in which a length is bad. -/
  spared : ∀ before bad (lines : List Str) data after,
    taken = before ++ .line bad :: (lines.map Taken.line ++ .body data :: after) → BadLength bad →
    ∃ blank ∈ lines, BlankLine blank

/-- What is left of an input where a header block starts: at its start, after a block without a length
or with the length 0, or after the content of a block, if it parses. A bad length ends a block. -/
inductive BlockStart {Json : Type} (lib : JsonLib Json) (input : Str) : Str → Prop
  | start : BlockStart lib input input
  | noLength {lines : List Str} {last rest : Str} :
    BlockStart lib input (lineBytes (lines ++ [last]) ++ rest) → HeaderLines lines 0 →
    newline ∉ last → BlankLine last ∨ BadLength last → BlockStart lib input rest
  | content {lines : List Str} {blank data rest : Str} :
    BlockStart lib input (lineBytes (lines ++ [blank]) ++ (data ++ rest)) →
    HeaderLines lines data.length → newline ∉ blank → BlankLine blank → data ≠ [] →
    (lib.parse data).isSome → BlockStart lib input rest

/-- A header block in which a bad length comes after a length that is not 0, with as many bytes after
the line. -/
def LateBadLength (rest : Str) : Prop :=
  ∃ lines contentLength bad after, rest = lineBytes (lines ++ [bad]) ++ after ∧
    HeaderLines lines contentLength ∧ contentLength ≠ 0 ∧ newline ∉ bad ∧ BadLength bad ∧
    contentLength ≤ after.length

/-! ## The messages in the bytes -/

/-- The bytes hold these messages, and the reader ends in this way after them, with a buffer of this
size. A block is a header up to a blank line or a bad length. -/
inductive Decodes {Json : Type} (limit : Option Nat) (lib : JsonLib Json) :
    Str → List Json → Except Fault Unit → Prop
  /-- The header does not end. -/
  | unended {lines : List Str} {n : Nat} {tail : Str} : HeaderLines lines n → newline ∉ tail →
    Decodes limit lib (lineBytes lines ++ tail) [] (.ok ())
  /-- A block without a length is skipped. -/
  | noLength {lines : List Str} {last rest : Str} {messages : List Json} {ended : Except Fault Unit} :
    HeaderLines lines 0 → newline ∉ last → BlankLine last ∨ BadLength last →
    Decodes limit lib rest messages ended →
    Decodes limit lib (lineBytes (lines ++ [last]) ++ rest) messages ended
  /-- The body does not fit into the buffer behind the bytes that are in it already. -/
  | tooLong {lines : List Str} {n size buffered : Nat} {last rest : Str} : HeaderLines lines n →
    newline ∉ last → BlankLine last ∨ BadLength last → n ≠ 0 → limit = some size →
    buffered ≤ rest.length → size < buffered + n →
    Decodes limit lib (lineBytes (lines ++ [last]) ++ rest) [] (.error .lengthError)
  /-- The body does not end. -/
  | short {lines : List Str} {n : Nat} {last rest : Str} : HeaderLines lines n → newline ∉ last →
    BlankLine last ∨ BadLength last → rest.length < n → (∀ size, limit = some size → n ≤ size) →
    Decodes limit lib (lineBytes (lines ++ [last]) ++ rest) [] (.ok ())
  /-- An exception of the parser ends the reader. -/
  | unparsable {lines : List Str} {last data rest : Str} : HeaderLines lines data.length →
    newline ∉ last → BlankLine last ∨ BadLength last → data ≠ [] →
    (∀ size, limit = some size → data.length ≤ size) → lib.parse data = none →
    Decodes limit lib (lineBytes (lines ++ [last]) ++ (data ++ rest)) [] (.error .json)
  | message {lines : List Str} {last data rest : Str} {message : Json} {messages : List Json}
    {ended : Except Fault Unit} : HeaderLines lines data.length → newline ∉ last →
    BlankLine last ∨ BadLength last → data ≠ [] → (∀ size, limit = some size → data.length ≤ size) →
    lib.parse data = some message → Decodes limit lib rest messages ended →
    Decodes limit lib (lineBytes (lines ++ [last]) ++ (data ++ rest)) (message :: messages) ended

end TclAnalyzer
