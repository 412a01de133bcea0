import Mathlib.Algebra.Group.Nat.Defs
import Mathlib.Data.List.DropRight
import TclAnalyzer.Analyzer.Name
import TclAnalyzer.Analyzer.SourceLocation

/-!
# Messages on a stream

`read_message` takes frames off the input stream and `send_message` puts them on the output stream.
The JSON library is a parameter, and so is the length at which `prepare` throws for the body of a
message. Lines and the buffer of `send_message` are without a limit.
-/

namespace TclAnalyzer

/-- `dump` and `parse` of the JSON library; `none` when `parse` throws. -/
structure JsonLib (Json : Type) where
  dump : Json → Str
  parse : Str → Option Json

/-- What the code relies on: `parse` undoes `dump` and rejects the empty string, and the size of a
string is a `size_t`. -/
structure JsonLib.Lawful {Json : Type} (lib : JsonLib Json) : Prop where
  parse_dump : ∀ message, lib.parse (lib.dump message) = some message
  parse_nil : lib.parse [] = none
  dump_size : ∀ message, (lib.dump message).length < 2 ^ 64

/-! ## Characters -/

/-- The byte `'\r'`. -/
def carriageReturn : UInt8 := 13

def isspace (c : UInt8) : Bool := c = 32 ∨ 9 ≤ c ∧ c ≤ 13

def isdigit (c : UInt8) : Bool := 48 ≤ c ∧ c ≤ 57

def tolower (c : UInt8) : UInt8 := if 65 ≤ c ∧ c ≤ 90 then c + 32 else c

/-- A `size_t` as `operator<<` writes it. -/
def decimal (n : Nat) : Str := (Nat.toDigits 10 n).map fun c => UInt8.ofNat c.toNat

/-- The value of the digits at the start, after others of this value. -/
def digitsValue (value : Nat) : Str → Nat
  | [] => value
  | c :: cs => if isdigit c then digitsValue (10 * value + (c.toNat - 48)) cs else value

/-- `std::from_chars` into a `size_t`: `none` without a digit at the start, and for a value that does
not fit. What follows the digits is ignored. -/
def fromChars (s : Str) : Option Nat :=
  if s.head?.any isdigit then
    let value := digitsValue 0 s
    if value < 2 ^ 64 then some value else none
  else none

/-! ## Reading -/

/-- The `streambuf` and what the following reads of the descriptor return, each a chunk. -/
structure Stream where
  buf : Str
  chunks : List Str
  deriving DecidableEq, Repr

/-- All bytes that are left to decode. -/
def Stream.rest (str : Stream) : Str := str.buf ++ str.chunks.flatten

/-- `async_read_until` the newline: the number of bytes up to and with it. No read is made when it is
in the buffer already; `none` is the end of the input. -/
def asyncReadUntil (buf : Str) : List Str → Option (Nat × Stream)
  | [] => if newline ∈ buf then some (buf.idxOf newline + 1, { buf, chunks := [] }) else none
  | chunk :: chunks =>
    if newline ∈ buf then some (buf.idxOf newline + 1, { buf, chunks := chunk :: chunks })
    else asyncReadUntil (buf ++ chunk) chunks

/-- `async_read` with `transfer_exactly( n )`: a read never returns more than is left to transfer. -/
def asyncRead (n : Nat) (buf : Str) : List Str → Option Stream
  | [] => if n = 0 then some { buf, chunks := [] } else none
  | chunk :: chunks =>
    if n = 0 then some { buf, chunks := chunk :: chunks }
    else if chunk.length ≤ n then asyncRead (n - chunk.length) (buf ++ chunk) chunks
    else some { buf := buf ++ chunk.take n, chunks := chunk.drop n :: chunks }

/-- One turn of the loop over the header lines, on the line without its newline. It goes on with
another `content_length`; `none` is `break`, which leaves `content_length` as it is. -/
def headerTurn (contentLength : Nat) (line : Str) : Option Nat :=
  let line := line.rdropWhile (· = carriageReturn)
  if line = [] then none
  else if colon ∈ line then
    let header := (line.takeWhile (· ≠ colon)).map tolower
    if header ≠ bytes "content-length" then some contentLength
    else
      let value := ((line.dropWhile (· ≠ colon)).drop 1).dropWhile isspace
      if value = [] then none else fromChars value
  else some contentLength

/-- The loop over the header lines; `none` is the end of the input. -/
def readHeaders : (fuel contentLength : Nat) → Stream → Except Fault (Option (Nat × Stream))
  | 0, _, _ => .error .diverges
  | fuel + 1, contentLength, str =>
    match asyncReadUntil str.buf str.chunks with
    | none => return none
    | some (bytesRead, str) =>
      let line := str.buf.take (bytesRead - 1)
      let str := { str with buf := str.buf.drop bytesRead }
      match headerTurn contentLength line with
      | none => return some (contentLength, str)
      | some contentLength => readHeaders fuel contentLength str

/-- `buf.prepare( n )`, which throws if the buffer would get longer than this. -/
def Stream.prepare (limit : Option Nat) (str : Stream) (n : Nat) : Except Fault Unit :=
  if limit.any (· < str.buf.length + n) then throw .lengthError else return ()

/-- The loop `while (buf.size() < content_length )`. A read that succeeds is the last one. -/
def readContent (contentLength : Nat) (str : Stream) : Option Stream :=
  if str.buf.length < contentLength then
    asyncRead (contentLength - str.buf.length) str.buf str.chunks
  else some str

section Messages

variable {Json : Type} (limit : Option Nat) (lib : JsonLib Json)

/-- The outer loop of `read_message` up to the next `co_yield`; `none` is `co_return`. Every turn
reads a line. -/
def readMessage : (fuel : Nat) → Stream → Except Fault (Option (Json × Stream))
  | 0, _ => .error .diverges
  | fuel + 1, str => do
    match ← readHeaders (str.rest.length + 1) 0 str with
    | none => return none
    | some (contentLength, str) =>
      if contentLength = 0 then readMessage fuel str
      else
        str.prepare limit contentLength
        match readContent contentLength str with
        | none => return none
        | some str =>
          match lib.parse (str.buf.take contentLength) with
          | none => throw .json
          | some message => return some (message, { str with buf := str.buf.drop contentLength })

/-- The messages that are yielded, and how the coroutine ends. -/
def readMessagesFrom : (fuel : Nat) → Stream → List Json × Except Fault Unit
  | 0, _ => ([], .error .diverges)
  | fuel + 1, str =>
    match readMessage limit lib (str.rest.length + 1) str with
    | .error fault => ([], .error fault)
    | .ok none => ([], .ok ())
    | .ok (some (message, str)) =>
      let (messages, ended) := readMessagesFrom fuel str
      (message :: messages, ended)

/-- `read_message` on an input that arrives in these chunks. -/
def readMessagesWithin (chunks : List Str) : List Json × Except Fault Unit :=
  readMessagesFrom limit lib (chunks.flatten.length + 1) { buf := [], chunks }

/-- `read_message` where the buffer can get as long as it has to. -/
def readMessages (chunks : List Str) : List Json × Except Fault Unit :=
  readMessagesWithin none lib chunks

/-! ## Sending -/

/-- What `send_message` puts into its buffer. -/
def frame (data : Str) : Str :=
  bytes "Content-Length: " ++ decimal data.length ++ bytes "\r\n\r\n" ++ data

/-- An `async_write` that is not complete: the bytes it has still to write, and the number of bytes it
will then take off the buffer. -/
structure Write where
  data : Str
  size : Nat

/-- The output stream: the static buffer of `send_message`, the writes that have been initiated and
are not complete, and the bytes written so far. -/
structure Output where
  buf : Str
  writes : List Write
  out : Str

def Output.idle : Output := { buf := [], writes := [], out := [] }

inductive SendEvent (Json : Type) where
  /-- `send_message` up to the initiation of its `async_write`. -/
  | send (message : Json)
  /-- A write of some of the remaining bytes. -/
  | wrote (chunk : Str)
  /-- The end of an `async_write`. -/
  | completed

/-- What the event loop does, in any order. A new write is of all bytes that are in the buffer. -/
inductive SendStep : Output → SendEvent Json → Output → Prop
  | send (s : Output) (message : Json) :
    SendStep s (.send message)
      { s with
        buf := s.buf ++ frame (lib.dump message)
        writes := s.writes ++ [{ data := s.buf ++ frame (lib.dump message),
                                 size := (s.buf ++ frame (lib.dump message)).length }] }
  | wrote (s : Output) (before after : List Write) (size : Nat) (chunk data : Str) :
    s.writes = before ++ { data := chunk ++ data, size } :: after →
    SendStep s (.wrote chunk)
      { s with writes := before ++ { data, size } :: after, out := s.out ++ chunk }
  | completed (s : Output) (before after : List Write) (size : Nat) :
    s.writes = before ++ { data := [], size } :: after →
    SendStep s .completed { s with buf := s.buf.drop size, writes := before ++ after }

/-- The messages passed to `send_message`, in order. -/
def sentMessages (events : List (SendEvent Json)) : List Json :=
  events.filterMap fun
    | .send message => some message
    | _ => none

/-- The writes that are complete. -/
def completions (events : List (SendEvent Json)) : Nat :=
  events.countP fun
    | .completed => true
    | _ => false

/-- No message is sent while the write of another one is not complete. -/
def Serial (events : List (SendEvent Json)) : Prop :=
  ∀ before message after, events = before ++ .send message :: after →
    completions before = (sentMessages before).length

/-- The bytes of the frames of these messages. -/
def frames (messages : List Json) : Str := messages.flatMap fun message => frame (lib.dump message)

end Messages

end TclAnalyzer
