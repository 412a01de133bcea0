import TclAnalyzer.Lsp.Comms

/-!
# Frames

The ways to frame a message that `read_message` has to understand: the one of `send_message`, and the
ones of other clients, with lines ended in either way, headers of all kinds and blank lines.
-/

namespace TclAnalyzer

/-- The end of a line. -/
inductive LineEnd where
  | lf | crlf
  deriving DecidableEq, Repr

/-- What stands before the newline. -/
def LineEnd.beforeNewline : LineEnd → Str
  | lf => []
  | crlf => [carriageReturn]

def LineEnd.bytes (lineEnd : LineEnd) : Str := lineEnd.beforeNewline ++ [newline]

/-- A line that is not blank and gives no length: it has no colon or another header name. -/
structure ExtraLine where
  text : Str
  lineEnd : LineEnd
  oneLine : newline ∉ text
  notBlank : ∃ c ∈ text, c ≠ carriageReturn
  otherName : colon ∈ text →
    (text.takeWhile (· ≠ colon)).map tolower ≠ TclAnalyzer.bytes "content-length"

def ExtraLine.bytes (line : ExtraLine) : Str := line.text ++ line.lineEnd.bytes

/-- The line with the length: the name in any case, and any whitespace after the colon. -/
structure LengthLine where
  name : Str
  space : Str
  lineEnd : LineEnd
  isName : name.map tolower = TclAnalyzer.bytes "content-length"
  isSpace : ∀ c ∈ space, isspace c = true ∧ c ≠ newline

def LengthLine.bytes (line : LengthLine) (contentLength : Nat) : Str :=
  line.name ++ [colon] ++ line.space ++ decimal contentLength ++ line.lineEnd.bytes

/-- Everything about a frame but the message in it. -/
structure FrameStyle where
  blanks : List LineEnd
  before : List ExtraLine
  lengthLine : LengthLine
  after : List ExtraLine
  blank : LineEnd

/-- The header and the content. -/
def FrameStyle.block (style : FrameStyle) (data : Str) : Str :=
  style.before.flatMap ExtraLine.bytes ++ (style.lengthLine.bytes data.length ++
    (style.after.flatMap ExtraLine.bytes ++ (style.blank.bytes ++ data)))

def FrameStyle.frame (style : FrameStyle) (data : Str) : Str :=
  style.blanks.flatMap LineEnd.bytes ++ style.block data

/-- The style of `send_message`. -/
def FrameStyle.sent : FrameStyle where
  blanks := []
  before := []
  lengthLine :=
    { name := TclAnalyzer.bytes "Content-Length", space := TclAnalyzer.bytes " ", lineEnd := .crlf
      isName := by decide +kernel
      isSpace := by decide +kernel }
  after := []
  blank := .crlf

/-- The frames of these messages on the stream, each in its style. -/
def styledFrames {Json : Type} (lib : JsonLib Json) (messages : List (FrameStyle × Json)) : Str :=
  messages.flatMap fun message => message.1.frame (lib.dump message.2)

end TclAnalyzer
