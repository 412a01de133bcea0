import TclAnalyzer.Basic

/-!
# Source files and locations

Pointers into the contents of a source file are byte offsets. A `SourceLocation` points to its
source file; the name of that file is all that is ever read through the pointer, and stands for it.
-/

namespace TclAnalyzer

/-- The contents of a file with the table of its line ends. -/
structure SourceFile where
  fileName : Str
  contents : Str
  newlines : List Nat
  deriving DecidableEq, Repr

/-- The byte `'\n'`. -/
def newline : UInt8 := 10

/-- The loop of `ParseNewLines` over the bytes from offset `i` on. -/
def newlinesFrom (i : Nat) : Str → List Nat
  | [] => []
  | c :: cs => if c = newline then i :: newlinesFrom (i + 1) cs else newlinesFrom (i + 1) cs

/-- The offsets of the newlines, and one more entry for the end of the file. -/
def parseNewLines (contents : Str) : List Nat := newlinesFrom 0 contents ++ [contents.length]

def makeSourceFile (fileName contents : Str) : SourceFile :=
  { fileName, contents, newlines := parseNewLines contents }

/-- A 0-based line and a 0-based byte offset into it. -/
structure LinePos where
  line : Nat
  column : Nat
  deriving DecidableEq, Repr

/-- The defaulted `operator<=>`: the lines, then the columns. -/
instance : LT LinePos := ⟨fun a b => a.line < b.line ∨ a.line = b.line ∧ a.column < b.column⟩

/-- The search of `OffsetToLineByte` through the table of line ends. `i` is the index of the first
entry looked at and `startOfLine` the offset of the line it ends. -/
def offsetToLineByteFrom (offset i startOfLine : Nat) : List Nat → Except Fault LinePos
  | [] => .error .assertion
  | n :: ns =>
    if offset ≤ n then
      if offset < startOfLine then .error .underflow
      else .ok { line := i, column := offset - startOfLine }
    else offsetToLineByteFrom offset (i + 1) (n + 1) ns

def offsetToLineByte (sourceFile : SourceFile) (offset : Nat) : Except Fault LinePos :=
  offsetToLineByteFrom offset 0 0 sourceFile.newlines

/-- `fileName` is what `sourceFile->fileName` reads. -/
structure SourceLocation where
  fileName : Str
  offset : Nat
  line : Nat
  column : Nat
  deriving DecidableEq, Repr

def makeSourceLocation (sourceFile : SourceFile) (offset : Nat) : Except Fault SourceLocation := do
  let pos ← offsetToLineByte sourceFile offset
  return { fileName := sourceFile.fileName, offset, line := pos.line, column := pos.column }

/-- A `std::string_view`: a pointer, as an offset into the contents of the source file, and the
bytes it spans. Nothing reads the pointer of a literal, which is not in the file; it is 0. -/
structure StringView where
  data : Nat
  bytes : Str
  deriving DecidableEq, Repr

/-- The view of `size` bytes from offset `data` on. -/
def SourceFile.view (sourceFile : SourceFile) (data size : Nat) : StringView :=
  { data, bytes := (sourceFile.contents.drop data).take size }

end TclAnalyzer
