/-!
# Places in a YAML text

Which characters a text may hold, what its blanks and line breaks are, and a cursor
that knows the line and column it has reached. A carriage return and the line feed
behind it are one line break.
-/

set_option autoImplicit false

namespace DefFlow.Yaml

/-- The characters that a text may hold. -/
def isReadable (c : Char) : Bool :=
  c = '\t' || c = '\n' || c = '\r' || (' ' ≤ c && c ≤ '~') || c = '\u0085' ||
    ('\u00a0' ≤ c && c ≠ '\ufffe' && c ≠ '\uffff')

def isBlank (c : Char) : Bool := c = ' ' || c = '\t'

def isBreak (c : Char) : Bool :=
  c = '\n' || c = '\r' || c = '\u0085' || c = '\u2028' || c = '\u2029'

/-- A line break as it stands in the text of a scalar. -/
def asBreak (c : Char) : Char := if c = '\u2028' || c = '\u2029' then c else '\n'

/-- Whether a word ends here. -/
def endsWord : List Char → Bool
  | [] => true
  | c :: _ => isBlank c || isBreak c

def endsLine : List Char → Bool
  | [] => true
  | c :: _ => isBreak c

/-- Whether the mark of a document starts here. -/
def isDocumentMark : List Char → Bool
  | '-' :: '-' :: '-' :: rest => endsWord rest
  | '.' :: '.' :: '.' :: rest => endsWord rest
  | _ => false

def isDigit (c : Char) : Bool := '0' ≤ c && c ≤ '9'

/-- The characters of anchors, directives and the handles of tags. -/
def isNameChar (c : Char) : Bool :=
  isDigit c || ('A' ≤ c && c ≤ 'Z') || ('a' ≤ c && c ≤ 'z') || c = '_' || c = '-'

def dropLine (cs : List Char) : List Char := cs.dropWhile fun c => !isBreak c

/-- Drops one line break, if there is one. -/
def dropBreak : List Char → List Char
  | '\r' :: '\n' :: rest => rest
  | c :: rest => if isBreak c then rest else c :: rest
  | [] => []

/-- A place, counted from zero: characters from the start, the line, and characters
from the start of the line. -/
structure Mark where
  index : Nat
  line : Nat
  column : Nat
  deriving DecidableEq, Repr, Inhabited

/-- The place behind some characters. -/
def Mark.past : Mark → List Char → Mark
  | m, [] => m
  | m, '\r' :: '\n' :: rest => Mark.past ⟨m.index + 2, m.line + 1, 0⟩ rest
  | m, c :: rest =>
    if isBreak c then Mark.past ⟨m.index + 1, m.line + 1, 0⟩ rest
    else Mark.past ⟨m.index + 1, m.line, m.column + 1⟩ rest

structure Cursor where
  rest : List Char
  mark : Mark
  /-- Whether only blanks were passed since the last line break. -/
  fresh : Bool
  deriving DecidableEq, Repr, Inhabited

namespace Cursor

def start (cs : List Char) : Cursor := ⟨cs, ⟨0, 0, 0⟩, false⟩

/-- Moves on to where only `rest` is left. -/
def moveTo (rest : List Char) (c : Cursor) : Cursor :=
  let passed := c.rest.take (c.rest.length - rest.length)
  { rest
    mark := c.mark.past passed
    fresh := passed.foldl (fun fresh c => if isBlank c then fresh else isBreak c) c.fresh }

end Cursor

/-! ## Blocks -/

/-- A text is read in blocks of as many whole characters as fit into this many bytes. -/
def blockSize : Nat := 512

/-- Reads block by block until one holds a character that must not be there, and tells
whether the text came to its end. `room` is what is left of the block so far, which
stands in reverse. -/
def readBlocks (room : Nat) (block : List Char) : List Char → List Char × Bool
  | [] => if block.all isReadable then (block.reverse, true) else ([], false)
  | c :: rest =>
    if c.utf8Size ≤ room then readBlocks (room - c.utf8Size) (c :: block) rest
    else if block.all isReadable then
      let (later, complete) := readBlocks (blockSize - c.utf8Size) [c] rest
      (block.reverse ++ later, complete)
    else ([], false)

/-- The readable part of a text, without the mark of its encoding. -/
def readable (text : String) : List Char × Bool :=
  match text.toList with
  | '\ufeff' :: rest => readBlocks (blockSize - '\ufeff'.utf8Size) [] rest
  | cs => readBlocks blockSize [] cs

end DefFlow.Yaml
