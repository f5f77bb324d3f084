import DefFlow.Text.Quoted
import DefFlow.Yaml.Problem

/-!
# Scalars in a YAML text

Plain scalars, scalars in quotes and block scalars. Between the words of a scalar
stand gaps: blanks on one line are kept, a single line break becomes a space, and of
several line breaks the first is dropped. Every reader goes through the characters
once and keeps the text read so far in reverse.
-/

set_option autoImplicit false

namespace DefFlow.Yaml

/-- A problem and the characters that are left where it shows. -/
structure Stop where
  problem : Problem
  rest : List Char
  deriving DecidableEq, Repr

/-! ## Gaps -/

/-- What stands between two words: blanks, or the first line break and the further
ones. A line break that is escaped counts as one without text. -/
inductive Gap where
  | none
  | blanks (cs : List Char)
  | broken (first more : List Char)
  deriving DecidableEq, Repr

namespace Gap

def blank (c : Char) : Gap → Gap
  | .none => .blanks [c]
  | .blanks cs => .blanks (cs ++ [c])
  | .broken first more => .broken first more

def lineBreak (c : Char) : Gap → Gap
  | .broken first more => .broken first (more ++ [c])
  | _ => .broken [c] []

def isBroken : Gap → Bool
  | .broken _ _ => true
  | _ => false

def text : Gap → List Char
  | .none => []
  | .blanks cs => cs
  | .broken first more =>
    if first = ['\n'] then if more.isEmpty then [' '] else more else first ++ more

/-- Puts the text of a gap behind a text in reverse. -/
def onto (g : Gap) (text : List Char) : List Char := g.text.reverse ++ text

end Gap

/-! ## Plain scalars -/

structure Plain where
  text : String
  rest : List Char
  /-- Whether a line break follows the text. -/
  broken : Bool
  deriving DecidableEq, Repr

def isFlowMark (c : Char) : Bool :=
  c = ',' || c = '?' || c = '[' || c = ']' || c = '\x7b' || c = '\x7d'

/-- Whether a plain scalar ends before the character `c`. -/
def endsPlain (inFlow : Bool) (indent : Nat) (gap : Gap) (column : Nat) (c : Char)
    (rest : List Char) : Bool :=
  (gap ≠ .none && ((!inFlow && column < indent) || c = '#' ||
    (column = 0 && isDocumentMark (c :: rest)))) ||
    (c = ':' && endsWord rest) || (inFlow && isFlowMark c)

/-- Reads on in a plain scalar. Outside flow collections its lines have to be indented;
a tab cannot be part of the indentation. -/
def readPlain (inFlow : Bool) (indent : Nat) (text : List Char) (gap : Gap) (column : Nat) :
    List Char → Except Stop Plain
  | [] => .ok ⟨String.ofList text.reverse, [], gap.isBroken⟩
  | '\r' :: '\n' :: rest => readPlain inFlow indent text (gap.lineBreak '\n') 0 rest
  | c :: rest =>
    if isBreak c then readPlain inFlow indent text (gap.lineBreak (asBreak c)) 0 rest
    else if isBlank c then
      if c = '\t' && gap.isBroken && column < indent then .error ⟨.tabInScalar, c :: rest⟩
      else readPlain inFlow indent text (gap.blank c) (column + 1) rest
    else if endsPlain inFlow indent gap column c rest then
      .ok ⟨String.ofList text.reverse, c :: rest, gap.isBroken⟩
    else readPlain inFlow indent (c :: gap.onto text) .none (column + 1) rest

/-! ## Scalars in quotes -/

/-- Reads on in a scalar in single quotes, where a quote is written twice; `atStart`
tells that a line starts here. -/
def readSingle (text : List Char) (gap : Gap) (atStart : Bool) :
    List Char → Except Stop (String × List Char)
  | [] => .error ⟨.endInQuotes, []⟩
  | '\'' :: '\'' :: rest => readSingle ('\'' :: gap.onto text) .none false rest
  | '\'' :: rest => .ok (String.ofList (gap.onto text).reverse, rest)
  | '\r' :: '\n' :: rest => readSingle text (gap.lineBreak '\n') true rest
  | c :: rest =>
    if isBreak c then readSingle text (gap.lineBreak (asBreak c)) true rest
    else if isBlank c then readSingle text (gap.blank c) false rest
    else if atStart && isDocumentMark (c :: rest) then .error ⟨.documentInQuotes, c :: rest⟩
    else readSingle (c :: gap.onto text) .none false rest

/-- The character that a letter behind a backslash stands for. -/
def escapedChar? : Char → Option Char
  | '0' => some '\x00'
  | 'a' => some '\x07'
  | 'b' => some '\x08'
  | 't' => some '\t'
  | '\t' => some '\t'
  | 'n' => some '\n'
  | 'v' => some '\x0b'
  | 'f' => some '\x0c'
  | 'r' => some '\r'
  | 'e' => some '\x1b'
  | ' ' => some ' '
  | '"' => some '"'
  | '\'' => some '\''
  | '\\' => some '\\'
  | 'N' => some '\u0085'
  | '_' => some '\u00a0'
  | 'L' => some '\u2028'
  | 'P' => some '\u2029'
  | _ => none

/-- How many hexadecimal digits follow a letter behind a backslash. -/
def escapeWidth? : Char → Option Nat
  | 'x' => some 2
  | 'u' => some 4
  | 'U' => some 8
  | _ => none

/-- Where a reader of a scalar in double quotes stands: in the text, behind a backslash,
or before the last `left` digits of an escape that has the given value so far. -/
inductive Escaping where
  | no
  | letter
  | digits (left value : Nat)
  deriving DecidableEq, Repr

def Escaping.unfinished : Escaping → Problem
  | .no => .endInQuotes
  | .letter => .unknownEscape
  | .digits _ _ => .escapeDigits

/-- Reads on in a scalar in double quotes. -/
def readDouble (e : Escaping) (text : List Char) (gap : Gap) (atStart : Bool) :
    List Char → Except Stop (String × List Char)
  | [] => .error ⟨e.unfinished, []⟩
  | c :: rest =>
    match e with
    | .no =>
      if c = '"' then .ok (String.ofList (gap.onto text).reverse, rest)
      else if c = '\\' then readDouble .letter (gap.onto text) .none false rest
      else if isBreak c then
        match c, rest with
        | '\r', '\n' :: more => readDouble .no text (gap.lineBreak '\n') true more
        | c, rest => readDouble .no text (gap.lineBreak (asBreak c)) true rest
      else if isBlank c then readDouble .no text (gap.blank c) false rest
      else if atStart && isDocumentMark (c :: rest) then .error ⟨.documentInQuotes, c :: rest⟩
      else readDouble .no (c :: gap.onto text) .none false rest
    | .letter =>
      if isBreak c then
        match c, rest with
        | '\r', '\n' :: more => readDouble .no text (.broken [] []) true more
        | _, rest => readDouble .no text (.broken [] []) true rest
      else
        match escapedChar? c, escapeWidth? c with
        | some d, _ => readDouble .no (d :: text) .none false rest
        | none, some width => readDouble (.digits width 0) text .none false rest
        | none, none => .error ⟨.unknownEscape, c :: rest⟩
    | .digits left value =>
      match Text.hexValue? c with
      | none => .error ⟨.escapeDigits, c :: rest⟩
      | some d =>
        if 1 < left then readDouble (.digits (left - 1) (value * 16 + d)) text .none false rest
        else
          match Text.charOfCodePoint? (value * 16 + d) with
          | some x => readDouble .no (x :: text) .none false rest
          | none => .error ⟨.escapedCharacter, c :: rest⟩

/-! ## Block scalars -/

/-- What becomes of the line breaks at the end of a block scalar. -/
inductive Chomp where
  | clip
  | strip
  | keep
  deriving DecidableEq, Repr

def chomp? : List Char → Option (Chomp × List Char)
  | '+' :: rest => some (.keep, rest)
  | '-' :: rest => some (.strip, rest)
  | _ => none

/-- The digit that says how far the lines are indented more than the block; zero if
there is none. -/
def readIncrement : List Char → Except Problem (Nat × List Char)
  | [] => .ok (0, [])
  | c :: rest =>
    if c = '0' then .error .zeroIndentation
    else if isDigit c then .ok (c.toNat - 48, rest)
    else .ok (0, c :: rest)

/-- Reads what stands between the mark of a block scalar and the end of its line. -/
def readHeader (cs : List Char) : Except Problem (Chomp × Nat × List Char) := do
  let (chomp, increment, rest) ← match chomp? cs with
    | some (chomp, rest) => do
      let (increment, rest) ← readIncrement rest
      pure (chomp, increment, rest)
    | none => do
      let (increment, rest) ← readIncrement cs
      match if increment = 0 then none else chomp? rest with
      | some (chomp, rest) => pure (chomp, increment, rest)
      | none => pure (.clip, increment, rest)
  let rest := rest.dropWhile isBlank
  let rest := if rest.head? = some '#' then dropLine rest else rest
  if endsLine rest then return (chomp, increment, dropBreak rest) else throw .lineNotEnded

/-- The widest indentation up to the first line that is not empty. -/
def widestIndent (widest column : Nat) : List Char → Except Stop Nat
  | [] => .ok (max widest column)
  | '\r' :: '\n' :: rest => widestIndent (max widest column) 0 rest
  | c :: rest =>
    if c = ' ' then widestIndent widest (column + 1) rest
    else if c = '\t' then .error ⟨.tabIndentation, c :: rest⟩
    else if isBreak c then widestIndent (max widest column) 0 rest
    else .ok (max widest column)

/-- The text of a block scalar while it is read: the characters so far in reverse, the
break that ended the last line, the empty lines behind it, and whether the last line
starts with a blank. -/
structure BlockText where
  text : List Char
  lastBreak : List Char
  empty : List Char
  blankLine : Bool
  deriving DecidableEq, Repr

namespace BlockText

/-- Starts a line with the character `c`. In a folded scalar the lines that start with
no blank are joined by spaces. -/
def startLine (folded : Bool) (c : Char) (b : BlockText) : BlockText :=
  let joint := if folded && !b.blankLine && !isBlank c && b.lastBreak = ['\n'] then
      if b.empty.isEmpty then [' '] else []
    else b.lastBreak
  { text := c :: (b.empty.reverse ++ joint.reverse ++ b.text)
    lastBreak := []
    empty := []
    blankLine := isBlank c }

def finish (chomp : Chomp) (b : BlockText) : String :=
  let tail := match chomp with
    | .strip => []
    | .clip => b.lastBreak
    | .keep => b.lastBreak ++ b.empty
  String.ofList (b.text.reverse ++ tail)

end BlockText

/-- Reads the lines of a block scalar that have at least the given indentation; `inLine`
tells that the characters of a line have started. -/
def readBlock (folded : Bool) (indent : Nat) (b : BlockText) (inLine : Bool) (column : Nat) :
    List Char → Except Stop (BlockText × List Char)
  | [] => .ok (b, [])
  | c :: rest =>
    if isBreak c then
      let b := if inLine then { b with lastBreak := [asBreak c] }
        else { b with empty := b.empty ++ [asBreak c] }
      match c, rest with
      | '\r', '\n' :: more => readBlock folded indent b false 0 more
      | _, rest => readBlock folded indent b false 0 rest
    else if inLine then readBlock folded indent { b with text := c :: b.text } true 0 rest
    else if column < indent && c = ' ' then
      readBlock folded indent b false (column + 1) rest
    else if column < indent && c = '\t' then .error ⟨.tabIndentation, c :: rest⟩
    else if column = indent then readBlock folded indent (b.startLine folded c) true 0 rest
    else .ok (b, c :: rest)

/-- Reads a block scalar behind its mark, in a block whose lines start at `margin` or
behind. -/
def readBlockScalar (folded : Bool) (margin : Nat) (cs : List Char) :
    Except Stop (String × List Char) := do
  let (chomp, increment, rest) ← (readHeader cs).mapError fun p => ⟨p, cs⟩
  let indent ← if increment = 0 then do
      pure (max (max (← widestIndent 0 0 rest) margin) 1)
    else pure (margin - 1 + increment)
  let (b, rest) ← readBlock folded indent ⟨[], [], [], false⟩ false 0 rest
  return (b.finish chomp, rest)

end DefFlow.Yaml
