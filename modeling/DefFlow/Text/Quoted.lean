import DefFlow.Text.Printable

/-!
# Quoted text

`quote` writes a text between double quotes so that every character is visible:
printable characters stand for themselves, the others become escapes. `unquote`
reads the inside of a quoted text back, one character or escape at a time; an
escape of two hexadecimal or three octal digits names a code point below 256.
-/

set_option autoImplicit false

namespace DefFlow.Text

def hexDigit (n : Nat) : Char :=
  if n < 10 then Char.ofNat (n + 48) else Char.ofNat (n + 87)

/-- The last `width` hexadecimal digits of `n`, leading zeros included. -/
def hexDigits : Nat → Nat → List Char
  | 0, _ => []
  | width+1, n => hexDigits width (n / 16) ++ [hexDigit (n % 16)]

/-- The letter that names a control character in an escape. -/
def controlLetter? : Char → Option Char
  | '\x07' => some 'a'
  | '\x08' => some 'b'
  | '\x0c' => some 'f'
  | '\n' => some 'n'
  | '\r' => some 'r'
  | '\t' => some 't'
  | '\x0b' => some 'v'
  | _ => none

def escape (c : Char) : List Char :=
  if c = '"' || c = '\\' then ['\\', c]
  else if isPrintable c then [c]
  else match controlLetter? c with
    | some l => ['\\', l]
    | none =>
      let n := c.toNat
      if n < 0x20 || n = 0x7f then '\\' :: 'x' :: hexDigits 2 n
      else if n < 0x10000 then '\\' :: 'u' :: hexDigits 4 n
      else '\\' :: 'U' :: hexDigits 8 n

def quoteChars (cs : List Char) : List Char :=
  '"' :: cs.flatMap escape ++ ['"']

def quote (s : String) : String :=
  String.ofList (quoteChars s.toList)

/-- A character between single quotes. -/
def quoteChar (c : Char) : String :=
  let inside := if c = '\'' then ['\\', c] else if c = '"' then [c] else escape c
  "'" ++ String.ofList inside ++ "'"

def hexValue? (c : Char) : Option Nat :=
  let n := c.toNat
  if 48 ≤ n && n ≤ 57 then some (n - 48)
  else if 97 ≤ n && n ≤ 102 then some (n - 87)
  else if 65 ≤ n && n ≤ 70 then some (n - 55)
  else none

def octalValue? (c : Char) : Option Nat :=
  let n := c.toNat
  if 48 ≤ n && n ≤ 55 then some (n - 48) else none

/-- Reads exactly `width` digits in the given base, most significant first. -/
def readDigits (digit? : Char → Option Nat) (base : Nat) :
    Nat → Nat → List Char → Option (Nat × List Char)
  | 0, acc, cs => some (acc, cs)
  | _+1, _, [] => none
  | width+1, acc, c :: cs =>
    match digit? c with
    | some d => readDigits digit? base width (acc * base + d) cs
    | none => none

def charOfCodePoint? (n : Nat) : Option Char :=
  if n < 0xd800 || (0xdfff < n && n ≤ 0x10ffff) then some (Char.ofNat n) else none

/-- Reads the part of an escape that follows the backslash. -/
def readEscape : List Char → Option (Char × List Char)
  | 'a' :: r => some ('\x07', r)
  | 'b' :: r => some ('\x08', r)
  | 'f' :: r => some ('\x0c', r)
  | 'n' :: r => some ('\n', r)
  | 'r' :: r => some ('\r', r)
  | 't' :: r => some ('\t', r)
  | 'v' :: r => some ('\x0b', r)
  | '\\' :: r => some ('\\', r)
  | '"' :: r => some ('"', r)
  | 'x' :: r => (readDigits hexValue? 16 2 0 r).map fun (n, r) => (Char.ofNat n, r)
  | 'u' :: r => do
    let (n, r) ← readDigits hexValue? 16 4 0 r
    return (← charOfCodePoint? n, r)
  | 'U' :: r => do
    let (n, r) ← readDigits hexValue? 16 8 0 r
    return (← charOfCodePoint? n, r)
  | r => do
    let (n, r) ← readDigits octalValue? 8 3 0 r
    if n < 256 then some (Char.ofNat n, r) else none

/-- Reads one character or escape of the inside of a quoted text. -/
def readQuotedChar : List Char → Option (Char × List Char)
  | [] => none
  | '"' :: _ => none
  | '\\' :: r => readEscape r
  | c :: r => some (c, r)

/-- Reads at most `fuel` characters and escapes; each of them takes up at least
one character, so the length of the text is always enough. -/
def unquoteWithin : Nat → List Char → Option (List Char)
  | _, [] => some []
  | 0, _ => none
  | fuel+1, cs =>
    match readQuotedChar cs with
    | none => none
    | some (c, r) => (unquoteWithin fuel r).map (c :: ·)

/-- The text denoted by the inside of a quoted text. -/
def unquote (cs : List Char) : Option (List Char) :=
  unquoteWithin cs.length cs

end DefFlow.Text
