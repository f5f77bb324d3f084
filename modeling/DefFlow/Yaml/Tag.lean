import DefFlow.Text.Utf8
import DefFlow.Yaml.Problem

/-!
# Names, tags and directives in a YAML text

The names of anchors, the tags of nodes, and the directives in front of a document,
which tell its version and what the handles of tags stand for. A tag is a handle and
what follows it, or a whole tag in angle brackets, which has no handle.
-/

set_option autoImplicit false

namespace DefFlow.Yaml

/-- Reads the name of an anchor. -/
def readAnchor (cs : List Char) : Except Problem (String × List Char) :=
  let name := cs.takeWhile isNameChar
  let rest := cs.dropWhile isNameChar
  let ended := endsWord rest || match rest with
    | c :: _ => "?:,]\x7d%@`".toList.contains c
    | [] => true
  if name.isEmpty || !ended then .error .anchorName else .ok (String.ofList name, rest)

def isTagChar (c : Char) : Bool := isNameChar c || ";/?:@&=+$,.!~*'()[]".toList.contains c

/-- How many bytes a character has that starts with this one. -/
def sequenceLength (b : Nat) : Nat :=
  if b < 0x80 then 1
  else if b < 0xc0 then 0
  else if b < 0xe0 then 2
  else if b < 0xf0 then 3
  else if b < 0xf8 then 4
  else 0

/-- Reads on in the text of a tag; `left` bytes of an escaped character are missing, and
the bytes so far stand in reverse. -/
def readTagBytes (left : Nat) (read : List UInt8) :
    List Char → Except Problem (List UInt8 × List Char)
  | [] => if left = 0 then .ok (read.reverse, []) else .error .escapedByte
  | '%' :: a :: b :: rest =>
    match Text.hexValue? a, Text.hexValue? b with
    | some x, some y =>
      let n := x * 16 + y
      if left = 0 then
        if sequenceLength n = 0 then .error .leadingByte
        else readTagBytes (sequenceLength n - 1) (UInt8.ofNat n :: read) rest
      else if n / 64 = 2 then readTagBytes (left - 1) (UInt8.ofNat n :: read) rest
      else .error .trailingByte
    | _, _ => .error .escapedByte
  | c :: rest =>
    if c = '%' || left ≠ 0 then .error .escapedByte
    else if isTagChar c then readTagBytes 0 (UInt8.ofNat c.toNat :: read) rest
    else .ok (read.reverse, c :: rest)

def readTagText (cs : List Char) : Except Problem (String × List Char) := do
  let (bytes, rest) ← readTagBytes 0 [] cs
  return (Text.ofBytes bytes, rest)

/-- A text of a tag that must not be empty. -/
def readSomeTagText (cs : List Char) : Except Problem (String × List Char) := do
  let (text, rest) ← readTagText cs
  if rest.length = cs.length then throw .tagText
  return (text, rest)

/-- Reads a tag behind its exclamation mark. -/
def readTag (cs : List Char) : Except Problem ((String × String) × List Char) := do
  let name := cs.takeWhile isNameChar
  let (tag, rest) ← match cs, cs.dropWhile isNameChar with
    | '<' :: cs, _ => do
      let (text, rest) ← readSomeTagText cs
      match rest with
      | '>' :: rest => pure (("", text), rest)
      | _ => throw .tagBracket
    | _, '!' :: rest => do
      let (text, rest) ← readSomeTagText rest
      pure (("!" ++ String.ofList name ++ "!", text), rest)
    | _, _ => do
      let (text, rest) ← readTagText cs
      pure (if text.isEmpty then ("", "!") else ("!", text), rest)
  if endsWord rest then return (tag, rest) else throw .tagNotEnded

inductive Directive where
  | version (major minor : Nat)
  | handle (name stands : String)
  deriving DecidableEq, Repr

/-- Reads a number of a version, of at most two digits. -/
def readVersionNumber (cs : List Char) : Except Problem (Nat × List Char) :=
  let digits := cs.takeWhile isDigit
  if digits.isEmpty then .error .versionNumber
  else if 2 < digits.length then .error .versionTooLong
  else .ok (digits.foldl (fun n c => n * 10 + (c.toNat - 48)) 0, cs.dropWhile isDigit)

def readVersion (cs : List Char) : Except Problem (Directive × List Char) := do
  let (major, rest) ← readVersionNumber cs
  match rest with
  | '.' :: rest =>
    let (minor, rest) ← readVersionNumber rest
    return (.version major minor, rest)
  | _ => throw .versionPoint

/-- Reads a handle: an exclamation mark, or a name between two. -/
def readHandle : List Char → Except Problem (String × List Char)
  | '!' :: cs =>
    let name := cs.takeWhile isNameChar
    match cs.dropWhile isNameChar with
    | '!' :: rest => .ok ("!" ++ String.ofList name ++ "!", rest)
    | rest => if name.isEmpty then .ok ("!", rest) else .error .tagMark
  | _ => .error .tagMark

def readHandleValue (cs : List Char) : Except Problem (Directive × List Char) := do
  let (name, rest) ← readHandle cs
  if !rest.head?.any isBlank then throw .missingBlank
  let (stands, rest) ← readSomeTagText (rest.dropWhile isBlank)
  if endsWord rest then return (.handle name stands, rest) else throw .tagNotEnded

/-- Reads a directive behind its percent sign, to the end of the line. -/
def readDirective (cs : List Char) : Except Problem (Directive × List Char) := do
  let name := cs.takeWhile isNameChar
  let rest := cs.dropWhile isNameChar
  if name.isEmpty then throw .directiveName
  if !endsWord rest then throw .directiveLetter
  let (d, rest) ← match String.ofList name with
    | "YAML" => readVersion (rest.dropWhile isBlank)
    | "TAG" => readHandleValue (rest.dropWhile isBlank)
    | _ => throw .unknownDirective
  let rest := rest.dropWhile isBlank
  let rest := if rest.head? = some '#' then dropLine rest else rest
  if endsLine rest then return (d, dropBreak rest) else throw .lineNotEnded

end DefFlow.Yaml
