import DefFlow.Editor.NumericHost

/-!
# Document addresses

Editors name documents by URIs. A document is known by the decoded path of its
URI, which is a list of bytes and need not be a text; an opaque URI has an empty
path. All parts of a URI are checked, although only the path is kept.
-/

set_option autoImplicit false

namespace DefFlow.Editor

inductive UriError where
  | controlCharacter
  | missingScheme
  | colonInFirstSegment
  | invalidEscape (text : List UInt8)
  | missingBracket
  | invalidLiteral
  | invalidHost (given : List UInt8) (fault : NumericHost.Fault)
  | invalidPort (text : String)
  | invalidUserinfo
  | invalidHostCharacter (text : String)
  deriving DecidableEq, Repr

def UriError.message : UriError → String
  | .controlCharacter => "net/url: invalid control character in URL"
  | .missingScheme => "missing protocol scheme"
  | .colonInFirstSegment => "first path segment in URL cannot contain colon"
  | .invalidEscape text => "invalid URL escape " ++ Text.quoteBytes text
  | .missingBracket => "missing ']' in host"
  | .invalidLiteral => "invalid IP-literal"
  | .invalidHost given fault => "invalid host: " ++ fault.message given
  | .invalidPort text => "invalid port " ++ Text.quote text ++ " after host"
  | .invalidUserinfo => "net/url: invalid userinfo"
  | .invalidHostCharacter text => "invalid character " ++ Text.quote text ++ " in host name"

namespace Uri

def isAlpha (c : Char) : Bool := ('a' ≤ c && c ≤ 'z') || ('A' ≤ c && c ≤ 'Z')

def isDigit (c : Char) : Bool := '0' ≤ c && c ≤ '9'

/-- The text before and after the first `c`. -/
def cut (c : Char) (cs : List Char) : List Char × List Char :=
  (cs.takeWhile (· ≠ c), (cs.dropWhile (· ≠ c)).drop 1)

/-- The text before and after the last `c`, if there is one. -/
def cutLast? (c : Char) (cs : List Char) : Option (List Char × List Char) :=
  if cs.contains c then
    let (last, first) := cut c cs.reverse
    some (first.reverse, last.reverse)
  else none

/-- Splits the scheme off. Where no scheme can stand, nothing is split off. -/
def scheme (cs : List Char) : Except UriError (List Char × List Char) :=
  let name := cs.takeWhile fun c => isAlpha c || isDigit c || c = '+' || c = '-' || c = '.'
  match cs.drop name.length with
  | ':' :: rest =>
    match name with
    | [] => .error .missingScheme
    | c :: _ => if isAlpha c then .ok (name, rest) else .ok ([], cs)
  | _ => .ok ([], cs)

/-- What may stand in a part of a URI: the bytes that an escape may name, and the
characters that need no escape. -/
structure Part where
  escaped : Nat → Bool
  plain : Char → Bool

def isHostChar (c : Char) : Bool :=
  0x80 ≤ c.toNat || isAlpha c || isDigit c ||
    "-_.~!$&'()*+,;=:[]<>\"".toList.contains c

/-- Paths, user names and fragments. -/
def Part.free : Part := ⟨fun _ => true, fun _ => true⟩

/-- In a host only bytes outside ASCII, and the percent sign, may be escaped. -/
def Part.host : Part := ⟨fun n => 0x80 ≤ n || n = 0x25, isHostChar⟩

/-- The zone of a numeric host has escapes for ASCII only. -/
def Part.zone : Part :=
  ⟨fun n => n = 0x25 || n = 0x20 || (n < 0x80 && isHostChar (Char.ofNat n)), isHostChar⟩

/-- Replaces the escapes in a part of a URI by the bytes they name. -/
def Part.unescape (part : Part) : List Char → Except UriError (List UInt8)
  | [] => .ok []
  | '%' :: a :: b :: rest => do
    let bad := UriError.invalidEscape ((Text.bytes (String.ofList ['%', a, b])).take 3)
    match Text.hexValue? a, Text.hexValue? b with
    | some x, some y =>
      if part.escaped (x * 16 + y) then
        return UInt8.ofNat (x * 16 + y) :: (← part.unescape rest)
      else .error bad
    | _, _ => .error bad
  | c :: rest =>
    if c = '%' then .error (.invalidEscape ((Text.bytes (String.ofList (c :: rest))).take 3))
    else if part.plain c then do
      return Text.bytes (String.ofList [c]) ++ (← part.unescape rest)
    else .error (.invalidHostCharacter (String.ofList [c]))

def isOptionalPort : List Char → Bool
  | [] => true
  | ':' :: digits => digits.all isDigit
  | _ => false

/-- Splits a host at the zone mark, if it has one. -/
def cutZone? : List Char → Option (List Char × List Char)
  | [] => none
  | '%' :: '2' :: '5' :: rest => some ([], '%' :: '2' :: '5' :: rest)
  | c :: rest => (cutZone? rest).map fun (address, zone) => (c :: address, zone)

/-- The bytes of a numeric host, its zone included. -/
def numericBytes (inside : List Char) : Except UriError (List UInt8) := do
  match cutZone? inside with
  | some (address, zone) =>
    let address ← Part.host.unescape address
    return address ++ (← Part.zone.unescape zone)
  | none => Part.host.unescape inside

/-- Checks what stands between brackets and behind them. Only a hexadecimal host has
brackets. -/
def checkNumericHost (inside port : List Char) : Except UriError Unit := do
  if !isOptionalPort port then .error (.invalidPort (String.ofList port))
  let _ ← Part.host.unescape port
  let given ← numericBytes inside
  match NumericHost.kind given with
  | .error fault => .error (.invalidHost given fault)
  | .ok .decimal => .error .invalidLiteral
  | .ok .hexadecimal => .ok ()

def checkNamedHost (cs : List Char) : Except UriError Unit := do
  if let some (_, port) := cutLast? ':' cs then
    if !port.all isDigit then .error (.invalidPort (String.ofList (':' :: port)))
  let _ ← Part.host.unescape cs

/-- Checks a host. An opening bracket may stand only once, in front. -/
def checkHost (cs : List Char) : Except UriError Unit :=
  if (cs.drop 1).contains '[' then .error .invalidLiteral
  else if cs.head? = some '[' then
    match cutLast? ']' (cs.drop 1) with
    | none => .error .missingBracket
    | some (inside, port) => checkNumericHost inside port
  else checkNamedHost cs

def isUserinfoChar (c : Char) : Bool :=
  isAlpha c || isDigit c || "-._:~!$&'()*+,;=%@".toList.contains c

def checkAuthority (cs : List Char) : Except UriError Unit := do
  match cutLast? '@' cs with
  | none => checkHost cs
  | some (user, host) =>
    checkHost host
    if !user.all isUserinfoChar then .error .invalidUserinfo
    let (name, password) := cut ':' user
    let _ ← Part.free.unescape name
    let _ ← Part.free.unescape password

/-- The path behind the scheme and the query. -/
def hierarchicalPath (hasScheme : Bool) (rest : List Char) : Except UriError (List UInt8) := do
  match rest with
  | '/' :: '/' :: authority =>
    if hasScheme || authority.head? ≠ some '/' then
      checkAuthority (authority.takeWhile (· ≠ '/'))
      Part.free.unescape (authority.dropWhile (· ≠ '/'))
    else Part.free.unescape rest
  | _ => Part.free.unescape rest

def pathOf (cs : List Char) : Except UriError (List UInt8) := do
  if cs.any fun c => c.toNat < 0x20 || c.toNat = 0x7f then .error .controlCharacter
  let (name, rest) ← scheme cs
  let rest := (cut '?' rest).1
  if rest.head? = some '/' then
    hierarchicalPath (!name.isEmpty) rest
  else if !name.isEmpty then return []
  else if (cut '/' rest).1.contains ':' then .error .colonInFirstSegment
  else Part.free.unescape rest

/-- A URI that cannot be read, with the part of it that shows why. -/
structure Malformed where
  uri : String
  shown : String
  cause : UriError
  deriving DecidableEq, Repr

def Malformed.message (m : Malformed) : String :=
  "invalid URI " ++ m.uri ++ ": parse " ++ Text.quote m.shown ++ ": " ++ m.cause.message

/-- The path of the document that a URI names. -/
def path (uri : String) : Except Malformed (List UInt8) := do
  let (main, fragment) := cut '#' uri.toList
  let path ← (pathOf main).mapError fun e => ⟨uri, String.ofList main, e⟩
  let _ ← (Part.free.unescape fragment).mapError fun e => ⟨uri, uri, e⟩
  return path

end Uri
end DefFlow.Editor
