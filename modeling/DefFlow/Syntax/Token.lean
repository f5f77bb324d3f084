import DefFlow.Syntax.Position
import DefFlow.Text.Quoted

/-!
# Tokens

A source text is cut into tokens from left to right. At each place the token
classes are tried in a fixed order and the first that matches decides, even if a
later one would match more text. White space separates tokens and is dropped;
comments are kept. The value of a quoted text is what it denotes, the value of
any other token is its own text.
-/

set_option autoImplicit false

namespace DefFlow.Syntax

inductive TokenKind where
  | comment
  | string
  | arrow
  | integer
  | ident
  | punctuation
  | blank
  | endOfInput
  deriving DecidableEq, Repr

def TokenKind.name : TokenKind → String
  | .comment => "comment"
  | .string => "string"
  | .arrow => "arrow"
  | .integer => "integer"
  | .ident => "ident"
  | .punctuation => "punctuation"
  | .blank => "whitespace"
  | .endOfInput => "eof"

structure Token where
  kind : TokenKind
  value : String
  start : Position
  stop : Position
  deriving DecidableEq, Repr

/-- How a token is shown in a message. -/
def Token.shown (t : Token) : String :=
  if t.kind = .endOfInput then "<EOF>" else t.value

namespace Lexeme

def isDigit (c : Char) : Bool := '0' ≤ c && c ≤ '9'

def isHexDigit (c : Char) : Bool :=
  isDigit c || ('a' ≤ c && c ≤ 'f') || ('A' ≤ c && c ≤ 'F')

def isIdentStart (c : Char) : Bool :=
  ('a' ≤ c && c ≤ 'z') || ('A' ≤ c && c ≤ 'Z') || c = '_'

def isIdentRest (c : Char) : Bool := isIdentStart c || isDigit c || c = '.'

def isPunctuation (c : Char) : Bool :=
  c = '\x7b' || c = '\x7d' || c = '(' || c = ')' || c = ',' || c = ':' || c = ';' || c = '='

def isBlank (c : Char) : Bool := c = ' ' || c = '\t' || c = '\r' || c = '\n'

/-- How many leading characters satisfy `p`. -/
def run (p : Char → Bool) (cs : List Char) : Nat := (cs.takeWhile p).length

def comment? (c : Char) : List Char → Option Nat
  | d :: r => if c = '/' && d = '/' then some (1 + run (· ≠ '\n') r) else none
  | [] => none

def string? (c : Char) (r : List Char) : Option Nat :=
  let n := run (fun d => d ≠ '"' && d ≠ '\n') r
  if c = '"' && (r.drop n).head? = some '"' then some (n + 1) else none

def arrow? (c : Char) (r : List Char) : Option Nat :=
  if c = '-' && r.head? = some '>' then some 1 else none

/-- The length of the unsigned number that a text starts with, zero if it
starts with none. -/
def unsigned : List Char → Nat
  | '0' :: 'x' :: r => if run isHexDigit r = 0 then 1 else 2 + run isHexDigit r
  | cs => run isDigit cs

def integer? (c : Char) (r : List Char) : Option Nat :=
  if c = '-' then (if unsigned r = 0 then none else some (unsigned r))
  else if unsigned (c :: r) = 0 then none
  else some (unsigned (c :: r) - 1)

def ident? (c : Char) (r : List Char) : Option Nat :=
  if isIdentStart c then some (run isIdentRest r) else none

def punctuation? (c : Char) : Option Nat :=
  if isPunctuation c then some 0 else none

def blank? (c : Char) (r : List Char) : Option Nat :=
  if isBlank c then some (run isBlank r) else none

/-- The class of the token that starts with `c`, and how many characters of
`r` belong to it. -/
def classify (c : Char) (r : List Char) : Option (TokenKind × Nat) :=
  (comment? c r).map (TokenKind.comment, ·)
  <|> (string? c r).map (TokenKind.string, ·)
  <|> (arrow? c r).map (TokenKind.arrow, ·)
  <|> (integer? c r).map (TokenKind.integer, ·)
  <|> (ident? c r).map (TokenKind.ident, ·)
  <|> (punctuation? c).map (TokenKind.punctuation, ·)
  <|> (blank? c r).map (TokenKind.blank, ·)

end Lexeme

/-- Why a text could not be cut into tokens. -/
inductive ScanError where
  | invalidText (rest : List Char)
  | invalidString (token : List Char)
  deriving DecidableEq, Repr

/-- At most sixteen characters of a text, with dots for the rest. -/
def excerpt (cs : List Char) : List Char :=
  if 16 < cs.length then cs.take 16 ++ ['.', '.', '.'] else cs

def ScanError.message : ScanError → String
  | .invalidText rest =>
    "lexer: invalid input text " ++ String.ofList (Text.quoteChars (excerpt rest))
  | .invalidString token =>
    "invalid quoted string " ++ String.ofList (Text.quoteChars token) ++ ": invalid syntax"

def tokenValue (kind : TokenKind) (lexeme : List Char) : Option (List Char) :=
  match kind with
  | .string => Text.unquote ((lexeme.drop 1).dropLast)
  | _ => some lexeme

structure Scanned where
  tokens : List Token
  stop : Position

def Scanned.endToken (s : Scanned) : Token := ⟨.endOfInput, "", s.stop, s.stop⟩

def scanFrom (p : Position) : List Char → Except (Position × ScanError) Scanned
  | [] => .ok ⟨[], p⟩
  | c :: r =>
    match Lexeme.classify c r with
    | none => .error (p, .invalidText (c :: r))
    | some (kind, n) =>
      let lexeme := c :: r.take n
      let q := p.advance lexeme
      match tokenValue kind lexeme with
      | none => .error (p, .invalidString lexeme)
      | some value =>
        match scanFrom q (r.drop n) with
        | .error e => .error e
        | .ok s =>
          if kind = .blank then .ok s
          else .ok { s with tokens := ⟨kind, String.ofList value, p, q⟩ :: s.tokens }
termination_by cs => cs.length
decreasing_by simp only [List.length_cons, List.length_drop]; omega

def scan (source : String) : Except (Position × ScanError) Scanned :=
  scanFrom .start source.toList

end DefFlow.Syntax
