import DefFlow.Syntax.Shape

/-!
# Rules with ordered choice and bounded lookahead

A rule reads tokens from a cursor. It does not apply, succeeds with a value, or
fails. A choice takes the first alternative that succeeds; an alternative that
fails after more than three further tokens decides the outcome, an earlier
failure lets the next alternative try. A literal matches a token of any class
with that value, so keywords are ordinary names everywhere else.

The cursor also remembers the failure met furthest into the text. It never
changes which tokens a rule accepts, only which message a refused text gets.
-/

set_option autoImplicit false

namespace DefFlow.Syntax

inductive SyntaxCause where
  | scan (e : ScanError)
  | unexpected (token : Token) (expected : Option Shape)
  deriving Repr

structure SyntaxError where
  position : Position
  cause : SyntaxCause
  deriving Repr

def SyntaxCause.message : SyntaxCause → String
  | .scan e => e.message
  | .unexpected t none => "unexpected token " ++ Text.quote t.shown
  | .unexpected t (some s) =>
    "unexpected token " ++ Text.quote t.shown ++ " (expected " ++ s.text ++ ")"

def SyntaxError.message (e : SyntaxError) : String := e.cause.message

structure Cursor where
  rest : List Token
  /-- The token after the last one. -/
  finish : Token
  /-- How many tokens have been read. -/
  count : Nat
  /-- The position right after the last token read. -/
  reached : Position
  /-- How many tokens had been read at the furthest failure. -/
  depth : Nat
  furthest : Option SyntaxError

namespace Cursor

def peek (c : Cursor) : Token := c.rest.head?.getD c.finish

def step (c : Cursor) : Cursor :=
  match c.rest with
  | [] => c
  | t :: rest => { c with rest, count := c.count + 1, reached := t.stop }

def unexpected (c : Cursor) (expected : Option Shape) : SyntaxError :=
  ⟨c.peek.start, .unexpected c.peek expected⟩

/-- Continues at the place that the attempt `b` reached. -/
def accept (c b : Cursor) : Cursor :=
  let moved := { c with rest := b.rest, count := b.count, reached := b.reached }
  if c.depth ≤ b.depth then { moved with depth := b.depth, furthest := b.furthest } else moved

/-- Remembers a failure at the current place unless a deeper one is known. -/
def note (c : Cursor) (e : SyntaxError) : Cursor :=
  if c.depth ≤ c.count then { c with furthest := some e, depth := c.count } else c

/-- How many tokens an attempt may read and still be given up for another. -/
def lookahead : Nat := 3

/-- Remembers the failure of the attempt `b`, and tells whether the attempt
went too far to be given up. -/
def abandon (c : Cursor) (e : SyntaxError) (b : Cursor) : Bool × Cursor :=
  let noted :=
    if c.depth < b.depth then { c with furthest := b.furthest, depth := b.depth }
    else if c.depth ≤ b.count then { c with furthest := some e, depth := max b.count b.depth }
    else c
  if c.count + lookahead < b.count then (true, noted.accept b) else (false, noted)

end Cursor

inductive Outcome (α : Type) where
  | absent
  | ok (value : α)
  | fail (e : SyntaxError)

def Outcome.map {α β : Type} (f : α → β) : Outcome α → Outcome β
  | .absent => .absent
  | .ok a => .ok (f a)
  | .fail e => .fail e

structure Rule (α : Type) where
  shape : Shape
  run : Cursor → Outcome α × Cursor

/-- What must still follow after the first item of a sequence applied. -/
structure Remainder (α : Type) where
  shapes : List Shape
  run : Cursor → Except SyntaxError α × Cursor

namespace Rule

def map {α β : Type} (f : α → β) (p : Rule α) : Rule β where
  shape := p.shape
  run c := let (r, c) := p.run c; (r.map f, c)

def literal (text : String) : Rule Unit where
  shape := .literal text
  run c := if c.peek.kind ≠ .endOfInput && c.peek.value = text then (.ok (), c.step)
    else (.absent, c)

def token (kind : TokenKind) : Rule String where
  shape := .token kind
  run c := if c.peek.kind = kind then (.ok c.peek.value, c.step) else (.absent, c)

/-- Gives a rule a name in messages, and its value the places where it starts
and stops. -/
def named {α β : Type} (name : String) (p : Rule α) (build : Position → Position → α → β) :
    Rule β where
  shape := .rule name
  run c :=
    let start := c.peek.start
    match p.run c with
    | (.absent, c) => (.absent, c)
    | (.ok a, c) => (.ok (build start c.reached a), c)
    | (.fail e, c) => (.fail e, c.note e)

def followedBy {α β : Type} (p : Rule α) (q : Remainder β) : Rule (α × β) where
  shape := .sequence (p.shape :: q.shapes)
  run c :=
    match p.run c with
    | (.absent, c) => (.absent, c)
    | (.fail e, c) => (.fail e, c)
    | (.ok a, c) =>
      match q.run c with
      | (.ok b, c) => (.ok (a, b), c)
      | (.error e, c) => (.fail e, c)

/-- Tries the alternatives in order. `failed` is the latest failure among those
that read the most tokens, and `depth` how many tokens these were. -/
def firstOf {α : Type} : List (Rule α) → Option SyntaxError → Nat → Cursor → Outcome α × Cursor
  | [], none, _, c => (.absent, c)
  | [], some e, _, c => (.fail e, c.note e)
  | p :: ps, failed, depth, c =>
    match p.run c with
    | (.absent, _) => firstOf ps failed depth c
    | (.ok a, b) => (.ok a, c.accept b)
    | (.fail e, b) =>
      match c.abandon e b with
      | (true, c) => (.fail e, c)
      | (false, c) =>
        if depth ≤ b.count then firstOf ps (some e) b.count c else firstOf ps failed depth c

def choice {α : Type} (ps : List (Rule α)) : Rule α where
  shape := .choice (ps.map Rule.shape)
  run c := firstOf ps none 0 c

/-- Applies a rule again and again, at most `limit` times. A failure within the
lookahead ends the repetition before the attempt. -/
def repeated {α : Type} (p : Rule α) : Nat → Cursor → Except SyntaxError (List α) × Cursor
  | 0, c => (.ok [], c)
  | limit+1, c =>
    match p.run c with
    | (.absent, b) => (.ok [], c.accept b)
    | (.ok a, b) =>
      match repeated p limit (c.accept b) with
      | (.ok as, c) => (.ok (a :: as), c)
      | (.error e, c) => (.error e, c)
    | (.fail e, b) =>
      match (c.note e).abandon e b with
      | (true, c) => (.error e, c)
      | (false, c) => (.ok [], c)

def many {α : Type} (p : Rule α) : Rule (List α) where
  shape := .group p.shape .many
  run c :=
    match repeated p (c.rest.length + 1) c with
    | (.ok as, c) => (.ok as, c)
    | (.error e, c) => (.fail e, c)

def some {α : Type} (p : Rule α) : Rule (List α) where
  shape := .group p.shape .some
  run c :=
    match repeated p (c.rest.length + 1) c with
    | (.ok [], c) => (.absent, c)
    | (.ok as, c) => (.ok as, c)
    | (.error e, c) => (.fail e, c)

def optional {α : Type} (p : Rule α) : Rule (Option α) where
  shape := .group p.shape .optional
  run c :=
    match repeated p 1 c with
    | (.ok as, c) => (.ok as.head?, c)
    | (.error e, c) => (.fail e, c)

end Rule

namespace Remainder

def done : Remainder Unit where
  shapes := []
  run c := (.ok (), c)

def andThen {α β : Type} (p : Rule α) (q : Remainder β) : Remainder (α × β) where
  shapes := p.shape :: q.shapes
  run c :=
    match p.run c with
    | (.absent, c) => (.error (c.unexpected (Option.some (.sequence (p.shape :: q.shapes)))), c)
    | (.fail e, c) => (.error e, c)
    | (.ok a, c) =>
      match q.run c with
      | (.ok b, c) => (.ok (a, b), c)
      | (.error e, c) => (.error e, c)

end Remainder

/-- Items separated by commas. -/
def Rule.separated {α : Type} (p : Rule α) : Rule (List α) :=
  (p.followedBy <| .andThen (((Rule.literal ",").followedBy <| .andThen p .done).many) .done).map
    fun (a, rest, _) => a :: rest.map fun (_, b, _) => b

end DefFlow.Syntax
