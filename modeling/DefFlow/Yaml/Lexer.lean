import DefFlow.Yaml.Scalar
import DefFlow.Yaml.Token

/-!
# Cutting a YAML text into tokens

A key is known as a key only when its colon is met, so tokens wait in a queue: the
place where a key may start is kept, and the tokens that open its mapping are put in
front of it later. A place is kept for each level of flow collections. At least three
tokens wait before the first is handed out, and none as long as it may be a key.
-/

set_option autoImplicit false

namespace DefFlow.Yaml

/-- A place where a key may start. -/
structure KeySpot where
  /-- Whether nothing but a key can stand there. -/
  required : Bool
  /-- The number of the token that starts there. -/
  number : Nat
  mark : Mark
  deriving DecidableEq, Repr

structure Lexer where
  cursor : Cursor
  /-- Whether the text ends where the characters end. -/
  complete : Bool
  queue : List Token
  /-- How many tokens were handed out. -/
  taken : Nat
  /-- The least column of what lies inside the innermost block. -/
  margin : Nat
  /-- The margins of the blocks around it. -/
  margins : List Nat
  keyAllowed : Bool
  key : Option KeySpot
  /-- The keys outside the innermost flow collection, one for each level. -/
  outer : List (Option KeySpot)
  deriving DecidableEq, Repr

abbrev Lex (α : Type) := EStateM Fault Lexer α

namespace Lexer

def ofText (text : String) : Lexer :=
  let (cs, complete) := readable text
  { cursor := .start cs, complete, queue := [], taken := 0, margin := 0, margins := [],
    keyAllowed := true, key := none, outer := [] }

def inFlow (l : Lexer) : Bool := !l.outer.isEmpty

/-- A key and its colon stand on one line, at most 1024 characters apart. -/
def isStale (l : Lexer) (k : KeySpot) : Bool :=
  k.mark.line < l.cursor.mark.line || k.mark.index + 1024 < l.cursor.mark.index

def forget (k : KeySpot) (l : Lexer) : Lexer :=
  { l with key := l.key.filter (· ≠ k), outer := l.outer.map fun o => o.filter (· ≠ k) }

end Lexer

namespace Lex

def here : Lex Mark := do return (← get).cursor.mark

def moveTo (rest : List Char) : Lex Unit :=
  modify fun l => { l with cursor := l.cursor.moveTo rest }

/-- Passes over some characters. -/
def pass (n : Nat) : Lex Unit := do moveTo ((← get).cursor.rest.drop n)

def failAt {α : Type} (context : Mark) (p : Problem) : Lex α := do
  throw (.inToken context.line (← here).line p)

/-- Takes over what a reader has read. -/
def took {α : Type} (start : Mark) : Except Stop (α × List Char) → Lex α
  | .ok (a, rest) => do
    moveTo rest
    return a
  | .error s => do
    moveTo s.rest
    failAt start s.problem

/-- Takes over what a reader has read on one line. -/
def tookInLine {α : Type} (start : Mark) : Except Problem (α × List Char) → Lex α
  | .ok (a, rest) => do
    moveTo rest
    return a
  | .error p => failAt start p

def allowKey (allowed : Bool) : Lex Unit := modify fun l => { l with keyAllowed := allowed }

def emit (kind : TokenKind) (mark : Mark) : Lex Unit :=
  modify fun l => { l with queue := l.queue ++ [⟨kind, mark⟩] }

/-- Puts a token in front of the one with a number. -/
def emitAt (number : Nat) (kind : TokenKind) (mark : Mark) : Lex Unit :=
  modify fun l =>
    let k := number - l.taken
    { l with queue := l.queue.take k ++ ⟨kind, mark⟩ :: l.queue.drop k }

/-! ## Keys and blocks -/

/-- Gives up the place of a key. -/
def dropKey : Lex Unit := do
  if let some k := (← get).key then
    if k.required then failAt k.mark .missingColon
    modify fun l => { l with key := none }

/-- Keeps the place here, if a key may start. In a block, a token in the column of the
block can only be a key. -/
def saveKey : Lex Unit := do
  if (← get).keyAllowed then
    dropKey
    modify fun l =>
      let mark := l.cursor.mark
      let required := !l.inFlow && l.margin = mark.column + 1
      { l with key := some ⟨required, l.taken + l.queue.length, mark⟩ }

/-- Opens a block at a column that lies inside the innermost one; its token goes in
front of the one with a number. -/
def openBlock (kind : TokenKind) (mark : Mark) (number : Option Nat) : Lex Unit := do
  let l ← get
  if !l.inFlow && l.margin ≤ mark.column then
    set { l with margin := mark.column + 1, margins := l.margin :: l.margins }
    if depthLimit ≤ l.margins.length then
      failAt ((l.key.map KeySpot.mark).getD default) .tooDeep
    match number with
    | some n => emitAt n kind mark
    | none => emit kind mark

/-- Closes the blocks whose margin lies behind a column. -/
def closeBlocks (column : Nat) (mark : Mark) : Lex Unit := do
  let l ← get
  if !l.inFlow then
    let inner := (l.margin :: l.margins).takeWhile (column < ·)
    match (l.margin :: l.margins).drop inner.length with
    | margin :: margins =>
      let ends : List Token := inner.map fun _ => ⟨.blockEnd, mark⟩
      set { l with margin, margins, queue := l.queue ++ ends }
    | [] => return

/-! ## What stands between tokens -/

/-- How far a comment is looked for behind blanks. -/
def commentReach : Nat := 511

/-- How many characters to pass over from the end of a comment to the next comment, if
only blanks and empty lines lie between. -/
def commentBridge? (cs : List Char) : Option Nat :=
  let run := cs.takeWhile fun c => isBlank c || c = '\n' || c = '\r'
  if 0 < run.length && run.length ≤ commentReach && (cs.drop run.length).head? = some '#' then
    some run.length
  else none

/-- Where the gap between tokens has led: `bridge` characters between two comments are
passed over unseen. -/
structure GapState where
  keyAllowed : Bool
  inComment : Bool
  bridge : Nat
  atStart : Bool
  deriving DecidableEq, Repr

/-- Passes over blanks, line breaks and comments, and tells whether a key may follow.
In a block a tab cannot stand where a key may start, and a new line may start a key. -/
def passGap (inFlow : Bool) (s : GapState) : List Char → Bool × List Char
  | [] => (s.keyAllowed, [])
  | c :: rest =>
    if 0 < s.bridge then passGap inFlow { s with bridge := s.bridge - 1 } rest
    else if s.inComment && !isBreak c then passGap inFlow s rest
    else if isBreak c then
      match if s.inComment then commentBridge? (c :: rest) else none with
      | some n => passGap inFlow { s with inComment := false, bridge := n - 1 } rest
      | none => passGap inFlow ⟨s.keyAllowed || !inFlow, false, 0, true⟩ rest
    else if c = '#' then passGap inFlow { s with inComment := true, atStart := false } rest
    else if c = ' ' || (c = '\t' && (inFlow || !s.keyAllowed)) ||
        (c = '\ufeff' && s.atStart) then
      passGap inFlow { s with atStart := false } rest
    else (s.keyAllowed, c :: rest)

/-- Passes over a comment on the line of the last token. -/
def passLineComment : Lex Unit := do
  let l ← get
  let rest := l.cursor.rest.dropWhile isBlank
  if !l.cursor.fresh && rest.head? = some '#' &&
      l.cursor.rest.length ≤ rest.length + commentReach &&
      l.queue.getLast?.map Token.kind ≠ some .item then
    moveTo (dropLine rest)

/-! ## Tokens -/

/-- The end of the text counts as the start of a line. -/
def textEnd : Lex Unit := do
  modify fun l =>
    let m := l.cursor.mark
    if m.column = 0 then l
    else { l with cursor := { l.cursor with mark := ⟨m.index, m.line + 1, 0⟩ } }
  closeBlocks 0 (← here)
  dropKey
  allowKey false
  emit .textEnd (← here)

def directive (rest : List Char) : Lex Unit := do
  let start ← here
  closeBlocks 0 start
  dropKey
  allowKey false
  let d ← tookInLine start (readDirective rest)
  emit (.directive d) start

def documentMark (kind : TokenKind) : Lex Unit := do
  let start ← here
  closeBlocks 0 start
  dropKey
  allowKey false
  pass 3
  emit kind start

/-- A flow collection may be a key itself, and a key may follow its mark. -/
def openFlow (kind : TokenKind) : Lex Unit := do
  let start ← here
  saveKey
  modify fun l => { l with key := none, outer := l.key :: l.outer, keyAllowed := true }
  if depthLimit < (← get).outer.length then failAt start .tooDeep
  pass 1
  emit kind start

def closeFlow (kind : TokenKind) : Lex Unit := do
  let start ← here
  dropKey
  modify fun l => match l.outer with
    | key :: outer => { l with key, outer, keyAllowed := false }
    | [] => { l with keyAllowed := false }
  pass 1
  emit kind start

def comma : Lex Unit := do
  let start ← here
  dropKey
  allowKey true
  pass 1
  emit .comma start

/-- The mark of a list item. Inside a flow collection it is left to the order of the
tokens to refuse it. -/
def item : Lex Unit := do
  let start ← here
  unless (← get).inFlow do
    unless (← get).keyAllowed do failAt start .itemNotAllowed
    openBlock .blockList start none
  dropKey
  allowKey true
  pass 1
  emit .item start

def questionMark : Lex Unit := do
  let start ← here
  let l ← get
  unless l.inFlow do
    unless l.keyAllowed do failAt start .keyNotAllowed
    openBlock .blockMapping start none
  dropKey
  allowKey (!l.inFlow)
  pass 1
  emit .key start

/-- The place of the key that a colon here belongs to. -/
def keyOfColon : Lex (Option KeySpot) := do
  let l ← get
  match l.key with
  | none => return none
  | some k =>
    set { l with key := none }
    if l.isStale k then
      if k.required then failAt k.mark .missingColon
      return none
    return some k

def colon : Lex Unit := do
  let start ← here
  match ← keyOfColon with
  | some k =>
    emitAt k.number .key k.mark
    openBlock .blockMapping k.mark (some k.number)
    allowKey false
  | none =>
    let l ← get
    unless l.inFlow do
      unless l.keyAllowed do failAt start .valueNotAllowed
      openBlock .blockMapping start none
    allowKey (!l.inFlow)
  pass 1
  emit .value start

/-- A token that may be a key, behind which no key may start. -/
def word (read : Mark → Lex TokenKind) : Lex Unit := do
  let start ← here
  saveKey
  allowKey false
  emit (← read start) start

def plainScalar (start : Mark) : Lex TokenKind := do
  let l ← get
  match readPlain l.inFlow l.margin [] .none start.column l.cursor.rest with
  | .ok p =>
    moveTo p.rest
    if p.broken then allowKey true
    return .scalar p.text true
  | .error s => took start (.error s)

def blockScalar (folded : Bool) (rest : List Char) : Lex Unit := do
  let start ← here
  dropKey
  allowKey true
  let text ← took start (readBlockScalar folded (← get).margin rest)
  emit (.scalar text false) start

/-- Whether a plain scalar may start with a character. -/
def startsPlain (inFlow : Bool) (c : Char) (rest : List Char) : Bool :=
  if c = '-' then !rest.head?.any isBlank
  else if c = '?' || c = ':' then !inFlow && !endsWord rest
  else !isBlank c && !isBreak c && !",[]\x7b\x7d#&*!|>'\"%@`".toList.contains c

/-- Cuts off the token that starts with a character. -/
def content (c : Char) (rest : List Char) : Lex Unit := do
  let inFlow := (← get).inFlow
  if c = '[' then openFlow .flowList
  else if c = '\x7b' then openFlow .flowMapping
  else if c = ']' then closeFlow .flowListEnd
  else if c = '\x7d' then closeFlow .flowMappingEnd
  else if c = ',' then comma
  else if c = '-' && endsWord rest then item
  else if c = '?' && (inFlow || endsWord rest) then questionMark
  else if c = ':' && (inFlow || endsWord rest) then colon
  else if c = '*' then word fun start => .aliasOf <$> tookInLine start (readAnchor rest)
  else if c = '&' then word fun start => .anchor <$> tookInLine start (readAnchor rest)
  else if c = '!' then
    word fun start => (fun t => .tag t.1 t.2) <$> tookInLine start (readTag rest)
  else if c = '|' && !inFlow then blockScalar false rest
  else if c = '>' && !inFlow then blockScalar true rest
  else if c = '\'' then
    word fun start => (.scalar · false) <$> took start (readSingle [] .none false rest)
  else if c = '"' then
    word fun start => (.scalar · false) <$> took start (readDouble .no [] .none false rest)
  else if startsPlain inFlow c rest then word plainScalar
  else failAt (← here) .noToken

/-- Refuses to go on where the text holds a character that must not be there. -/
def needText : Lex Unit := do
  let l ← get
  if !l.complete && l.cursor.rest.length < 4 then throw (.general .controlCharacter)

/-- Cuts the next token off the text. -/
def cutToken : Lex Unit := do
  let l ← get
  let before := l.cursor.mark
  let gap : GapState := ⟨l.keyAllowed, false, 0, before.column = 0⟩
  let (keyAllowed, rest) := passGap l.inFlow gap l.cursor.rest
  moveTo rest
  allowKey keyAllowed
  needText
  let column := (← here).column
  closeBlocks (column + 1) before
  match rest with
  | [] => textEnd
  | c :: more =>
    if column = 0 && c = '%' then directive more
    else if column = 0 && isDocumentMark rest then
      documentMark (if c = '-' then .documentStart else .documentEnd)
    else
      content c more
      passLineComment

/-- A fault at the end of the characters is a fault of the text, if that goes on. -/
def fetch : Lex Unit := do
  needText
  tryCatch cutToken fun e => do
    needText
    throw e

/-- Whether the first token of the queue can be handed out. -/
def isSettled : Lex Bool := do
  let l ← get
  if l.queue.length < 3 then return false
  match (l.key :: l.outer).findSome? fun o => o.filter fun k => k.number = l.taken with
  | none => return true
  | some k =>
    if l.isStale k then
      if k.required then failAt k.mark .missingColon
      set (l.forget k)
      return true
    return false

/-- Cuts off at most `n` tokens, until the first one can be handed out. -/
def fill : Nat → Lex Unit
  | 0 => return
  | n+1 => do
    unless ← isSettled do
      fetch
      fill n

/-- The next token, which stays in the queue. Every token but the end takes up a
character, so the length of the text bounds how many can be wanted. -/
def peek : Lex Token := do
  fill ((← get).cursor.rest.length + 4)
  return (← get).queue.head?.getD ⟨.textEnd, ← here⟩

def skip : Lex Unit :=
  modify fun l => { l with queue := l.queue.drop 1, taken := l.taken + 1 }

end Lex
end DefFlow.Yaml
