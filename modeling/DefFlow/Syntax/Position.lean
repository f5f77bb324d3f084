/-!
# Source positions

Lines and columns count from one and a column counts characters; the offset
counts the bytes of the UTF-8 encoding from zero.
-/

set_option autoImplicit false

namespace DefFlow.Syntax

structure Position where
  line : Nat
  column : Nat
  offset : Nat
  deriving DecidableEq, Repr, Inhabited

namespace Position

def start : Position := ⟨1, 1, 0⟩

def next (p : Position) (c : Char) : Position :=
  if c = '\n' then ⟨p.line + 1, 1, p.offset + 1⟩
  else ⟨p.line, p.column + 1, p.offset + c.utf8Size⟩

/-- The position after the characters `cs`, read from `p` on. -/
def advance (p : Position) (cs : List Char) : Position :=
  cs.foldl next p

end Position
end DefFlow.Syntax
