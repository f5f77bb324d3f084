import DefFlow.Syntax.Token

/-!
# Shapes of grammar rules

A shape is what a rule looks like in a message: the tokens, named rules and
groups it is made of. Sequences and choices of more than one item are put in
parentheses when they stand inside another shape.
-/

set_option autoImplicit false

namespace DefFlow.Syntax

/-- How often a group may occur. -/
inductive Repeat where
  | optional
  | many
  | some
  deriving DecidableEq, Repr

def Repeat.mark : Repeat → String
  | .optional => "?"
  | .many => "*"
  | .some => "+"

inductive Shape where
  | literal (text : String)
  | token (kind : TokenKind)
  | rule (name : String)
  | sequence (items : List Shape)
  | choice (items : List Shape)
  | group (item : Shape) (repeated : Repeat)
  deriving Repr

def parenthesized (inner : Bool) (count : Nat) (text : String) : String :=
  if inner && 1 < count then "(" ++ text ++ ")" else text

mutual
def Shape.render (inner : Bool) : Shape → String
  | .literal text => "\"" ++ text ++ "\""
  | .token kind => "<" ++ kind.name ++ ">"
  | .rule name => name
  | .sequence items =>
    parenthesized inner items.length (" ".intercalate (Shape.renderAll items))
  | .choice items =>
    parenthesized inner items.length (" | ".intercalate (Shape.renderAll items))
  | .group item repeated => item.render true ++ repeated.mark

def Shape.renderAll : List Shape → List String
  | [] => []
  | s :: rest => s.render true :: Shape.renderAll rest
end

def Shape.text (s : Shape) : String := s.render false

end DefFlow.Syntax
