/-!
# Value types

Integers of a fixed width, truth values, addresses, and the empty type of what
has no value.
-/

set_option autoImplicit false

namespace DefFlow

inductive ValueType where
  | int (bits : Nat)
  | bool
  | ptr
  | void
  deriving DecidableEq, Repr, Inhabited

namespace ValueType

def text : ValueType → String
  | .int bits => "i" ++ toString bits
  | .bool => "bool"
  | .ptr => "ptr"
  | .void => "void"

def all : List ValueType :=
  [.int 1, .int 8, .int 16, .int 32, .int 64, .bool, .ptr, .void]

def names : List String := all.map text

def ofName? (name : String) : Option ValueType :=
  all.find? fun t => t.text = name

def isVoid (t : ValueType) : Bool := t = .void

end ValueType
end DefFlow
