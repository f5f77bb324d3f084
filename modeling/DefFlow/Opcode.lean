/-!
# Opcodes

What an instruction does, as far as its wiring is concerned: whether it defines
a value, how many operands it takes, and whether it ends its block.
-/

set_option autoImplicit false

namespace DefFlow

inductive Opcode where
  | invalid
  | arg
  | const
  | copy
  | undef
  | phi
  | add
  | sub
  | mul
  | div
  | rem
  | and
  | or
  | xor
  | shl
  | shr
  | eq
  | ne
  | lt
  | le
  | gt
  | ge
  | not
  | neg
  | load
  | store
  | call
  | print
  | branch
  | ret
  deriving DecidableEq, Repr, Inhabited

namespace Opcode

/-- Every opcode in the order of their numbers; `invalid` has number zero. -/
def all : List Opcode :=
  [.invalid, .arg, .const, .copy, .undef, .phi, .add, .sub, .mul, .div, .rem, .and, .or, .xor,
    .shl, .shr, .eq, .ne, .lt, .le, .gt, .ge, .not, .neg, .load, .store, .call, .print, .branch,
    .ret]

def name : Opcode → String
  | .invalid => "invalid"
  | .arg => "arg"
  | .const => "const"
  | .copy => "copy"
  | .undef => "undef"
  | .phi => "phi"
  | .add => "add"
  | .sub => "sub"
  | .mul => "mul"
  | .div => "div"
  | .rem => "rem"
  | .and => "and"
  | .or => "or"
  | .xor => "xor"
  | .shl => "shl"
  | .shr => "shr"
  | .eq => "eq"
  | .ne => "ne"
  | .lt => "lt"
  | .le => "le"
  | .gt => "gt"
  | .ge => "ge"
  | .not => "not"
  | .neg => "neg"
  | .load => "load"
  | .store => "store"
  | .call => "call"
  | .print => "print"
  | .branch => "br"
  | .ret => "ret"

def hasDef : Opcode → Bool
  | .invalid | .store | .print | .branch | .ret => false
  | _ => true

/-- The number of operands, or `none` if any number will do. -/
def arity : Opcode → Option Nat
  | .invalid | .arg | .undef | .phi => some 0
  | .const | .copy | .not | .neg | .load | .branch => some 1
  | .call | .print | .ret => none
  | _ => some 2

def terminates : Opcode → Bool
  | .branch | .ret => true
  | _ => false

def number (op : Opcode) : Nat := all.idxOf op

def ofNumber (n : Nat) : Opcode := all[n]?.getD .invalid

/-- The opcodes that can be written in a source text. -/
def named : List Opcode := all.drop 1

def names : List String := named.map name

def ofName? (s : String) : Option Opcode := named.find? fun op => op.name = s

end Opcode
end DefFlow
