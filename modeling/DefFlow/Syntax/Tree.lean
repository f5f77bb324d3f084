import DefFlow.Syntax.Position

/-!
# Syntax trees

A file is a list of comments, version headers and functions. The body of a
function is a block of statements; control statements are made of blocks.
-/

set_option autoImplicit false

namespace DefFlow.Syntax

structure Name where
  text : String
  start : Position
  stop : Position
  deriving DecidableEq, Repr, Inhabited

structure Param where
  start : Position
  name : Name
  type : Name
  deriving DecidableEq, Repr

inductive OperandValue where
  | bool (value : Bool)
  | integer (digits : String)
  | name (text : String)
  deriving DecidableEq, Repr

structure Operand where
  start : Position
  stop : Position
  value : OperandValue
  deriving DecidableEq, Repr

structure Inst where
  start : Position
  op : Name
  operands : List Operand
  deriving DecidableEq, Repr

mutual
inductive Statement where
  | comment (start : Position) (text : String)
  | declare (start : Position) (name type : Name)
  | branch (start : Position) (cond yes : Block) (no : Option Block)
  | select (start : Position) (cond : Block) (cases : List Block)
  | whileLoop (start : Position) (cond body : Block) (advance : Option Block)
  | forLoop (start : Position) (init cond body advance : Block)
  | nested (block : Block)
  | assign (start : Position) (dest : Name) (inst : Inst)
  | plain (inst : Inst)

inductive Block where
  | mk (start stop : Position) (statements : List Statement)
end

namespace Block

def start : Block → Position
  | .mk start _ _ => start

def stop : Block → Position
  | .mk _ stop _ => stop

def statements : Block → List Statement
  | .mk _ _ statements => statements

end Block

structure Function where
  start : Position
  stop : Position
  name : Name
  params : List Param
  returns : List Param
  body : Block

inductive Element where
  | comment (start : Position) (text : String)
  | version (start : Position) (value : String)
  | function (f : Function)

structure File where
  start : Position
  elements : List Element

namespace File

def functions (file : File) : List Function :=
  file.elements.filterMap fun
    | .function f => some f
    | _ => none

def versions (file : File) : List (Position × String) :=
  file.elements.filterMap fun
    | .version start value => some (start, value)
    | _ => none

end File
end DefFlow.Syntax
