import DefFlow.Syntax.Tree
import DefFlow.Text.Quoted

/-!
# Canonical layout

Writes a syntax tree with four spaces for each level, one statement to a line
and an empty line before each function but a leading one.
-/

set_option autoImplicit false

namespace DefFlow.Syntax

def indent (level : Nat) : String := "".pushn ' ' (4 * level)

def Param.text (p : Param) : String := p.name.text ++ ": " ++ p.type.text

def paramsText (ps : List Param) : String := ", ".intercalate (ps.map Param.text)

def OperandValue.text : OperandValue → String
  | .bool true => "true"
  | .bool false => "false"
  | .integer digits => digits
  | .name text => text

def Inst.text (i : Inst) : String :=
  match i.operands with
  | [] => i.op.text ++ ";"
  | operands =>
    i.op.text ++ " " ++ ", ".intercalate (operands.map fun o => o.value.text) ++ ";"

mutual
/-- A statement without its indentation and line end. -/
def Statement.text (level : Nat) : Statement → String
  | .comment _ text => text
  | .declare _ name type => "var " ++ name.text ++ ": " ++ type.text ++ ";"
  | .branch _ cond yes none =>
    "if " ++ cond.text level ++ " then " ++ yes.text level
  | .branch _ cond yes (some no) =>
    "if " ++ cond.text level ++ " then " ++ yes.text level ++ " else " ++ no.text level
  | .select _ cond cases => "switch " ++ cond.text level ++ casesText level cases
  | .whileLoop _ cond body none =>
    "while " ++ cond.text level ++ " do " ++ body.text level
  | .whileLoop _ cond body (some advance) =>
    "while " ++ cond.text level ++ " do " ++ body.text level ++ " step " ++ advance.text level
  | .forLoop _ init cond body advance =>
    "for " ++ init.text level ++ " while " ++ cond.text level ++ " do " ++ body.text level
      ++ " step " ++ advance.text level
  | .nested block => block.text level
  | .assign _ dest inst => dest.text ++ " = " ++ inst.text
  | .plain inst => inst.text

/-- A block from the current column on; its closing brace stands at `level`. -/
def Block.text (level : Nat) : Block → String
  | .mk _ _ [] => "\x7b \x7d"
  | .mk _ _ statements =>
    "\x7b\n" ++ statementsText (level + 1) statements ++ indent level ++ "\x7d"

def casesText (level : Nat) : List Block → String
  | [] => ""
  | b :: rest => " case " ++ b.text level ++ casesText level rest

def statementsText (level : Nat) : List Statement → String
  | [] => ""
  | s :: rest => indent level ++ s.text level ++ "\n" ++ statementsText level rest
end

def Function.text (f : Function) : String :=
  "func " ++ f.name.text ++ "(" ++ paramsText f.params ++ ")"
    ++ (if f.returns.isEmpty then "" else " -> (" ++ paramsText f.returns ++ ")")
    ++ " " ++ f.body.text 0 ++ "\n"

def Element.text : Element → String
  | .comment _ text => text ++ "\n"
  | .version _ value => "version " ++ Text.quote value ++ ";\n"
  | .function f => f.text

/-- An element that is not the first, with the empty line it may need. -/
def Element.laterText : Element → String
  | .function f => "\n" ++ f.text
  | e => e.text

def File.text (file : File) : String :=
  match file.elements with
  | [] => ""
  | e :: rest => e.text ++ String.join (rest.map Element.laterText)

end DefFlow.Syntax
