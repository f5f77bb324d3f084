import DefFlow.Syntax.Rule
import DefFlow.Syntax.Tree

/-!
# The grammar

One rule for each kind of syntax tree. Blocks nest, so the rules for statements
take the depth that is left; every block starts with a token of its own, which
makes the number of tokens a sufficient depth.
-/

set_option autoImplicit false

namespace DefFlow.Syntax.Grammar

open Rule Remainder

def comment : Rule (Position × String) :=
  named "Comment" (token .comment) fun start _ text => (start, text)

def version : Rule Element :=
  named "Version"
    ((literal "version").followedBy <| andThen (token .string) <| andThen (literal ";") done)
    fun start _ (_, value, _) => .version start value

def name : Rule Name :=
  named "PosIdent" (token .ident) fun start stop text => ⟨text, start, stop⟩

def param : Rule Param :=
  named "Param" (name.followedBy <| andThen (literal ":") <| andThen name done)
    fun start _ (n, _, t, _) => ⟨start, n, t⟩

def params : Rule (List Param) :=
  (optional (separated param)).map (·.getD [])

def boolOperand : Rule OperandValue :=
  choice [(literal "true").map fun _ => .bool true, (literal "false").map fun _ => .bool false]

def operand : Rule Operand :=
  named "Operand"
    (choice [boolOperand, (token .integer).map .integer, (token .ident).map .name])
    fun start stop value => ⟨start, stop, value⟩

def inst : Rule Inst :=
  named "Inst"
    (name.followedBy <| andThen (optional (separated operand)) <| andThen (literal ";") done)
    fun start _ (op, operands, _) => ⟨start, op, operands.getD []⟩

def declare : Rule Statement :=
  named "VarDecl"
    ((literal "var").followedBy <| andThen name <| andThen (literal ":") <| andThen name <|
      andThen (literal ";") done)
    fun start _ (_, n, _, t, _) => .declare start n t

def assign : Rule Statement :=
  named "Assign" (name.followedBy <| andThen (literal "=") <| andThen inst done)
    fun start _ (dest, _, i, _) => .assign start dest i

def clause (keyword : String) (block : Rule Block) : Rule Block :=
  ((literal keyword).followedBy <| andThen block done).map fun (_, b, _) => b

def branch (block : Rule Block) : Rule Statement :=
  named "IfStmt"
    ((literal "if").followedBy <| andThen block <| andThen (literal "then") <| andThen block <|
      andThen (optional (clause "else" block)) done)
    fun start _ (_, cond, _, yes, no, _) => .branch start cond yes no

def select (block : Rule Block) : Rule Statement :=
  named "SwitchStmt"
    ((literal "switch").followedBy <| andThen block <|
      andThen (Rule.some (clause "case" block)) done)
    fun start _ (_, cond, cases, _) => .select start cond cases

def whileLoop (block : Rule Block) : Rule Statement :=
  named "WhileStmt"
    ((literal "while").followedBy <| andThen block <| andThen (literal "do") <| andThen block <|
      andThen (optional (clause "step" block)) done)
    fun start _ (_, cond, _, body, advance, _) => .whileLoop start cond body advance

def forLoop (block : Rule Block) : Rule Statement :=
  named "ForStmt"
    ((literal "for").followedBy <| andThen block <| andThen (literal "while") <| andThen block <|
      andThen (literal "do") <| andThen block <| andThen (literal "step") <| andThen block done)
    fun start _ (_, init, _, cond, _, body, _, advance, _) =>
      .forLoop start init cond body advance

def statement (block : Rule Block) : Rule Statement :=
  named "Statement"
    (choice [
      comment.map fun (start, text) => .comment start text,
      declare,
      branch block,
      select block,
      whileLoop block,
      forLoop block,
      block.map .nested,
      assign,
      inst.map .plain])
    fun _ _ s => s

def block : Nat → Rule Block
  | 0 => { shape := .rule "Block", run c := (.absent, c) }
  | depth+1 =>
    named "Block"
      ((literal "\x7b").followedBy <| andThen (many (statement (block depth))) <|
        andThen (literal "\x7d") done)
      fun start stop (_, statements, _) => .mk start stop statements

def returns : Rule (List Param) :=
  (optional ((literal "->").followedBy <| andThen (literal "(") <| andThen params <|
    andThen (literal ")") done)).map fun
      | Option.some (_, _, ps, _) => ps
      | Option.none => []

def function (depth : Nat) : Rule Function :=
  named "Function"
    ((literal "func").followedBy <| andThen name <| andThen (literal "(") <| andThen params <|
      andThen (literal ")") <| andThen returns <| andThen (block depth) done)
    fun start stop (_, n, _, ps, _, rs, body, _) => ⟨start, stop, n, ps, rs, body⟩

def element (depth : Nat) : Rule Element :=
  named "Element"
    (choice [
      comment.map fun (start, text) => .comment start text,
      version,
      (function depth).map .function])
    fun _ _ e => e

def file (depth : Nat) : Rule File :=
  named "File" (many (element depth)) fun start _ elements => ⟨start, elements⟩

end DefFlow.Syntax.Grammar

namespace DefFlow.Syntax

/-- Reads a whole token list. What is left over is refused with the furthest
failure, if that lies behind the first token left. -/
def parseTokens (s : Scanned) : Except SyntaxError File :=
  let c : Cursor := ⟨s.tokens, s.endToken, 0, .start, 0, none⟩
  match (Grammar.file (s.tokens.length + 1)).run c with
  | (.fail e, _) => .error e
  | (.absent, c) => .error (c.unexpected none)
  | (.ok file, c) =>
    if c.rest.isEmpty then .ok file
    else match c.furthest with
      | some e => if c.depth ≤ c.count then .error (c.unexpected none) else .error e
      | none => .error (c.unexpected none)

def parse (source : String) : Except SyntaxError File :=
  match scan source with
  | .error (p, e) => .error ⟨p, .scan e⟩
  | .ok s => parseTokens s

end DefFlow.Syntax
