import DefFlow.Syntax.Tree

/-!
# Semantic tokens

The names, keywords, numbers and comments of a file with their classes, in
document order. Editors get them as a list of numbers, five to a token, in which
each position is relative to the token before.
-/

set_option autoImplicit false

namespace DefFlow.Editor

open DefFlow.Syntax

inductive TokenClass where
  | function
  | parameter
  | binding
  | type
  | keyword
  | operator
  | number
  | comment
  | string
  deriving DecidableEq, Repr

namespace TokenClass

def all : List TokenClass :=
  [.function, .parameter, .binding, .type, .keyword, .operator, .number, .comment, .string]

def name : TokenClass → String
  | .function => "function"
  | .parameter => "parameter"
  | .binding => "variable"
  | .type => "type"
  | .keyword => "keyword"
  | .operator => "operator"
  | .number => "number"
  | .comment => "comment"
  | .string => "string"

def index (c : TokenClass) : Nat := all.idxOf c

end TokenClass

def modifierNames : List String := ["declaration", "readonly"]

structure SemanticToken where
  line : UInt32
  start : UInt32
  length : UInt32
  kind : TokenClass
  declares : Bool
  deriving DecidableEq, Repr

namespace SemanticToken

/-- A token of some bytes; an empty one is left out. -/
def make (p : Position) (length : Nat) (kind : TokenClass) (declares : Bool) :
    List SemanticToken :=
  if length = 0 || p.line = 0 then []
  else [⟨UInt32.ofNat (p.line - 1), UInt32.ofNat (p.column - 1), UInt32.ofNat length, kind,
    declares⟩]

def word (p : Position) (text : String) (kind : TokenClass) : List SemanticToken :=
  make p text.utf8ByteSize kind false

def ofName (n : Name) (kind : TokenClass) (declares : Bool) : List SemanticToken :=
  make n.start n.text.utf8ByteSize kind declares

def ofOperand (o : Operand) : List SemanticToken :=
  match o.value with
  | .name text => word o.start text .binding
  | .integer digits => word o.start digits .number
  | .bool true => word o.start "true" .keyword
  | .bool false => word o.start "false" .keyword

def ofInst (i : Inst) : List SemanticToken :=
  ofName i.op .operator false ++ i.operands.flatMap ofOperand

mutual
def ofBlock : Block → List SemanticToken
  | .mk _ _ statements => ofStatements statements

def ofStatements : List Statement → List SemanticToken
  | [] => []
  | s :: rest => ofStatement s ++ ofStatements rest

def ofStatement : Statement → List SemanticToken
  | .comment p text => word p text .comment
  | .declare p name type =>
    word p "var" .keyword ++ ofName name .binding true ++ ofName type .type false
  | .branch p cond yes no =>
    word p "if" .keyword ++ ofBlock cond ++ ofBlock yes ++ ofOptional no
  | .select p cond cases => word p "switch" .keyword ++ ofBlock cond ++ ofBlocks cases
  | .whileLoop p cond body advance =>
    word p "while" .keyword ++ ofBlock cond ++ ofBlock body ++ ofOptional advance
  | .forLoop p init cond body advance =>
    word p "for" .keyword ++ ofBlock init ++ ofBlock cond ++ ofBlock body ++ ofBlock advance
  | .nested block => ofBlock block
  | .assign _ dest inst => ofName dest .binding false ++ ofInst inst
  | .plain inst => ofInst inst

def ofOptional : Option Block → List SemanticToken
  | none => []
  | some b => ofBlock b

def ofBlocks : List Block → List SemanticToken
  | [] => []
  | b :: rest => ofBlock b ++ ofBlocks rest
end

def ofParam (kind : TokenClass) (p : Param) : List SemanticToken :=
  ofName p.name kind true ++ ofName p.type .type false

def ofFunction (f : Function) : List SemanticToken :=
  word f.start "func" .keyword ++ ofName f.name .function true ++
    f.params.flatMap (ofParam .parameter) ++ f.returns.flatMap (ofParam .binding) ++
    ofBlock f.body

def ofElement : Element → List SemanticToken
  | .comment p text => word p text .comment
  | .version p _ => word p "version" .keyword
  | .function f => ofFunction f

def before (a b : SemanticToken) : Bool :=
  if a.line ≠ b.line then a.line < b.line else a.start < b.start

/-- The tokens of a file in document order. -/
def collect (file : File) : List SemanticToken :=
  (file.elements.flatMap ofElement).mergeSort fun a b => !before b a

/-- The numbers of some tokens behind a token at a given place. -/
def encodeFrom (line start : UInt32) : List SemanticToken → List UInt32
  | [] => []
  | t :: rest =>
    let deltaLine := t.line - line
    let deltaStart := if deltaLine = 0 then t.start - start else t.start
    [deltaLine, deltaStart, t.length, UInt32.ofNat t.kind.index, if t.declares then 1 else 0] ++
      encodeFrom t.line t.start rest

def encode (ts : List SemanticToken) : List UInt32 := encodeFrom 0 0 ts

end SemanticToken
end DefFlow.Editor
