import DefFlow.Proofs.Lowering.Reading

/-!
# What a text asks for

The declarations of a function, its instructions in the order of the text, and the statements that
stand in a condition and must not. Instructions in a row form a run. An instruction is acceptable
by itself if its opcode, its operands and its destination are; in its run nothing may stand behind
an acceptable instruction that ends a block.
-/

set_option autoImplicit false

namespace DefFlow.Syntax

open Lowering

/-! ## Declarations -/

mutual
/-- The names that are declared in a statement, with their types. -/
def Statement.declarations : Statement → List (Name × Name)
  | .declare _ name type => [(name, type)]
  | .branch _ cond yes no => cond.declarations ++ (yes.declarations ++ declarationsOptional no)
  | .select _ cond cases => cond.declarations ++ declarationsBlocks cases
  | .whileLoop _ cond body advance =>
    cond.declarations ++ (body.declarations ++ declarationsOptional advance)
  | .forLoop _ init cond body advance =>
    init.declarations ++ (cond.declarations ++ (body.declarations ++ advance.declarations))
  | .nested block => block.declarations
  | .comment _ _ => []
  | .assign _ _ _ => []
  | .plain _ => []

def Block.declarations : Block → List (Name × Name)
  | .mk _ _ statements => declarationsAll statements

def declarationsAll : List Statement → List (Name × Name)
  | [] => []
  | s :: rest => s.declarations ++ declarationsAll rest

def declarationsOptional : Option Block → List (Name × Name)
  | none => []
  | some b => b.declarations

def declarationsBlocks : List Block → List (Name × Name)
  | [] => []
  | b :: rest => b.declarations ++ declarationsBlocks rest
end

def Param.declaration (p : Param) : Name × Name := (p.name, p.type)

def Param.isVoid (p : Param) : Bool := p.type.text = "void"

/-- The declarations of a function, from the inside of its conditions too. -/
def Function.declarations (src : Function) : List (Name × Name) :=
  src.params.map Param.declaration ++ src.returns.map Param.declaration ++ src.body.declarations

/-- The members of a list that do not repeat the name of an earlier one. -/
def originals {α : Type} (name : α → String) : List α → List α
  | [] => []
  | a :: rest => a :: (originals name rest).filter fun b => name b ≠ name a

def Function.arguments (src : Function) : List Param := originals (fun p => p.name.text) src.params

/-- The type that a name has been given where it is declared first. A type that does not exist
counts as one of 64 bits. -/
def typeIn (declarations : List (Name × Name)) (name : String) : Option ValueType :=
  (declarations.find? fun d => d.1.text = name).map fun d =>
    (ValueType.ofName? d.2.text).getD (.int 64)

/-! ## Instructions -/

section

variable (types : String → Option ValueType)

def OperandValue.readable : OperandValue → Bool
  | .bool _ => true
  | .integer digits => (readInteger digits).isSome
  | .name text => (types text).isSome

def Name.assignable (d : Name) : Bool := (types d.text).any (!·.isVoid)

/-- Whether an instruction with this opcode can be written, with as many operands, and with or
without a destination. -/
def Inst.fits (dest : Option Name) (i : Inst) (op : Opcode) : Bool :=
  op ≠ .phi && op ≠ .arg && op.arity.all (i.operands.length = ·) &&
    (dest.isSome = op.hasDef || op = .call)

def Inst.acceptable (dest : Option Name) (i : Inst) : Bool :=
  (Opcode.ofName? i.op.text).any (i.fits dest) && dest.all (·.assignable types) &&
    i.operands.all (·.value.readable types)

def Inst.ends (dest : Option Name) (i : Inst) : Bool :=
  i.acceptable types dest && (Opcode.ofName? i.op.text).any Opcode.terminates

end

structure Written where
  dest : Option Name
  inst : Inst
  /-- Whether an instruction has been accepted before it in its run that ends a block. -/
  late : Bool

def Written.start (w : Written) : Position := (w.dest.map Name.start).getD w.inst.start

def Written.step (w : Written) : Step := w.inst.step w.dest

def Written.accepted (types : String → Option ValueType) (w : Written) : Bool :=
  !w.late && w.inst.acceptable types w.dest

def Statement.inst? : Statement → Option (Option Name × Inst)
  | .assign _ dest inst => some (some dest, inst)
  | .plain inst => some (none, inst)
  | _ => none

def Statement.isStructure : Statement → Bool
  | .comment _ _ | .declare _ _ _ | .assign _ _ _ | .plain _ => false
  | _ => true

section

variable (types : String → Option ValueType)

def Statement.direct (late : Bool) (s : Statement) : List Written :=
  (s.inst?.map fun x => ⟨x.1, x.2, late⟩).toList

def Statement.endsRun (late : Bool) (s : Statement) : Bool :=
  late || s.inst?.any fun x => x.2.ends types x.1

def heldAll (late : Bool) : List Statement → List Written
  | [] => []
  | s :: rest => s.direct late ++ heldAll (s.endsRun types late) rest

def Block.held (b : Block) : List Written := heldAll types false b.statements

def Statement.lateAfter (late : Bool) (s : Statement) : Bool :=
  !s.isStructure && s.endsRun types late

mutual
/-- The instructions of a statement, but for those inside of structures in conditions. -/
def Statement.written (late : Bool) : Statement → List Written
  | .comment _ _ => []
  | .declare _ _ _ => []
  | .assign _ dest inst => [⟨some dest, inst, late⟩]
  | .plain inst => [⟨none, inst, late⟩]
  | .nested block => block.written
  | .branch _ cond yes no => cond.held types ++ (yes.written ++ writtenOptional no)
  | .select _ cond cases => cond.held types ++ writtenBlocks cases
  | .whileLoop _ cond body advance =>
    cond.held types ++ (body.written ++ writtenOptional advance)
  | .forLoop _ init cond body advance =>
    init.written ++ (cond.held types ++ (body.written ++ advance.written))

def Block.written : Block → List Written
  | .mk _ _ statements => writtenAll false statements

def writtenAll (late : Bool) : List Statement → List Written
  | [] => []
  | s :: rest => s.written late ++ writtenAll (s.lateAfter types late) rest

def writtenOptional : Option Block → List Written
  | none => []
  | some b => b.written

def writtenBlocks : List Block → List Written
  | [] => []
  | b :: rest => b.written ++ writtenBlocks rest
end

end

/-! ## Structures in conditions -/

def Block.strays (b : Block) : List Statement := b.statements.filter Statement.isStructure

mutual
def Statement.strays : Statement → List Statement
  | .comment _ _ => []
  | .declare _ _ _ => []
  | .assign _ _ _ => []
  | .plain _ => []
  | .nested block => block.straysWithin
  | .branch _ cond yes no => cond.strays ++ (yes.straysWithin ++ straysOptional no)
  | .select _ cond cases => cond.strays ++ straysBlocks cases
  | .whileLoop _ cond body advance => cond.strays ++ (body.straysWithin ++ straysOptional advance)
  | .forLoop _ init cond body advance =>
    init.straysWithin ++ (cond.strays ++ (body.straysWithin ++ advance.straysWithin))

def Block.straysWithin : Block → List Statement
  | .mk _ _ statements => straysAll statements

def straysAll : List Statement → List Statement
  | [] => []
  | s :: rest => s.strays ++ straysAll rest

def straysOptional : Option Block → List Statement
  | none => []
  | some b => b.straysWithin

def straysBlocks : List Block → List Statement
  | [] => []
  | b :: rest => b.straysWithin ++ straysBlocks rest
end

mutual
def Statement.controlled : Statement → List Statement
  | .comment _ _ => []
  | .declare _ _ _ => []
  | .assign _ _ _ => []
  | .plain _ => []
  | .nested block => block.controlled
  | .branch _ cond yes no =>
    (cond.strays ++ cond.controlled) ++ (yes.controlled ++ controlledOptional no)
  | .select _ cond cases => (cond.strays ++ cond.controlled) ++ controlledBlocks cases
  | .whileLoop _ cond body advance =>
    (cond.strays ++ cond.controlled) ++ (body.controlled ++ controlledOptional advance)
  | .forLoop _ init cond body advance =>
    init.controlled ++ ((cond.strays ++ cond.controlled) ++ (body.controlled ++ advance.controlled))

def Block.controlled : Block → List Statement
  | .mk _ _ statements => controlledAll statements

def controlledAll : List Statement → List Statement
  | [] => []
  | s :: rest => s.controlled ++ controlledAll rest

def controlledOptional : Option Block → List Statement
  | none => []
  | some b => b.controlled

def controlledBlocks : List Block → List Statement
  | [] => []
  | b :: rest => b.controlled ++ controlledBlocks rest
end

def Statement.In (s t : Statement) : Prop := s = t ∨ s ∈ t.controlled

end DefFlow.Syntax
