import DefFlow.Diagnostic.Code
import DefFlow.Flow.Instructions
import DefFlow.Syntax.Tree
import DefFlow.Text.Numeral

/-!
# Lowering

Builds one function with a component tree for each function of a source file,
and remembers where its instructions, operands and variables were written. What
cannot be built is reported and left out. Locals are visible in the whole
function, wherever they are declared.
-/

set_option autoImplicit false

namespace DefFlow.Lowering

open DefFlow.Flow DefFlow.Syntax

structure Lowered where
  func : Func
  source : Syntax.Function
  instAt : List (InstId × Location)
  operandAt : List (UseSite × Location)
  declaredAt : List (VarId × Location)

structure Module where
  version : Option (Location × String)
  functions : List Lowered

structure State where
  file : String
  out : Lowered
  diagnostics : List Diagnostic

abbrev Lower (α : Type) := StateT State (Except EditError) α

def edit {α : Type} (e : Edit α) : Lower α := do
  let s ← get
  match e.run s.out.func with
  | .ok a func =>
    set { s with out := { s.out with func } }
    return a
  | .error e _ => throw e

def func : Lower Func := return (← get).out.func

def report (d : Diagnostic) : Lower Unit :=
  modify fun s => { s with diagnostics := s.diagnostics ++ [d] }

def locate (p : Position) : Lower Location := return .ofPosition (← get).file p

/-! ## Declarations -/

def declare (add : String → ValueType → Edit Variable) (name type : Name) : Lower Unit := do
  let here ← locate name.start
  match (← func).varNamed? name.text with
  | some previous =>
    let first := ((← get).out.declaredAt.lookup previous.id).getD default
    report (.duplicateVariable name.text here first)
  | none =>
    let t ← match ValueType.ofName? type.text with
      | some t => pure t
      | none => do
        report (.unknownType type.text (← locate type.start) ValueType.names)
        pure (.int 64)
    let v ← edit (add name.text t)
    modify fun s => { s with
      out := { s.out with declaredAt := s.out.declaredAt ++ [(v.id, here)] } }

mutual
def collect : Syntax.Block → Lower Unit
  | .mk _ _ statements => collectAll statements

def collectAll : List Statement → Lower Unit
  | [] => pure ()
  | s :: rest => do
    collectStatement s
    collectAll rest

def collectStatement : Statement → Lower Unit
  | .declare _ name type => declare Edit.addVariable name type
  | .branch _ cond yes no => do
    collect cond
    collect yes
    collectOptional no
  | .select _ cond cases => do
    collect cond
    collectBlocks cases
  | .whileLoop _ cond body advance => do
    collect cond
    collect body
    collectOptional advance
  | .forLoop _ init cond body advance => do
    collect init
    collect cond
    collect body
    collect advance
  | .nested block => collect block
  | .comment _ _ => pure ()
  | .assign _ _ _ => pure ()
  | .plain _ => pure ()

def collectOptional : Option Syntax.Block → Lower Unit
  | none => pure ()
  | some b => collect b

def collectBlocks : List Syntax.Block → Lower Unit
  | [] => pure ()
  | b :: rest => do
    collect b
    collectBlocks rest
end

/-! ## Instructions -/

/-- The value of an integer literal, if it is a number of 64 bits. -/
def readInteger (text : String) : Option Int := (Text.numeral text.toList).toOption

/-- The declared names in alphabetical order. -/
def declared : Lower (List String) := do
  return ((← func).vars.map Variable.name).mergeSort fun a b => !(b < a)

def unknown (name : String) (l : Location) : Lower Unit := do
  report (.unknownVariable name l (← declared))

/-- An operand, or a report of why it is none. -/
def operand (constType : ValueType) (o : Syntax.Operand) : Lower (Option Arg) := do
  let here ← locate o.start
  match o.value with
  | .bool b => return some (.constant ⟨if b then 1 else 0, .bool⟩)
  | .integer digits =>
    match readInteger digits with
    | some n => return some (.constant ⟨n, constType⟩)
    | none =>
      report (.invalidInstruction s!"integer literal {digits} does not fit in 64 bits" here)
      return none
  | .name text =>
    match (← func).varNamed? text with
    | some v => return some (.var v)
    | none =>
      unknown text here
      return none

/-- The type of integer literals: that of the first variable among the operands,
else that of the destination, else 64 bits. -/
def constantType (f : Func) (i : Syntax.Inst) (dest : Option Variable) : ValueType :=
  let first := i.operands.findSome? fun o =>
    match o.value with
    | .name text => f.varNamed? text
    | _ => none
  match first, dest with
  | some v, _ => v.type
  | none, some v => v.type
  | none, none => .int 64

/-- Why an instruction cannot stand at the end of a block. -/
def misplaced? (f : Func) (file : String) (b : NodeId) (dest : Option Name) (i : Syntax.Inst)
    (op : Opcode) : Option Diagnostic :=
  let here := Location.ofPosition file i.op.start
  let name := i.op.text
  if op = .phi then
    some (.invalidInstruction
      "phi instructions are inserted by resolution and cannot be written" here)
  else if op = .arg then
    some (.invalidInstruction "arguments are defined by the function signature" here)
  else if op.arity.any fun n => i.operands.length ≠ n then
    some (.operandCount name (op.arity.getD 0) i.operands.length here)
  else if dest.isNone && op.hasDef && op ≠ .call then
    some (.invalidInstruction s!"'{name}' needs a destination" here)
  else match dest, op.hasDef, f.terminator? b with
    | some d, false, _ =>
      some (.invalidInstruction s!"'{name}' does not define a value" (.ofPosition file d.start))
    | _, _, some last =>
      some (.invalidInstruction s!"instruction follows '{(f.inst last).op.name}' in the same block"
        (.ofPosition file i.start))
    | _, _, none => none

/-- The variable that an instruction defines; none if it cannot be one. -/
def destination (d : Name) : Lower (Option Variable) := do
  let here ← locate d.start
  match (← func).varNamed? d.text with
  | none =>
    unknown d.text here
    return none
  | some v =>
    if v.type.isVoid then
      report (.invalidInstruction s!"cannot assign to '{d.text}' of type void" here)
      return none
    return some v

def instruction (b : NodeId) (dest : Option Name) (i : Syntax.Inst) : Lower Unit := do
  match Opcode.ofName? i.op.text with
  | none => report (.unknownOpcode i.op.text (← locate i.op.start) Opcode.names)
  | some op =>
    if let some d := misplaced? (← func) (← get).file b dest i op then
      report d
      return
    let target ← match dest with
      | some d => destination d
      | none => pure none
    let args ← i.operands.mapM (operand (constantType (← func) i target))
    if dest.isSome && target.isNone || args.any Option.isNone then return
    let id ← edit (Edit.appendInst b op target (args.filterMap fun a => a))
    let here ← locate (dest.map Name.start |>.getD i.start)
    let file := (← get).file
    let operandAt := i.operands.zipIdx.map fun (o, slot) =>
      ((⟨id, slot⟩ : UseSite), Location.ofPosition file o.start)
    modify fun s => { s with out := { s.out with
      instAt := s.out.instAt ++ [(id, here)]
      operandAt := s.out.operandAt ++ operandAt } }

/-! ## Statements -/

/-- Conditions decide where control goes, so they hold instructions only. -/
def conditionStatement (b : NodeId) : Statement → Lower Unit
  | .comment _ _ => pure ()
  | .declare _ _ _ => pure ()
  | .assign _ dest inst => instruction b (some dest) inst
  | .plain inst => instruction b none inst
  | .branch start _ _ _ => refused start
  | .select start _ _ => refused start
  | .whileLoop start _ _ _ => refused start
  | .forLoop start _ _ _ _ => refused start
  | .nested block => refused block.start
where
  refused (p : Position) : Lower Unit := do
    report (.invalidInstruction "control flow is not allowed in a condition" (← locate p))

def condition (label : String) (block : Syntax.Block) : Lower NodeId := do
  let b ← edit (Edit.newBlock label)
  block.statements.forM (conditionStatement b)
  return b

/-- The block that the next instruction goes into. -/
def currentBlock (seq : NodeId) : Option NodeId → Lower NodeId
  | some b => return b
  | none => do
    let b ← edit (Edit.newBlock "bb")
    edit do Edit.appendElement seq (← Edit.refTo b)
    return b

def appendTo (seq c : NodeId) : Lower Unit :=
  edit do Edit.appendElement seq (← Edit.refTo c)

def fork (cond : NodeId) (cases : List NodeId) : Lower NodeId :=
  edit do Edit.newFork (← Edit.refTo cond) (← cases.mapM Edit.refTo)

def loop (start : Option NodeId) (cond body update : NodeId) : Lower NodeId :=
  edit do
    let start ← start.mapM Edit.refTo
    Edit.newLoop start (← Edit.refTo cond) (← Edit.refTo body) (← Edit.refTo update) none

mutual
/-- Lowers statements into a sequence. Instructions in a row share the block
`cur`. -/
def statements (seq : NodeId) (cur : Option NodeId) : List Statement → Lower Unit
  | [] => pure ()
  | s :: rest => do
    let cur ← statement seq cur s
    statements seq cur rest

def statement (seq : NodeId) (cur : Option NodeId) : Statement → Lower (Option NodeId)
  | .comment _ _ => return cur
  | .declare _ _ _ => return cur
  | .assign _ dest inst => do
    let b ← currentBlock seq cur
    instruction b (some dest) inst
    return some b
  | .plain inst => do
    let b ← currentBlock seq cur
    instruction b none inst
    return some b
  | .nested block => do
    appendTo seq (← sequence block)
    return none
  | .branch _ cond yes no => do
    let cond ← condition "if" cond
    let no ← optionalSequence no
    let yes ← sequence yes
    appendTo seq (← fork cond [yes, no])
    return none
  | .select _ cond cases => do
    let cond ← condition "switch" cond
    appendTo seq (← fork cond (← sequences cases))
    return none
  | .whileLoop _ cond body advance => do
    let cond ← condition "loop_cond" cond
    let body ← sequence body
    let advance ← optionalSequence advance
    appendTo seq (← loop none cond body advance)
    return none
  | .forLoop _ init cond body advance => do
    let cond ← condition "loop_cond" cond
    let init ← sequence init
    let body ← sequence body
    let advance ← sequence advance
    appendTo seq (← loop (some init) cond body advance)
    return none

def sequence : Syntax.Block → Lower NodeId
  | .mk _ _ body => do
    let seq ← edit (Edit.newSequence [])
    statements seq none body
    return seq

def optionalSequence : Option Syntax.Block → Lower NodeId
  | none => edit (Edit.newSequence [])
  | some b => sequence b

def sequences : List Syntax.Block → Lower (List NodeId)
  | [] => return []
  | b :: rest => do
    let first ← sequence b
    return first :: (← sequences rest)
end

/-- The block at the start defines every argument, so that no body starts with a
structure. -/
def prologue (entry : NodeId) : Lower Unit := do
  let f ← func
  for v in f.args do
    let i ← edit (Edit.appendInst entry .arg (some (f.varAt v)) [])
    let here := ((← get).out.declaredAt.lookup v).getD default
    modify fun s => { s with out := { s.out with instAt := s.out.instAt ++ [(i, here)] } }

def function (src : Syntax.Function) : Lower Unit := do
  src.params.forM fun p => declare Edit.addArgument p.name p.type
  src.returns.forM fun p => declare Edit.addReturn p.name p.type
  collect src.body
  let entry ← edit (Edit.newBlock "entry")
  let body := (← func).body.id
  appendTo body entry
  prologue entry
  statements body (some entry) src.body.statements

def lowerFunction (file : String) (handle : Nat) (src : Syntax.Function) :
    Except EditError (Lowered × List Diagnostic) := do
  let out : Lowered := ⟨Func.new handle src.name.text, src, [], [], []⟩
  let (_, s) ← (function src).run ⟨file, out, []⟩
  return (s.out, s.diagnostics)

/-- Lowers the functions that do not repeat the name of an earlier one. -/
def lowerFunctions (file : String) : List (String × Location) → List Syntax.Function →
    Except EditError (List Lowered × List Diagnostic)
  | _, [] => .ok ([], [])
  | seen, src :: rest => do
    let here := Location.ofPosition file src.name.start
    match seen.lookup src.name.text with
    | some first =>
      let (fs, ds) ← lowerFunctions file seen rest
      return (fs, .duplicateFunction src.name.text here first :: ds)
    | none =>
      let (f, own) ← lowerFunction file seen.length src
      let (fs, ds) ← lowerFunctions file ((src.name.text, here) :: seen) rest
      return (f :: fs, own ++ ds)

def lower (file : String) (tree : File) : Except EditError (Module × List Diagnostic) := do
  let versions := tree.versions.map fun (p, value) => (Location.ofPosition file p, value)
  let repeated := (versions.drop 1).map fun (l, _) =>
    Diagnostic.invalidInstruction "version is declared more than once" l
  let (functions, ds) ← lowerFunctions file [] tree.functions
  return (⟨versions.head?, functions⟩, repeated ++ ds)

def Module.lookup? (m : Module) (name : String) : Option Lowered :=
  m.functions.find? fun f => f.func.name = name

end DefFlow.Lowering
