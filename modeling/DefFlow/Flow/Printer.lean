import DefFlow.Flow.Join

/-!
# Printed functions

The component tree of a function with each use replaced by the definition that
reaches it. Printing builds no joins: a use whose join has not been built yet is
shown as unresolved.
-/

set_option autoImplicit false

namespace DefFlow.Flow

def printIndent (level : Nat) : String := "".pushn ' ' (2 * level)

def printLine (level : Nat) (text : String) : String := printIndent level ++ text ++ "\n"

namespace Func

def resolvedText (f : Func) : Resolution → String
  | .undefined => "undef"
  | .join b => "unresolved(" ++ f.label b ++ ")"
  | .top t => f.reachingText (.join t)
  | .timeline t => f.reachingText (Edit.leaving f t)

/-- The value that leaves the block of a timeline. -/
def outgoingText (f : Func) (t : TimelineId) : Except EditError String := do
  let x := f.timelineAt t
  if x.explicit then return f.reachingText (Edit.leaving f t)
  return f.resolvedText (← f.probe x.block x.var)

def incomingValues (f : Func) (t : TimelineId) : Except EditError String := do
  let parts ← (f.timelineAt t).incoming.mapM fun n => do
    let x := f.incomingAt n
    let value ← match x.target.filter fun t => (f.timelines.get? t).isSome with
      | some t => f.outgoingText t
      | none => pure "undef"
    return "[" ++ f.label x.pred ++ ": " ++ value ++ "]"
  return " ".intercalate parts

def operandText (f : Func) (b : NodeId) (i : InstId) (slot : Nat) :
    Operand → Except EditError String
  | .constant c => return c.text
  | .use v =>
    match f.observed? ⟨i, slot⟩ with
    | some d => return f.destText d
    | none => return f.resolvedText (← f.probe b v)

def printedInst (f : Func) (b : NodeId) (i : InstId) : Except EditError String := do
  let x := f.inst i
  let incoming ← match x.op, x.dest.bind fun d => f.timelineId? b d.var with
    | .phi, some t => do pure (" " ++ (← f.incomingValues t))
    | _, _ => pure ""
  let operands ← x.operands.zipIdx.mapM fun (o, slot) => f.operandText b i slot o
  let operands := if operands.isEmpty then "" else " " ++ ", ".intercalate operands
  return f.instText i ++ incoming ++ operands

/-- The joins of a block that no phi stands for. -/
def plainJoins (f : Func) (b : NodeId) : List TimelineId :=
  let x := f.blockAt b
  let phis := (x.instructions.take x.phiCount).filterMap fun i => (f.inst i).dest.map Def.var
  (x.timelines.filter fun e =>
    !(f.timelineAt e.2).incoming.isEmpty && !phis.contains e.1).map Prod.snd

def printBlock (f : Func) (level : Nat) (title : String) (b : NodeId) :
    Except EditError String := do
  let joins ← (f.plainJoins b).mapM fun t => do
    return printLine (level + 1)
      (f.reachingText (.join t) ++ " = join " ++ (← f.incomingValues t))
  let insts ← (f.blockAt b).instructions.mapM fun i => do
    return printLine (level + 1) (← f.printedInst b i)
  return printLine level (title ++ "block " ++ f.label b ++ " \x7b") ++ String.join joins ++
    String.join insts ++ printLine level "\x7d"

def printNested (level : Nat) (title inner : String) : String :=
  printLine level (title ++ " \x7b") ++ inner ++ printLine level "\x7d"

mutual
def printComponent (f : Func) (level : Nat) : Component → Except EditError String
  | .block b => f.printBlock level "" b
  | .seq _ elements => do
    return printNested level "seq" (← f.printElements (level + 1) elements)
  | .fork _ cond cases => do
    return printNested level "fork"
      ((← f.printBlock (level + 1) "cond " cond) ++ (← f.printCases (level + 1) 0 cases))
  | .loop _ start cond body update after => do
    let start := printNested (level + 1) "start" (← f.printComponent (level + 2) start)
    let cond ← f.printBlock (level + 1) "cond " cond
    let body := printNested (level + 1) "body" (← f.printComponent (level + 2) body)
    let update := printNested (level + 1) "update" (← f.printComponent (level + 2) update)
    let after ← f.printBlock (level + 1) "after " after
    return printNested level "loop" (start ++ cond ++ body ++ update ++ after)

def printElements (f : Func) (level : Nat) : List Component → Except EditError String
  | [] => .ok ""
  | c :: cs => do return (← f.printComponent level c) ++ (← f.printElements level cs)

def printCases (f : Func) (level index : Nat) : List Component → Except EditError String
  | [] => .ok ""
  | c :: cs => do
    let first := printNested level ("case " ++ toString index) (← f.printComponent (level + 1) c)
    return first ++ (← f.printCases level (index + 1) cs)
end

def signatureText (f : Func) (vars : List VarId) : String :=
  ", ".intercalate (vars.map fun v => (f.varAt v).name ++ ": " ++ (f.varAt v).type.text)

def print (f : Func) : Except EditError String := do
  let header := "func " ++ f.name ++ "(" ++ f.signatureText f.args ++ ") -> (" ++
    f.signatureText f.returns ++ ")"
  return printNested 0 header (← f.printComponent 1 f.body)

end Func
end DefFlow.Flow
