import DefFlow.Flow.Propagation

/-!
# Instructions

Adding and removing instructions keeps the timelines of the block in step: each
use is held by the last definition before it, or waits for what flows in, and
the definitions of a timeline stand in the order of their instructions.
-/

set_option autoImplicit false

namespace DefFlow.Flow

namespace Func

/-- Whether a use comes before another in their block. -/
def siteBefore (f : Func) (u w : UseSite) : Bool :=
  if f.indexOf u.inst = f.indexOf w.inst then u.slot < w.slot
  else f.indexOf u.inst < f.indexOf w.inst

/-- Adds a use behind those that do not come after it. -/
def insertSite (f : Func) (u : UseSite) (uses : List UseSite) : List UseSite :=
  uses.takeWhile (fun w => !f.siteBefore u w) ++ u :: uses.dropWhile (fun w => !f.siteBefore u w)

end Func

namespace Timeline

/-- The uses held by a definition, or waiting. -/
def usesOf (t : Timeline) : Option InstId → List UseSite
  | none => t.waiting
  | some i => ((t.locals.find? fun l => l.inst = i).map Local.uses).getD []

def changeUses (t : Timeline) (holder : Option InstId) (change : List UseSite → List UseSite) :
    Timeline :=
  match holder with
  | none => { t with waiting := change t.waiting }
  | some i => { t with
      locals := t.locals.map fun l => if l.inst = i then { l with uses := change l.uses } else l }

def eraseUse (t : Timeline) (u : UseSite) : Timeline :=
  { t with
    waiting := t.waiting.erase u
    locals := t.locals.map fun l => { l with uses := l.uses.erase u } }

end Timeline

namespace Edit

def changeInst (i : InstId) (change : Instruction → Instruction) : Edit Unit :=
  modify fun f => { f with insts := f.insts.modify i change }

def addUse (t : TimelineId) (holder : Option InstId) (u : UseSite) : Edit Unit := do
  let f ← get
  changeTimeline t fun x => x.changeUses holder (f.insertSite u)

/-- Gives the instructions of a block their places. -/
def reindex (b : NodeId) : Edit Unit := do
  for (i, index) in ((← get).blockAt b).instructions.zipIdx do
    changeInst i fun x => { x with index, block := some b }

/-- Makes an instruction without operands at a position of a block. -/
def placeInst (b : NodeId) (position : Nat) (op : Opcode) : Edit InstId := do
  let f ← get
  let i := f.insts.next
  set { f with insts := f.insts.push ⟨op, some b, 0, [], none⟩ }
  changeBlock b fun x => { x with instructions := x.instructions.insertIdx position i }
  reindex b
  return i

def nextDef (v : VarId) : Edit Def := do
  let f ← get
  let count (x : Variable) : Variable := if x.id = v then { x with defs := x.defs + 1 } else x
  set { f with vars := f.vars.map count }
  return ⟨v, (f.varAt v).defs + 1⟩

/-- Adds a definition to a timeline at the place of its instruction. A variable
without a type cannot get one at the end. -/
def insertLocal (t : TimelineId) (i : InstId) : Edit Unit := do
  let f ← get
  let x := f.timelineAt t
  let (before, after) := x.locals.span fun l => f.indexOf l.inst ≤ f.indexOf i
  if after.isEmpty then
    let v := f.varAt x.var
    require (!v.type.isVoid) .appendLocal (.untyped v.name)
  changeTimeline t fun x => { x with locals := before ++ ⟨i, []⟩ :: after }
  bump

/-- Makes an instruction define `v`; the uses behind it observe it from now on. -/
def defineAt (t : TimelineId) (i : InstId) (v : VarId) : Edit Unit := do
  let f ← get
  let position := f.indexOf i
  let x := f.timelineAt t
  let holder := f.lastBefore x.locals position
  let d ← nextDef v
  changeInst i fun x => { x with dest := some d }
  insertLocal t i
  let f ← get
  let later := fun u : UseSite => position < f.indexOf u.inst
  let moved := (x.usesOf holder).filter later
  changeTimeline t fun x => x.changeUses holder fun us => us.filter fun u => !later u
  changeTimeline t fun x => x.changeUses (some i) fun _ => moved

/-- Attaches a definition of `v` and announces it downstream. -/
def define (b : NodeId) (i : InstId) (v : VarId) : Edit Unit := do
  let t ← timelineFor b v
  let wasExplicit := ((← get).timelineAt t).explicit
  defineAt t i v
  unless wasExplicit do
    let _ ← propagate t none

def addOperand (op : Operation) (b : NodeId) (i : InstId) (position slot : Nat) :
    Arg → Edit Unit
  | .constant c => changeInst i fun x => { x with operands := x.operands ++ [.constant c] }
  | .var v => do
    let f ← get
    require (v.owner = f.handle) op (.foreignOperand slot f.name)
    let t ← timelineFor b v.id
    changeInst i fun x => { x with operands := x.operands ++ [.use v.id] }
    let f ← get
    addUse t (f.lastBefore (f.timelineAt t).locals position) ⟨i, slot⟩

/-- Refuses a wrong number of operands. -/
def checkArity (op : Operation) (code : Opcode) (args : List Arg) : Edit Unit :=
  match code.arity with
  | some arity => require (args.length = arity) op (.operandCount code arity args.length)
  | none => pure ()

/-- Refuses a place behind the instruction that ends a block. -/
def checkPlace (op : Operation) (b : NodeId) (position : Nat) : Edit Unit := do
  let f ← get
  match f.terminator? b with
  | some last =>
    require (position ≤ f.indexOf last) op (.afterTerminator (f.label b) (f.inst last).op)
  | none => pure ()

/-- Refuses a destination that is not a typed variable of the function. -/
def checkDest (op : Operation) : Option Variable → Edit Unit
  | some v => do
    require (v.owner = (← get).handle) op (.foreignVariable v.name)
    require (!v.type.isVoid) op (.untyped v.name)
  | none => pure ()

/-- Refuses an instruction that cannot be put before a position of a block. -/
def insertable (op : Operation) (b : NodeId) (position : Nat) (code : Opcode)
    (dest : Option Variable) (args : List Arg) : Edit Unit := do
  unfrozen op
  require (code ≠ .invalid && code ≠ .phi) op (.notInsertable code)
  checkArity op code args
  require (dest.isNone || code.hasDef) op (.definesNothing code)
  require (dest.isSome || !code.hasDef || code = .call) op (.needsDestination code)
  checkPlace op b position
  checkDest op dest

def insertInst (op : Operation) (b : NodeId) (position : Nat) (code : Opcode)
    (dest : Option Variable) (args : List Arg) : Edit InstId := do
  insertable op b position code dest args
  let i ← placeInst b position code
  for (a, slot) in args.zipIdx do
    addOperand op b i position slot a
  if let some v := dest then
    define b i v.id
  bump
  return i

def appendInst (b : NodeId) (code : Opcode) (dest : Option Variable) (args : List Arg) :
    Edit InstId := do
  insertInst .appendInst b ((← get).blockAt b).instructions.length code dest args

/-- Adds an instruction right behind the phis. -/
def prependInst (b : NodeId) (code : Opcode) (dest : Option Variable) (args : List Arg) :
    Edit InstId := do
  insertInst .prependInst b ((← get).blockAt b).phiCount code dest args

/-- Whether an instruction stands in a block of this function. -/
def standsIn (i : InstRef) (b : NodeId) : Edit Bool := do
  let f ← get
  return i.owner = f.handle && (f.inst i.id).block = some b

def insertInstBefore (b : NodeId) (i : InstRef) (code : Opcode) (dest : Option Variable)
    (args : List Arg) : Edit InstId := do
  let f ← get
  require (← standsIn i b) .insertInstBefore (.notInBlock (f.label b))
  require ((f.inst i.id).op ≠ .phi) .insertInstBefore .amongPhis
  insertInst .insertInstBefore b (f.indexOf i.id) code dest args

/-- Forgets a timeline that nothing needs any more. -/
def dropUnused (b : NodeId) (v : VarId) (t : TimelineId) : Edit Unit := do
  let f ← get
  if f.timelineId? b v = some t && (f.timelineAt t).unused then
    changeBlock b fun x => { x with timelines := x.timelines.filter fun e => e.1 ≠ v }
    modify fun f => { f with timelines := f.timelines.release t }
    bump

/-- Takes a definition away; its uses observe the one before it. -/
def undefine (t : TimelineId) (i : InstId) : Edit Unit := do
  let uses := ((← get).timelineAt t).usesOf (some i)
  changeTimeline t fun x => { x with locals := x.locals.filter fun l => l.inst ≠ i }
  bump
  let f ← get
  let holder := f.lastBefore (f.timelineAt t).locals (f.indexOf i)
  for u in uses do
    addUse t holder u

/-- Deletes an instruction with its uses and its definition. -/
def removeInst (b : NodeId) (i : InstRef) : Edit Unit := do
  unfrozen .removeInst
  let f ← get
  require (← standsIn i b) .removeInst (.notInBlock (f.label b))
  let i := i.id
  let observed := (f.usesOf i).filterMap fun (_, v) => (f.timelineId? b v).map fun t => (v, t)
  for (u, v) in f.usesOf i do
    if let some t := f.timelineId? b v then
      changeTimeline t fun x => x.eraseUse u
  let owner := (f.inst i).dest.bind fun d => (f.timelineId? b d.var).map fun t => (d.var, t)
  if let some (_, t) := owner then
    undefine t i
  let position := f.indexOf i
  changeBlock b fun x => { x with
    phiCount := if position < x.phiCount then x.phiCount - 1 else x.phiCount
    instructions := x.instructions.eraseIdx position }
  reindex b
  changeInst i fun x => { x with block := none }
  bump
  if let some (_, t) := owner then
    retarget t
  for (v, t) in observed ++ owner.toList do
    dropUnused b v t

/-- Puts a phi for `v` behind the other phis of a block. Its operands are the
incoming nodes of the timeline, which are made here unless they exist. -/
def createPhi (b : NodeId) (v : Variable) : Edit InstId := do
  unfrozen .createPhi
  let f ← get
  require (v.owner = f.handle) .createPhi (.foreignVariable v.name)
  require (f.hasParent b) .createPhi (.detachedBlock (f.label b))
  let phis := (f.blockAt b).instructions.take (f.blockAt b).phiCount
  require (!phis.any fun i => (f.inst i).dest.any fun d => d.var = v.id) .createPhi
    (.secondPhi (f.label b) v.name)
  let t ← timelineFor b v.id
  let wasExplicit := ((← get).timelineAt t).explicit
  let i ← placeInst b (f.blockAt b).phiCount .phi
  changeBlock b fun x => { x with phiCount := x.phiCount + 1 }
  defineAt t i v.id
  bump
  unless wasExplicit do
    let _ ← propagate t none
  if ((← get).timelineAt t).incoming.isEmpty then
    for p in (← get).preds b do
      let _ ← linkIncoming t p (← valueLeaving p v.id)
  return i

/-- Adds the definition made by an instruction behind those of a timeline. -/
def appendLocal (t : TimelineId) (i : InstRef) : Edit Unit := do
  unfrozen .appendLocal
  let f ← get
  let x := f.timelineAt t
  let v := f.varAt x.var
  require (← standsIn i x.block) .appendLocal (.notInBlock (f.label x.block))
  require ((f.inst i.id).dest.any fun d => d.var = x.var) .appendLocal (.otherVariable v.name)
  require (!v.type.isVoid) .appendLocal (.untyped v.name)
  require (x.locals.getLast?.all fun l => f.indexOf l.inst < f.indexOf i.id) .appendLocal
    .localOrder
  changeTimeline t fun x => { x with locals := x.locals ++ [⟨i.id, []⟩] }
  bump

end Edit
end DefFlow.Flow
