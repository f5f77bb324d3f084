import DefFlow.Flow.Arena
import DefFlow.Flow.EditError
import DefFlow.ValueType

/-!
# Functions

A function holds a component tree, the instructions of its blocks, and for each
block and variable that the block touches a timeline. A timeline lists the
definitions of the variable in the block with the uses that observe them, the
uses that observe what flows into the block, and the incoming nodes: for each
predecessor the timeline whose value arrives from there. Trees that are not part
of the body are kept aside until they are put somewhere.
-/

set_option autoImplicit false

namespace DefFlow.Flow

abbrev VarId := Nat
abbrev InstId := Nat
abbrev TimelineId := Nat
abbrev IncomingId := Nat

structure Variable where
  /-- The function that the variable belongs to. -/
  owner : Nat
  id : VarId
  name : String
  type : ValueType
  /-- How many definitions have ever been made. -/
  defs : Nat
  deriving DecidableEq, Repr, Inhabited

def Variable.text (v : Variable) : String := "%" ++ v.name

/-- A component of some function, as it is named in messages. -/
structure ComponentRef where
  owner : Nat
  id : NodeId
  kind : Kind
  label : String
  deriving DecidableEq, Repr, Inhabited

/-- An instruction of some function. -/
structure InstRef where
  owner : Nat
  id : InstId
  deriving DecidableEq, Repr

/-- A timeline of some function, as it is named in messages. -/
structure TimelineRef where
  owner : Nat
  id : TimelineId
  var : VarId
  text : String
  deriving DecidableEq, Repr

structure Constant where
  value : Int
  type : ValueType
  deriving DecidableEq, Repr

def Constant.text (c : Constant) : String :=
  if c.type = .bool then (if c.value = 0 then "false" else "true") else toString c.value

inductive Operand where
  | use (v : VarId)
  | constant (c : Constant)
  deriving DecidableEq, Repr

/-- An operand as it is asked for, by a variable of any function. -/
inductive Arg where
  | var (v : Variable)
  | constant (c : Constant)
  deriving DecidableEq, Repr

/-- A definition of a variable, by its number among all definitions of it. -/
structure Def where
  var : VarId
  number : Nat
  deriving DecidableEq, Repr

structure Instruction where
  op : Opcode
  /-- The block of the instruction, until it is removed. -/
  block : Option NodeId
  index : Nat
  operands : List Operand
  dest : Option Def
  deriving Repr, Inhabited

/-- A use is an operand place of an instruction. -/
structure UseSite where
  inst : InstId
  slot : Nat
  deriving DecidableEq, Repr, Inhabited

/-- A definition in a block with the uses that observe it. -/
structure Local where
  inst : InstId
  uses : List UseSite
  deriving DecidableEq, Repr

structure Timeline where
  block : NodeId
  var : VarId
  incoming : List IncomingId
  /-- The uses that observe what flows into the block. -/
  waiting : List UseSite
  locals : List Local
  /-- The incoming nodes that are bound to this timeline. -/
  referrers : List IncomingId
  deriving Repr, Inhabited

namespace Timeline

/-- Whether the block only passes the variable on. -/
def isEmpty (t : Timeline) : Bool := t.incoming.isEmpty && t.locals.isEmpty

/-- Whether the timeline itself decides the value that leaves its block. -/
def explicit (t : Timeline) : Bool := !t.isEmpty

def unused (t : Timeline) : Bool := t.isEmpty && t.referrers.isEmpty && t.waiting.isEmpty

end Timeline

structure Incoming where
  owner : TimelineId
  pred : NodeId
  /-- The timeline that the value comes from; none if the variable has no value
  along this edge. -/
  target : Option TimelineId
  deriving Repr, Inhabited

structure Block where
  label : String
  /-- The phis come first. -/
  instructions : List InstId
  phiCount : Nat
  /-- In the order of the variables. -/
  timelines : List (VarId × TimelineId)
  deriving Repr, Inhabited

/-- What flows along a path: nothing, the value that leaves a timeline, or what
arrives at the top of a join block, whose paths are still open or differ. -/
inductive Reach where
  | undefined
  | timeline (t : TimelineId)
  | pending (join : NodeId)
  | join (join : NodeId)
  deriving DecidableEq, Repr, Inhabited

/-- A join block crossed by a resolution, with one value for each predecessor. -/
structure Frame where
  join : NodeId
  preds : List NodeId
  values : List Reach
  result : Reach
  deriving Repr, Inhabited

/-- A finished resolution of one variable at the top of one block. -/
structure Stack where
  leaf : NodeId
  var : VarId
  /-- In the order in which the joins were met. -/
  frames : List Frame
  /-- The joins whose paths differ, in the order in which they were completed. -/
  phis : List NodeId
  /-- What a completed join stands for. -/
  tops : List (NodeId × Reach)
  /-- What stands for a join that turned out to merge only one value. -/
  replaced : List (NodeId × Reach)
  root : Reach
  created : List IncomingId
  deriving Repr, Inhabited

/-- What can be asked about a variable at the top of a block. -/
structure Question where
  block : NodeId
  var : VarId
  /-- Whether the joins that the answer takes are left unbuilt. -/
  probe : Bool
  deriving DecidableEq, Repr

structure Func where
  /-- Tells the functions of a program apart. -/
  handle : Nat
  name : String
  body : Component
  /-- Whether the function still owns its body. -/
  bodyHeld : Bool
  /-- The trees outside the body. -/
  detached : List Component
  /-- The blocks; the numbers of structures have no value. -/
  nodes : Arena Block
  blockCount : Nat
  vars : List Variable
  args : List VarId
  returns : List VarId
  insts : Arena Instruction
  timelines : Arena Timeline
  incoming : Arena Incoming
  /-- Counts the changes of the trees. -/
  generation : Nat
  frozen : Bool
  /-- The resolutions made since the last change. -/
  memo : List (Question × Stack)
  deriving Inhabited

namespace Func

/-- The number of the function itself among its components. -/
def rootId : NodeId := 1

/-- A function with an empty sequence as its body. -/
def new (handle : Nat) (name : String) : Func where
  handle := handle
  name := name
  body := .seq 2 []
  bodyHeld := true
  detached := []
  nodes := Arena.empty.skip.skip
  blockCount := 0
  vars := []
  args := []
  returns := []
  insts := .empty
  timelines := .empty
  incoming := .empty
  generation := 2
  frozen := false
  memo := []

/-! ## The trees -/

def trees (f : Func) : List Component := f.body :: f.detached

def blocks (f : Func) : List NodeId := f.body.blocks

def find? (f : Func) (id : NodeId) : Option Component := Component.findAll? id f.trees

/-- The structures around a component, from the inside out, up to the root of
its tree. -/
def path (f : Func) (id : NodeId) : List (NodeId × Role) :=
  (f.trees.findSome? fun c => c.pathIn id).getD []

/-- Whether the component is the root of the body. -/
def isBody (f : Func) (id : NodeId) : Bool := f.body.id = id && f.bodyHeld

def parent? (f : Func) (id : NodeId) : Option (NodeId × Role) :=
  match f.path id with
  | p :: _ => some p
  | [] => if f.isBody id then some (rootId, .functionBody) else none

def hasParent (f : Func) (id : NodeId) : Bool := (f.parent? id).isSome

/-- Whether the component is part of the function. -/
def attached (f : Func) (id : NodeId) : Bool := f.bodyHeld && f.body.contains id

/-- Whether `inner` is `outer` or lies in it. -/
def contains (f : Func) (outer inner : NodeId) : Bool :=
  outer = inner || (f.path inner).any (fun p => p.1 = outer) ||
    (outer = rootId && f.attached inner)

/-- The role that `c` plays in the structure `parent`. -/
def roleIn (f : Func) (parent c : NodeId) : Role :=
  match f.parent? c with
  | some (p, role) => if p = parent then role else .none
  | none => .none

/-- The roles that a walk up from a component passes, up to the first at which it
stops. -/
def ascend (f : Func) (c : NodeId) (stops : Role → Bool) : List Role :=
  let roles := (f.path c).map Prod.snd
  let passed := roles.takeWhile fun r => !stops r
  passed ++ (roles.drop passed.length).take 1

/-- The first block of a component that passes a test, and how many blocks were
tested. -/
def findBlock (f : Func) (c : NodeId) (test : NodeId → Bool) : Option NodeId × Nat :=
  let blocks := ((f.find? c).getD f.body).blocks
  let failed := blocks.takeWhile fun b => !test b
  let found := (blocks.drop failed.length).head?
  (found, failed.length + if found.isSome then 1 else 0)

def preds (f : Func) (id : NodeId) : List NodeId :=
  (f.trees.findSome? fun c => c.predsIn id []).getD []

def succs (f : Func) (id : NodeId) : List NodeId :=
  (f.trees.findSome? fun c => c.succsIn id []).getD []

def entry (f : Func) : Option NodeId := f.body.entry

/-- Whether control leaves the parent of a block through it. -/
def isLeaf (f : Func) (b : NodeId) : Bool :=
  match f.parent? b with
  | none => true
  | some (p, _) =>
    if p = rootId then f.body.leaves.contains b
    else ((f.find? p).map Component.leaves).getD [] |>.contains b

/-! ## Blocks, variables and instructions -/

def blockAt (f : Func) (b : NodeId) : Block := (f.nodes.get? b).getD default

def label (f : Func) (b : NodeId) : String := (f.blockAt b).label

def var? (f : Func) : VarId → Option Variable
  | 0 => none
  | n+1 => f.vars[n]?

def varAt (f : Func) (v : VarId) : Variable := (f.var? v).getD default

def varNamed? (f : Func) (name : String) : Option Variable :=
  f.vars.find? fun v => v.name = name

def varText (f : Func) (v : VarId) : String := (f.varAt v).text

def inst (f : Func) (i : InstId) : Instruction := (f.insts.get? i).getD default

def indexOf (f : Func) (i : InstId) : Nat := (f.inst i).index

def defText (f : Func) (d : Def) : String :=
  f.varText d.var ++ "." ++ toString d.number

/-- The definition that an instruction makes. -/
def destText (f : Func) (i : InstId) : String :=
  match (f.inst i).dest with
  | some d => f.defText d
  | none => "undef"

def instText (f : Func) (i : InstId) : String :=
  let x := f.inst i
  match x.dest with
  | some d => f.defText d ++ " = " ++ x.op.name
  | none => x.op.name

/-- The instruction that ends a block, if there is one. -/
def terminator? (f : Func) (b : NodeId) : Option InstId :=
  (f.blockAt b).instructions.getLast?.filter fun i => (f.inst i).op.terminates

def useVariable (f : Func) (u : UseSite) : VarId :=
  match (f.inst u.inst).operands[u.slot]? with
  | some (.use v) => v
  | _ => 0

def useText (f : Func) (u : UseSite) : String :=
  "use(" ++ f.varText (f.useVariable u) ++ "@" ++ toString u.slot ++ ")"

/-- The uses of an instruction with their variables, in operand order. -/
def usesOf (f : Func) (i : InstId) : List (UseSite × VarId) :=
  (f.inst i).operands.zipIdx.filterMap fun
    | (.use v, slot) => some (⟨i, slot⟩, v)
    | _ => none

/-! ## Timelines -/

def timelineId? (f : Func) (b : NodeId) (v : VarId) : Option TimelineId :=
  (f.blockAt b).timelines.lookup v

def timelineAt (f : Func) (t : TimelineId) : Timeline := (f.timelines.get? t).getD default

def timeline? (f : Func) (b : NodeId) (v : VarId) : Option Timeline :=
  (f.timelineId? b v).bind f.timelines.get?

def timelineText (f : Func) (t : TimelineId) : String :=
  let x := f.timelineAt t
  f.varText x.var ++ "@" ++ f.label x.block

def incomingAt (f : Func) (n : IncomingId) : Incoming := (f.incoming.get? n).getD default

def incomingText (f : Func) (n : IncomingId) : String :=
  let x := f.incomingAt n
  let value := match x.target.filter fun t => (f.timelines.get? t).isSome with
    | some t => f.timelineText t
    | none => "undef"
  "[" ++ f.label x.pred ++ ": " ++ value ++ "]"

/-- The node of a timeline for a predecessor. -/
def incomingFrom? (f : Func) (t : TimelineId) (pred : NodeId) : Option IncomingId :=
  (f.timelineAt t).incoming.find? fun n => (f.incomingAt n).pred = pred

/-- The timeline of `v` in `b`, if it decides the value that leaves `b`. -/
def explicit? (f : Func) (b : NodeId) (v : VarId) : Option TimelineId :=
  (f.timelineId? b v).filter fun t => (f.timelineAt t).explicit

/-- The timeline of `v` in `b`, if it has incoming nodes. -/
def joined? (f : Func) (b : NodeId) (v : VarId) : Option TimelineId :=
  (f.timelineId? b v).filter fun t => !(f.timelineAt t).incoming.isEmpty

/-- The last of some definitions before a position. -/
def lastBefore (f : Func) (locals : List Local) (position : Nat) : Option InstId :=
  (locals.takeWhile fun l => f.indexOf l.inst < position).getLast?.map Local.inst

/-- The definition that holds a use in its timeline; none if the use waits for
what flows in. -/
def observed? (f : Func) (u : UseSite) : Option InstId :=
  ((f.inst u.inst).block.bind fun b => f.timeline? b (f.useVariable u)).bind fun t =>
    (t.locals.find? fun l => l.uses.contains u).map Local.inst

def latestDef? (f : Func) (b : NodeId) (v : VarId) : Option InstId :=
  (f.timeline? b v).bind fun t => t.locals.getLast?.map Local.inst

def latestDefBefore? (f : Func) (b : NodeId) (position : Nat) (v : VarId) : Option InstId :=
  (f.timeline? b v).bind fun t => f.lastBefore t.locals position

/-- Every use of a variable, block by block. -/
def uses (f : Func) (v : VarId) : List UseSite :=
  f.blocks.flatMap fun b =>
    match f.timeline? b v with
    | some t => t.waiting ++ t.locals.flatMap Local.uses
    | none => []

end Func
end DefFlow.Flow
