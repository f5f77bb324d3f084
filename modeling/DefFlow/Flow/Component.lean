/-!
# Control flow as a tree

A component is a block or a structure of components: a sequence, a fork from a
condition block into cases, or a loop. No edges are stored. Where control comes
from and where it goes follows from the place of a component in the structures
around it, and an empty structure is passed through.

The queries on a part of a tree hand down what the surroundings contribute: the
blocks that control comes from, and the blocks that it goes to.
-/

set_option autoImplicit false

namespace DefFlow.Flow

abbrev NodeId := Nat

inductive Component where
  | block (id : NodeId)
  | seq (id : NodeId) (elements : List Component)
  | fork (id : NodeId) (cond : NodeId) (cases : List Component)
  | loop (id : NodeId) (start : Component) (cond : NodeId) (body update : Component)
      (after : NodeId)
  deriving Repr, Inhabited

inductive Kind where
  | block
  | seq
  | fork
  | loop
  | function
  deriving DecidableEq, Repr, Inhabited

def Kind.text : Kind → String
  | .block => "block"
  | .seq => "seq"
  | .fork => "fork"
  | .loop => "loop"
  | .function => "func"

/-- The place of a component in its parent. -/
inductive Role where
  | none
  | element (index : Nat)
  | condition
  | case (index : Nat)
  | start
  | loopCondition
  | body
  | update
  | after
  | functionBody
  deriving DecidableEq, Repr

namespace Role

def text : Role → String
  | .none => "none"
  | .element _ => "element"
  | .condition => "condition"
  | .case _ => "case"
  | .start => "start"
  | .loopCondition => "loop condition"
  | .body => "body"
  | .update => "update"
  | .after => "after"
  | .functionBody => "function body"

def index : Role → Nat
  | .element i => i
  | .case i => i
  | _ => 0

def all : List Role :=
  [.none, .element 0, .condition, .case 0, .start, .loopCondition, .body, .update, .after,
    .functionBody]

end Role

namespace Component

def id : Component → NodeId
  | .block id => id
  | .seq id _ => id
  | .fork id _ _ => id
  | .loop id _ _ _ _ _ => id

def kind : Component → Kind
  | .block _ => .block
  | .seq _ _ => .seq
  | .fork _ _ _ => .fork
  | .loop _ _ _ _ _ _ => .loop

/-- The direct parts of a component, in the order of control. -/
def children : Component → List Component
  | .block _ => []
  | .seq _ elements => elements
  | .fork _ cond cases => .block cond :: cases
  | .loop _ start cond body update after => [start, .block cond, body, update, .block after]

/-- The elements of a sequence; any other component is its own only element. -/
def spliced : Component → List Component
  | .seq _ elements => elements
  | c => [c]

mutual
/-- Every component of the tree, the tree itself first. -/
def ids : Component → List NodeId
  | .block id => [id]
  | .seq id elements => id :: idsAll elements
  | .fork id cond cases => id :: cond :: idsAll cases
  | .loop id start cond body update after =>
    id :: start.ids ++ cond :: body.ids ++ update.ids ++ [after]

def idsAll : List Component → List NodeId
  | [] => []
  | c :: cs => c.ids ++ idsAll cs
end

def contains (c : Component) (target : NodeId) : Bool := c.ids.contains target

mutual
/-- The blocks of the tree, in the order of control. -/
def blocks : Component → List NodeId
  | .block id => [id]
  | .seq _ elements => blocksAll elements
  | .fork _ cond cases => cond :: blocksAll cases
  | .loop _ start cond body update after =>
    start.blocks ++ cond :: body.blocks ++ update.blocks ++ [after]

def blocksAll : List Component → List NodeId
  | [] => []
  | c :: cs => c.blocks ++ blocksAll cs
end

mutual
/-- The block that control reaches first, if there is any block. -/
def entry : Component → Option NodeId
  | .block id => some id
  | .seq _ elements => entryAll elements
  | .fork _ cond _ => some cond
  | .loop _ start cond _ _ _ => some (start.entry.getD cond)

def entryAll : List Component → Option NodeId
  | [] => none
  | c :: cs => c.entry.or (entryAll cs)
end

/-- What `blocks` is if it is not empty, and else `otherwise`. -/
def orElse (blocks otherwise : List NodeId) : List NodeId :=
  if blocks.isEmpty then otherwise else blocks

mutual
/-- The blocks through which control leaves the component. -/
def leaves : Component → List NodeId
  | .block id => [id]
  | .seq _ elements => leavesLast elements
  | .fork _ cond cases => (leavesCases cond cases).eraseDups
  | .loop _ _ _ _ _ after => [after]

/-- The leaves of the last element that has any. -/
def leavesLast : List Component → List NodeId
  | [] => []
  | c :: cs => orElse (leavesLast cs) c.leaves

/-- The leaves of the cases, one after another. Control passes from the
condition through an empty case, and through a fork without cases. -/
def leavesCases (cond : NodeId) : List Component → List NodeId
  | [] => [cond]
  | [c] => orElse c.leaves [cond]
  | c :: cs => orElse c.leaves [cond] ++ leavesCases cond cs
end

/-- The blocks that control comes from behind `c`, if it comes from `preds`
before. -/
def exits (c : Component) (preds : List NodeId) : List NodeId := orElse c.leaves preds

/-- The blocks that control goes to at the start of `c`, if it goes to `succs`
behind. -/
def enter (c : Component) (succs : List NodeId) : List NodeId :=
  match c.entry with
  | some b => [b]
  | none => succs

def enterAll (cs : List Component) (succs : List NodeId) : List NodeId :=
  match entryAll cs with
  | some b => [b]
  | none => succs

mutual
/-- The predecessors of `target`, for a tree with predecessors `preds`. -/
def predsIn (target : NodeId) (preds : List NodeId) : Component → Option (List NodeId)
  | .block id => if id = target then some preds else none
  | .seq id elements =>
    if id = target then some preds else predsElements target preds elements
  | .fork id cond cases =>
    if id = target || cond = target then some preds else predsCases target [cond] cases
  | .loop id start cond body update after =>
    if id = target then some preds
    else if cond = target then
      some (start.exits preds ++ update.exits (body.exits [cond])).eraseDups
    else if after = target then some [cond]
    else (start.predsIn target preds).or <| (body.predsIn target [cond]).or <|
      update.predsIn target (body.exits [cond])

def predsElements (target : NodeId) (preds : List NodeId) :
    List Component → Option (List NodeId)
  | [] => none
  | c :: cs => (c.predsIn target preds).or (predsElements target (c.exits preds) cs)

def predsCases (target : NodeId) (preds : List NodeId) : List Component → Option (List NodeId)
  | [] => none
  | c :: cs => (c.predsIn target preds).or (predsCases target preds cs)
end

mutual
/-- The successors of `target`, for a tree with successors `succs`. -/
def succsIn (target : NodeId) (succs : List NodeId) : Component → Option (List NodeId)
  | .block id => if id = target then some succs else none
  | .seq id elements =>
    if id = target then some succs else succsElements target succs elements
  | .fork id cond cases =>
    if id = target then some succs
    else if cond = target then
      some (if cases.isEmpty then succs else (cases.flatMap (enter · succs)).eraseDups)
    else succsCases target succs cases
  | .loop id start cond body update after =>
    if id = target || after = target then some succs
    else if cond = target then
      some (body.enter (update.enter [cond]) ++ [after]).eraseDups
    else (start.succsIn target [cond]).or <| (body.succsIn target (update.enter [cond])).or <|
      update.succsIn target [cond]

def succsElements (target : NodeId) (succs : List NodeId) :
    List Component → Option (List NodeId)
  | [] => none
  | c :: cs => (c.succsIn target (enterAll cs succs)).or (succsElements target succs cs)

def succsCases (target : NodeId) (succs : List NodeId) : List Component → Option (List NodeId)
  | [] => none
  | c :: cs => (c.succsIn target succs).or (succsCases target succs cs)
end

mutual
/-- The structures around `target` with the places that lead to it, from the
inside out. -/
def pathIn (target : NodeId) : Component → Option (List (NodeId × Role))
  | .block id => if id = target then some [] else none
  | .seq id elements =>
    if id = target then some [] else pathElements target id 0 elements
  | .fork id cond cases =>
    if id = target then some []
    else if cond = target then some [(id, .condition)]
    else pathCases target id 0 cases
  | .loop id start cond body update after =>
    if id = target then some []
    else if cond = target then some [(id, .loopCondition)]
    else if after = target then some [(id, .after)]
    else ((start.pathIn target).map (· ++ [(id, .start)])).or <|
      ((body.pathIn target).map (· ++ [(id, .body)])).or <|
      (update.pathIn target).map (· ++ [(id, .update)])

def pathElements (target parent : NodeId) (index : Nat) :
    List Component → Option (List (NodeId × Role))
  | [] => none
  | c :: cs => ((c.pathIn target).map (· ++ [(parent, .element index)])).or
      (pathElements target parent (index + 1) cs)

def pathCases (target parent : NodeId) (index : Nat) :
    List Component → Option (List (NodeId × Role))
  | [] => none
  | c :: cs => ((c.pathIn target).map (· ++ [(parent, .case index)])).or
      (pathCases target parent (index + 1) cs)
end

mutual
def find? (target : NodeId) : Component → Option Component
  | .block id => if id = target then some (.block id) else none
  | .seq id elements =>
    if id = target then some (.seq id elements) else findAll? target elements
  | .fork id cond cases =>
    if id = target then some (.fork id cond cases)
    else if cond = target then some (.block cond)
    else findAll? target cases
  | .loop id start cond body update after =>
    if id = target then some (.loop id start cond body update after)
    else if cond = target then some (.block cond)
    else if after = target then some (.block after)
    else (start.find? target).or <| (body.find? target).or <| update.find? target

def findAll? (target : NodeId) : List Component → Option Component
  | [] => none
  | c :: cs => (c.find? target).or (findAll? target cs)
end

mutual
/-- Changes the component `target` in its place. The blocks of a structure are
named by the structure and cannot be changed alone. -/
def modify (target : NodeId) (change : Component → Component) : Component → Component
  | .block id => if id = target then change (.block id) else .block id
  | .seq id elements =>
    if id = target then change (.seq id elements)
    else .seq id (modifyAll target change elements)
  | .fork id cond cases =>
    if id = target then change (.fork id cond cases)
    else .fork id cond (modifyAll target change cases)
  | .loop id start cond body update after =>
    if id = target then change (.loop id start cond body update after)
    else .loop id (start.modify target change) cond (body.modify target change)
      (update.modify target change) after

def modifyAll (target : NodeId) (change : Component → Component) :
    List Component → List Component
  | [] => []
  | c :: cs => c.modify target change :: modifyAll target change cs
end

end Component
end DefFlow.Flow
