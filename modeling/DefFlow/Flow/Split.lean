import DefFlow.Flow.Instructions

/-!
# Splitting a block

The instructions from a position on move to a new block that takes over the
successors, together with the definitions and uses they make. The condition of a
loop cannot be split.
-/

set_option autoImplicit false

namespace DefFlow.Flow.Edit

/-- Puts the second half of a split block into the tree, by the place of the
first half. -/
def placeSecondHalf (b b2 : NodeId) : Edit Unit := do
  match (← get).parent? b with
  | none => pure ()
  | some (s, .element i) => insertElement s (i + 1) (← refTo b2)
  | some (fork, .condition) =>
    replaceCondition fork (← refTo b2)
    insertBefore fork (← refTo b)
  | some (loop, .after) => insertAfter loop (← refTo b2)
  | some _ =>
    let seq ← newSequence []
    replaceInParent b (← refTo seq)
    appendElement seq (← refTo b)
    appendElement seq (← refTo b2)

/-- Moves what a timeline holds behind the cut into `b2`, and returns the new
timeline if it defines the variable. -/
def splitTimeline (t : TimelineId) (b2 : NodeId) : Edit (Option TimelineId) := do
  let f ← get
  let x := f.timelineAt t
  let behind (i : InstId) : Bool := (f.inst i).block = some b2
  let moved := x.locals.filter fun l => behind l.inst
  let kept := x.locals.filter fun l => !behind l.inst
  let late := (x.waiting ++ kept.flatMap Local.uses).filter fun u => behind u.inst
  if moved.isEmpty && late.isEmpty then return none
  let t2 ← timelineFor b2 x.var
  changeTimeline t fun x => { x with
    waiting := x.waiting.filter fun u => !behind u.inst
    locals := kept.map fun l => { l with uses := l.uses.filter fun u => !behind u.inst } }
  changeTimeline t2 fun x => { x with
    locals := moved
    waiting := late.foldl (fun us u => f.insertSite u us) x.waiting }
  bump
  return if moved.isEmpty then none else some t2

/-- Makes the nodes of the successors that came from `b` come from `b2`. -/
def moveEdges (b b2 : NodeId) : Edit Unit := do
  let f ← get
  let succs := f.succs b2
  for n in f.incoming.live do
    let x := f.incomingAt n
    if x.pred = b && succs.contains (f.timelineAt x.owner).block then
      modify fun f => { f with incoming := f.incoming.modify n fun x => { x with pred := b2 } }

/-- Cuts a block before a position and returns the new block. -/
def split (b : ComponentRef) (position : Int) : Edit NodeId := do
  unfrozen .split
  let f ← get
  require (b.owner = f.handle) .split (.foreignBlock b.label)
  let x := f.blockAt b.id
  require (x.phiCount ≤ position && position ≤ x.instructions.length) .split
    (.splitPosition b.label position)
  require ((f.parent? b.id).all fun p => p.2 ≠ .loopCondition) .split
    (.splitLoopCondition b.label)
  let b2 ← newBlock b.label
  changeBlock b2 fun y => { y with instructions := x.instructions.drop position.toNat }
  changeBlock b.id fun y => { y with instructions := x.instructions.take position.toNat }
  reindex b2
  placeSecondHalf b.id b2
  let moved ← x.timelines.filterMapM fun e => splitTimeline e.2 b2
  moveEdges b.id b2
  touch
  for t in moved do
    let _ ← propagate t (some (.ofBlocks [b2]))
  return b2

end DefFlow.Flow.Edit
