import DefFlow.Flow.Propagation

/-!
# Flattening

Structures that have become trivial are dissolved: a sequence inside a sequence
gives its elements to the outer one, a sequence with a single element becomes
that element, and a fork with at most one case becomes a sequence. The order of
the blocks and the edges between them stay the same. A root that nothing holds
keeps its own shape.
-/

set_option autoImplicit false

namespace DefFlow.Flow

namespace Component

/-- A sequence without its shell, if it is held and has a single element. -/
def collapse (held : Bool) (id : NodeId) (elements : List Component) : Component :=
  match held, elements with
  | true, [c] => c
  | _, elements => .seq id elements

mutual
/-- Flattens a component. New sequences are numbered from `next` on; the first
free number is returned. -/
def flatten (held : Bool) (next : NodeId) : Component → Component × NodeId
  | .block id => (.block id, next)
  | .seq id elements =>
    let (elements, next) := flattenAll next elements
    (collapse held id (elements.flatMap spliced), next)
  | .fork id cond cases =>
    let (cases, next) := flattenAll next cases
    match held, cases with
    | true, [] => (.block cond, next)
    | true, [c] => (collapse true next (.block cond :: c.spliced), next + 1)
    | _, cases => (.fork id cond cases, next)
  | .loop id start cond body update after =>
    let (start, next) := start.flatten true next
    let (body, next) := body.flatten true next
    let (update, next) := update.flatten true next
    (.loop id start cond body update after, next)

def flattenAll (next : NodeId) : List Component → List Component × NodeId
  | [] => ([], next)
  | c :: cs =>
    let (c, next) := c.flatten true next
    let (cs, next) := flattenAll next cs
    (c :: cs, next)
end

end Component

namespace Edit

/-- Removes the incoming nodes of a timeline whose edge is gone. Returns their
number, and whether the timeline no longer decides its value. -/
def pruneTimeline (t : TimelineId) : Edit (Nat × Bool) := do
  let f ← get
  let x := f.timelineAt t
  let preds := f.preds x.block
  let stale := x.incoming.filter fun n => !preds.contains (f.incomingAt n).pred
  stale.forM removeIncoming
  return (stale.length, !((← get).timelineAt t).explicit)

/-- Removes every incoming node whose edge is gone, and counts them. Nodes bound
to a timeline that lost its last way to decide its value are bound anew. -/
def pruneIncoming : Edit Nat := do
  unfrozen .pruneIncoming
  let f ← get
  let joined := f.timelines.live.filter fun t => !(f.timelineAt t).incoming.isEmpty
  let results ← joined.mapM fun t => do return (t, ← pruneTimeline t)
  for (t, _, emptied) in results do
    if emptied then retarget t
  return results.foldl (fun n r => n + r.2.1) 0

/-- Uses up the numbers of new structures below `next`. -/
def registerUpTo (next : NodeId) : Edit Unit := do
  for _ in List.range (next - (← get).nodes.next) do
    let _ ← register

/-- Flattens a component in its place and returns what stands there then. The
number of the function itself stands for its body. -/
def flatten (c : NodeId) : Edit NodeId := do
  unfrozen .flatten
  let f ← get
  let target := if c = Func.rootId then f.body.id else c
  match f.find? target with
  | none =>
    let _ ← pruneIncoming
    return c
  | some old =>
    let (new, next) := old.flatten (f.hasParent target) f.nodes.next
    registerUpTo next
    -- Every change of a structure drops or adds a number.
    if new.ids ≠ old.ids then
      changeAt target fun _ => new
      touch
    let _ ← pruneIncoming
    return if c = Func.rootId then c else new.id

end Edit
end DefFlow.Flow
