import DefFlow.Flow.Join

/-!
# Propagation

When a timeline starts to decide the value that leaves its block, the incoming
nodes downstream that were bound to the value before are bound anew. The walk
follows the successors and stops at blocks that define or join the variable
themselves. Behind a join that was never built, the value of an edge is resolved
when a node needs it.
-/

set_option autoImplicit false

namespace DefFlow.Flow

/-- The predecessors whose nodes a propagation may bind in the first block it
reaches. They can be taken once. -/
structure IncomingCache where
  blocks : List NodeId
  deriving Repr, DecidableEq

namespace IncomingCache

def ofBlocks (blocks : List NodeId) : IncomingCache := ⟨blocks.eraseDups⟩

def take (c : IncomingCache) : List NodeId × IncomingCache := (c.blocks, ⟨[]⟩)

def isEmpty (c : IncomingCache) : Bool := c.blocks.isEmpty

end IncomingCache

structure PropagationStep where
  block : NodeId
  source : NodeId
  value : Option TimelineId
  /-- Whether `value` is what arrives along the edge; else it is resolved. -/
  known : Bool
  cache : IncomingCache

namespace Func

/-- There are no more edges than pairs of components. -/
def edgeBound (f : Func) : Nat := f.nodes.size * f.nodes.size

/-- The incoming nodes of `v` in `b`. -/
def joinNodes (f : Func) (b : NodeId) (v : VarId) : List IncomingId :=
  match f.timeline? b v with
  | some t => t.incoming
  | none => []

end Func

namespace Edit

/-- The timeline whose value leaves `b`, if there is one. -/
def valueLeaving (b : NodeId) (v : VarId) : Edit (Option TimelineId) := do
  match (← get).explicit? b v with
  | some t => return some t
  | none => return (← resolveAt b v).timeline?

/-- What a propagation knows besides the graph: the last incoming node made before it,
and which timeline's value leaves a block. -/
structure Outlook where
  mark : IncomingId
  leaving : NodeId → VarId → Edit (Option TimelineId)

/-- Binds the nodes of a join that lie on admitted edges, and counts those that
were bound otherwise. An empty list admits every edge. -/
def rebindNodes (o : Outlook) (v : VarId) (admitted : List NodeId) (step : PropagationStep)
    (nodes : List IncomingId) : Edit Nat :=
  nodes.foldlM (fun (count : Nat) n => do
    let pred := ((← get).incomingAt n).pred
    if !admitted.isEmpty && !admitted.contains pred then return count
    let target ← if step.known then pure step.value else o.leaving pred v
    if ← rebind n target then return count + 1 else return count) 0

/-- What a propagation carries on behind a block, unless it stops there. `mark`
is the number of the last incoming node made before the propagation. -/
def carriedOn (v : VarId) (mark : IncomingId) (step : PropagationStep) :
    Edit (Option (Option TimelineId × Bool)) := do
  let f ← get
  match f.timelineId? step.block v with
  | none =>
    if 1 < (f.preds step.block).length then return some (none, false)
    return some (step.value, step.known)
  | some t =>
    let x := f.timelineAt t
    if !x.incoming.isEmpty then
      if !x.locals.isEmpty || x.incoming.head?.getD 0 ≤ mark then return none
      return some (some t, true)
    else if !x.locals.isEmpty then return none
    else if 1 < (f.preds step.block).length then return some (none, false)
    else return some (step.value, step.known)

/-- Works off the steps of a propagation. Every edge is taken once, so the
number of steps is bounded. -/
def spread (o : Outlook) (v : VarId) :
    Nat → List PropagationStep → List (NodeId × NodeId) → Nat → Edit Nat
  | 0, _, _, count => return count
  | _, [], _, count => return count
  | n+1, step :: queue, visited, count => do
    let nodes := (← get).joinNodes step.block v
    let count := count + (← rebindNodes o v step.cache.take.1 step nodes)
    match ← carriedOn v o.mark step with
    | none => spread o v n queue visited count
    | some (value, known) =>
      let b := step.block
      let fresh := ((← get).succs b).filter fun s => !visited.contains (b, s)
      let steps := fresh.map fun s => ⟨s, b, value, known, .ofBlocks [b]⟩
      spread o v n (queue ++ steps) (visited ++ fresh.map fun s => (b, s)) count

/-- Announces that `t` decides the value that leaves its block, and counts the
nodes bound anew. Without a cache the first block, like every later one, binds
the nodes of the edge that leads to it. -/
def announce (o : Outlook) (t : TimelineId) (cache : Option IncomingCache) : Edit Nat := do
  let f ← get
  let x := f.timelineAt t
  if !f.hasParent x.block then return 0
  let b := x.block
  let succs := f.succs b
  let steps : List PropagationStep := succs.zipIdx.map fun (s, i) =>
    ⟨s, b, some t, true, if i = 0 then cache.getD (.ofBlocks [b]) else .ofBlocks [b]⟩
  spread o x.var (f.edgeBound + 1) steps (succs.map fun s => (b, s)) 0

/-- Binds the nodes downstream of a timeline of this function. -/
def propagate (t : TimelineId) (cache : Option IncomingCache) : Edit Nat := do
  unfrozen .propagate
  announce ⟨(← get).incoming.size, valueLeaving⟩ t cache

/-- The outlook of a function on the blocks of another one: it knows its own incoming
nodes only, and resolves nothing there. -/
def Outlook.foreign (asking : Func) : Outlook where
  mark := asking.incoming.size
  leaving b v := do
    match (← get).explicit? b v with
    | some t => return some t
    | none => refuse .resolve (.foreignQuery asking.name)

/-- Binds the nodes downstream of a timeline of this function on behalf of another. -/
def propagateFor (asking : Func) (t : TimelineId) (cache : Option IncomingCache) : Edit Nat :=
  announce (.foreign asking) t cache

/-- Binds the nodes that refer to `t` anew, after `t` stopped deciding the value
that leaves its block. -/
def retarget (t : TimelineId) : Edit Unit := do
  let x := (← get).timelineAt t
  if x.referrers.isEmpty || x.explicit then return
  let target := (← resolveAt x.block x.var).timeline?
  if target = some t then return
  for n in ((← get).timelineAt t).referrers do
    let _ ← rebind n target

end Edit
end DefFlow.Flow
