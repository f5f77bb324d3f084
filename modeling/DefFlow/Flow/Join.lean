import DefFlow.Flow.Edit

/-!
# Joins

The incoming nodes of a timeline and the resolutions that build them. Each node
is listed once by its owner and once by the timeline it is bound to. A resolution
builds the joins that its search left over; until the next change the same
question gets the same answer without another search.
-/

set_option autoImplicit false

namespace DefFlow.Flow

/-- The definition that a use observes. -/
inductive Reaching where
  | undefined
  | defined (i : InstId)
  | join (t : TimelineId)
  deriving DecidableEq, Repr

def Func.reachingText (f : Func) : Reaching → String
  | .undefined => "undef"
  | .defined i => f.destText i
  | .join t => "phi(" ++ f.timelineText t ++ ")"

namespace Edit

def changeTimeline (t : TimelineId) (change : Timeline → Timeline) : Edit Unit :=
  modify fun f => { f with timelines := f.timelines.modify t change }

def changeBlock (b : NodeId) (change : Block → Block) : Edit Unit :=
  modify fun f => { f with nodes := f.nodes.modify b change }

/-- Adds an entry for a variable in the order of the variables. -/
def insertEntry (v : VarId) (t : TimelineId) :
    List (VarId × TimelineId) → List (VarId × TimelineId)
  | [] => [(v, t)]
  | e :: es => if v < e.1 then (v, t) :: e :: es else e :: insertEntry v t es

/-- The timeline of `v` in `b`; an empty one if there was none. -/
def timelineFor (b : NodeId) (v : VarId) : Edit TimelineId := do
  let f ← get
  match f.timelineId? b v with
  | some t => return t
  | none =>
    let t := f.timelines.next
    set { f with timelines := f.timelines.push ⟨b, v, [], [], [], []⟩ }
    changeBlock b fun x => { x with timelines := insertEntry v t x.timelines }
    bump
    return t

/-- Takes a node off the list of the timeline it is bound to, and gives it a target. -/
def aim (n : IncomingId) (target : Option TimelineId) : Edit Unit := do
  if let some old := ((← get).incomingAt n).target then
    changeTimeline old fun x => { x with referrers := x.referrers.erase n }
  modify fun f => { f with incoming := f.incoming.modify n fun x => { x with target } }

/-- Lists a node with the timeline it is bound to. -/
def addReferrer (t : TimelineId) (n : IncomingId) : Edit Unit :=
  changeTimeline t fun x => { x with referrers := x.referrers ++ [n] }

/-- Binds a node to a timeline, or to none, and tells whether it was bound
otherwise before. -/
def rebind (n : IncomingId) (target : Option TimelineId) : Edit Bool := do
  let f ← get
  let node := f.incomingAt n
  if let some t := target then
    require ((f.timelineAt t).var = (f.timelineAt node.owner).var) .rebind
      (.bindMismatch (f.timelineText node.owner) (f.timelineText t))
  if node.target = target then return false
  aim n target
  if let some t := target then addReferrer t n
  bump
  return true

/-- Binds a node to the number that a timeline has in another function, where alone the
node can be listed. Variables are told apart by their numbers only. -/
def rebindElsewhere (n : IncomingId) (t : TimelineRef) : Edit Bool := do
  let f ← get
  let node := f.incomingAt n
  require (t.var = (f.timelineAt node.owner).var) .rebind
    (.bindMismatch (f.timelineText node.owner) t.text)
  if node.target = some t.id then return false
  aim n (some t.id)
  bump
  return true

/-- Binds a node to a timeline of any function, or to none. -/
def bindTo (n : IncomingId) (target : Option TimelineRef) : Edit Bool := do
  match target with
  | none => rebind n none
  | some t => if t.owner = (← get).handle then rebind n (some t.id) else rebindElsewhere n t

/-- Links a timeline to a predecessor by a node that is bound as told; a predecessor
that is linked already is bound anew. Tells whether the node was bound otherwise. -/
def linkBound (t : TimelineId) (pred : NodeId) (bound : IncomingId → Edit Bool) :
    Edit (IncomingId × Bool) := do
  match (← get).incomingFrom? t pred with
  | some n => return (n, ← bound n)
  | none =>
    let f ← get
    let n := f.incoming.next
    set { f with incoming := f.incoming.push ⟨t, pred, none⟩ }
    let changed ← bound n
    changeTimeline t fun x => { x with incoming := x.incoming ++ [n] }
    bump
    return (n, changed)

def linkIncoming (t : TimelineId) (pred : NodeId) (target : Option TimelineId) :
    Edit IncomingId := do
  let (n, _) ← linkBound t pred (rebind · target)
  return n

def appendIncoming (t : TimelineId) (pred : ComponentRef) (target : Option TimelineRef) :
    Edit (IncomingId × Bool) := do
  unfrozen .appendIncoming
  require (pred.owner = (← get).handle) .appendIncoming .foreignPredecessor
  linkBound t pred.id (bindTo · target)

def removeIncoming (n : IncomingId) : Edit Unit := do
  let owner := ((← get).incomingAt n).owner
  changeTimeline owner fun x => { x with incoming := x.incoming.erase n }
  let _ ← rebind n none
  modify fun f => { f with incoming := f.incoming.release n }
  bump

/-- The timeline that a path of a remaining join is bound to. -/
def pathTarget (s : Stack) (join : NodeId) (r : Reach) : Edit (Option TimelineId) := do
  match ← ask fun f => s.canon f r with
  | .undefined => return none
  | .timeline t => return some t
  | .join b => return some (← timelineFor b s.var)
  | .pending b =>
    let f ← get
    refuse .resolve (.unresolvedPath ("pending(" ++ f.label b ++ ")") (f.label join))

def buildJoin (s : Stack) (x : Frame) : Edit (List IncomingId) := do
  let t ← timelineFor x.join s.var
  (x.preds.zip x.values).mapM fun (pred, r) => do
    linkIncoming t pred (← pathTarget s x.join r)

/-- Builds the joins that remain after a search. -/
def buildJoins (s : Stack) : Edit Stack := do
  let created ← s.surviving.mapM fun join => buildJoin s (s.frame join)
  return { s with created := created.flatten }

/-- Answers a question from memory, or after a search that is remembered. The joins
that it takes are built, unless it is a probe or the function is frozen. -/
def answer (q : Question) : Edit Stack := do
  ask fun f => f.resolvable q.block
  let f ← get
  match f.memo.lookup q with
  | some s => return s
  | none =>
    let s ← ask fun f => f.solve q.block q.var
    let s ← if q.probe || f.frozen then pure s else buildJoins s
    modify fun f => { f with memo := (q, s) :: f.memo }
    return s

/-- Resolves `v` at the top of `b`. -/
def stackAt (b : NodeId) (v : VarId) : Edit Stack := answer ⟨b, v, false⟩

def resolveAt (b : NodeId) (v : VarId) : Edit Resolution := do
  let s ← stackAt b v
  ask s.resolution

/-- Refuses a question about another function. -/
def ownQuery (b : ComponentRef) (v : Variable) : Edit Unit := do
  let f ← get
  require (b.owner = f.handle && v.owner = f.handle) .resolve (.foreignQuery f.name)

def resolveStack (b : ComponentRef) (v : Variable) : Edit Stack := do
  ownQuery b v
  stackAt b.id v.id

def resolve (b : ComponentRef) (v : Variable) : Edit Resolution := do
  ownQuery b v
  resolveAt b.id v.id

/-- Resolves without building joins, from memory as long as nothing changes. -/
def reprobe (b : ComponentRef) (v : Variable) : Edit Resolution := do
  ownQuery b v
  let s ← answer ⟨b.id, v.id, true⟩
  ask s.resolution

/-- What leaves a timeline that decides its value itself. -/
def leaving (f : Func) (t : TimelineId) : Reaching :=
  match (f.timelineAt t).locals.getLast? with
  | some l => .defined l.inst
  | none => .join t

/-- The definition that a resolution denotes. -/
def reachingOf (f : Func) : Resolution → Reaching
  | .undefined => .undefined
  | .timeline t => leaving f t
  | .top t => .join t
  | .join _ => .undefined

/-- The definition that leaves the block of a timeline. -/
def outgoing (t : TimelineId) : Edit Reaching := do
  let f ← get
  let x := f.timelineAt t
  if x.explicit then return leaving f t
  let r ← resolveAt x.block x.var
  return reachingOf (← get) r

/-- The definition that a use observes. -/
def reachingDef (u : UseSite) : Edit Reaching := do
  let f ← get
  match (f.inst u.inst).block with
  | none => refuse .reachingDef (.detachedUse (f.useText u))
  | some b =>
    match f.observed? u with
    | some i => return .defined i
    | none =>
      let r ← resolveAt b (f.useVariable u)
      return reachingOf (← get) r

/-- The definition of `v` visible just before a position of `b`. -/
def reachingAt (b : ComponentRef) (position : Nat) (v : Variable) : Edit Reaching := do
  match (← get).latestDefBefore? b.id position v.id with
  | some i => return .defined i
  | none =>
    let r ← resolve b v
    return reachingOf (← get) r

/-- What a function says about a place in another function: only a definition that the
block decides by itself. -/
def reachingElsewhere (decided : Option InstId) : Edit Reaching := do
  match decided with
  | some i => return .defined i
  | none => refuse .resolve (.foreignQuery (← get).name)

/-- Resolves every block with uses that wait for what flows in, and counts the
incoming nodes that this made. -/
def resolveAll : Edit Nat := do
  let before := (← get).incoming.size
  for b in (← get).blocks do
    for (v, t) in ((← get).blockAt b).timelines do
      unless ((← get).timelineAt t).waiting.isEmpty do
        let _ ← stackAt b v
  return (← get).incoming.size - before

end Edit
end DefFlow.Flow
