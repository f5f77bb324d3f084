import DefFlow.Flow.Func

/-!
# Resolution

Finds the value of a variable at the top of a block without changing anything.
The search follows single predecessors upward. A block with several predecessors
is a join: each of its paths is searched in turn, and a path that comes back to a
join still under search contributes nothing of its own. A join whose paths agree
stands for their common value. Once every path is known, joins that only merge
themselves with a single other value are dropped as well.
-/

set_option autoImplicit false

namespace DefFlow.Flow

/-- The value of a variable at the top of a block: none, what leaves a timeline,
the join at the top of a timeline's block, or a join that has not been built. -/
inductive Resolution where
  | undefined
  | timeline (t : TimelineId)
  | top (t : TimelineId)
  | join (b : NodeId)
  deriving DecidableEq, Repr

def Resolution.timeline? : Resolution → Option TimelineId
  | .timeline t => some t
  | .top t => some t
  | _ => none

namespace Stack

def start (leaf : NodeId) (v : VarId) : Stack :=
  ⟨leaf, v, [], [], [], [], .undefined, []⟩

/-- What a value is known to stand for, if that is another value. -/
def next? (s : Stack) : Reach → Option Reach
  | .pending b => s.tops.lookup b
  | .join b => s.replaced.lookup b
  | _ => none

def follow (s : Stack) : Nat → Reach → Option Reach
  | 0, _ => none
  | n+1, r =>
    match s.next? r with
    | none => some r
    | some r => s.follow n r

/-- The value that `r` stands for in the end. -/
def canon (f : Func) (s : Stack) (r : Reach) : Except EditError Reach :=
  match s.follow (2 * s.frames.length + 2) r with
  | some r => .ok r
  | none => .error ⟨.resolve, .cyclic (f.varAt s.var).name⟩

/-- Whether a path leads back to the join itself. -/
def isSelf (join : NodeId) (r : Reach) : Bool := r = .pending join || r = .join join

/-- The different values that paths bring to a join. -/
def distinct (f : Func) (s : Stack) (join : NodeId) (values : List Reach) :
    Except EditError (List Reach) := do
  let values ← values.mapM (s.canon f)
  return (values.filter fun r => !isSelf join r).eraseDups

def frame (s : Stack) (join : NodeId) : Frame :=
  (s.frames.find? fun x => x.join = join).getD default

def setFrame (s : Stack) (x : Frame) : Stack :=
  { s with frames := s.frames.map fun y => if y.join = x.join then x else y }

/-- Drops the joins that merge at most one other value, each in its turn. -/
def eliminateOnce (f : Func) (s : Stack) : Except EditError Stack :=
  s.phis.foldlM (fun (s : Stack) join => do
    if (s.replaced.lookup join).isSome then return s
    match ← s.distinct f join (s.frame join).values with
    | [] => return { s with replaced := (join, .undefined) :: s.replaced }
    | [r] => return { s with replaced := (join, r) :: s.replaced }
    | _ => return s) s

/-- Repeats `eliminateOnce` until nothing is dropped; every pass but the last
drops a join. -/
def eliminate (f : Func) : Nat → Stack → Except EditError Stack
  | 0, s => .ok s
  | n+1, s => do
    let s' ← s.eliminateOnce f
    if s'.replaced.length = s.replaced.length then return s' else eliminate f n s'

/-- The joins that remain, in the order in which they were completed. -/
def surviving (s : Stack) : List NodeId :=
  s.phis.filter fun join => (s.replaced.lookup join).isNone

end Stack

/-- Where an upward walk ends: at a known value or at a join to be searched. -/
inductive WalkEnd where
  | known (r : Reach)
  | opens (join : NodeId)

namespace Func

/-- Follows single predecessors upward from the top of a block. A walk that
takes more steps than there are blocks goes round in a circle. -/
def walkUp (f : Func) (v : VarId) (active : List NodeId) (tops : List (NodeId × Reach)) :
    Nat → NodeId → WalkEnd
  | 0, _ => .known .undefined
  | n+1, x =>
    match f.preds x with
    | [] => .known .undefined
    | [p] =>
      match f.explicit? p v with
      | some t => .known (.timeline t)
      | none => f.walkUp v active tops n p
    | _ =>
      if active.contains x then .known (.pending x)
      else match tops.lookup x with
        | some r => .known r
        | none => .opens x

def walk (f : Func) (v : VarId) (active : List NodeId) (tops : List (NodeId × Reach))
    (x : NodeId) : WalkEnd :=
  if (f.joined? x v).isSome then .known (.join x) else f.walkUp v active tops f.nodes.size x

/-- Searches a join within those that are `active` already. Each join is
searched once, so the number of blocks bounds the depth. -/
def searchJoin (f : Func) (v : VarId) :
    Nat → List NodeId → NodeId → Stack → Except EditError (Reach × Stack)
  | 0, _, _, s => .ok (.undefined, s)
  | n+1, active, join, s => do
    let preds := f.preds join
    let s := { s with frames := s.frames ++ [⟨join, preds, [], .undefined⟩] }
    let (values, s) ← preds.foldlM (fun (acc : List Reach × Stack) p => do
      let (values, s) := acc
      match f.explicit? p v with
      | some t => return (values ++ [.timeline t], s)
      | none =>
        match f.walk v (join :: active) s.tops p with
        | .known r => return (values ++ [r], s)
        | .opens inner =>
          let (r, s) ← f.searchJoin v n (join :: active) inner s
          return (values ++ [r], s)) ([], s)
    let (result, s) ← do
      match ← s.distinct f join values with
      | [] => pure (.undefined, s)
      | [r] => pure (r, s)
      | _ => pure (.join join, { s with phis := s.phis ++ [join] })
    let s := { s with tops := (join, result) :: s.tops }
    return (result, s.setFrame ⟨join, preds, values, result⟩)

/-- The whole search for `v` at the top of `leaf`. -/
def solve (f : Func) (leaf : NodeId) (v : VarId) : Except EditError Stack := do
  let s := Stack.start leaf v
  let s ← match f.walk v [] [] leaf with
    | .known r => pure { s with root := r }
    | .opens join =>
      let (_, s) ← f.searchJoin v f.nodes.size [] join s
      pure { s with root := ← s.canon f (.pending join) }
  let s ← s.eliminate f (s.phis.length + 1)
  return { s with root := ← s.canon f s.root }

end Func

namespace Stack

/-- What a value of the search means for the function as it is now. -/
def resolutionOf (f : Func) (s : Stack) (r : Reach) : Except EditError Resolution := do
  match ← s.canon f r with
  | .timeline t => return .timeline t
  | .join b =>
    match f.joined? b s.var with
    | some t => return .top t
    | none => return .join b
  | _ => return .undefined

def resolution (f : Func) (s : Stack) : Except EditError Resolution :=
  s.resolutionOf f s.root

end Stack

namespace Func

/-- The detached check that every resolution starts with. -/
def resolvable (f : Func) (b : NodeId) : Except EditError Unit :=
  if f.hasParent b then .ok () else .error ⟨.resolve, .detachedBlock (f.label b)⟩

def probeStack (f : Func) (b : NodeId) (v : VarId) : Except EditError Stack := do
  f.resolvable b
  f.solve b v

/-- Resolves without building joins. -/
def probe (f : Func) (b : NodeId) (v : VarId) : Except EditError Resolution := do
  (← f.probeStack b v).resolution f

def resolutionText (f : Func) : Resolution → String
  | .undefined => "\x7b\x7d"
  | .timeline t => "\x7b" ++ f.timelineText t ++ "\x7d"
  | .top t => "\x7b" ++ f.timelineText t ++ "\x7d"
  | .join b => "\x7bjoin " ++ f.label b ++ "\x7d"

end Func
end DefFlow.Flow
