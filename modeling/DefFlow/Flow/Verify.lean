import DefFlow.Flow.Instructions

/-!
# Verification

Checks the definitions and uses of a function without changing it. Every use has
to be reached by a definition on all paths, and a timeline with incoming nodes
has to have one for each predecessor and no other, each bound to a timeline that
is part of the function and decides a value. A function that passes can be
frozen.
-/

set_option autoImplicit false

namespace DefFlow.Flow

inductive Violation where
  /-- No definition reaches the use, or none on some path. -/
  | undefinedUse (partly : Bool) (block : NodeId) (var : VarId) (use : UseSite)
  /-- The edge of the node is gone, or the timeline it is bound to. -/
  | danglingIncoming (node : IncomingId)
  | missingIncoming (timeline : TimelineId) (pred : NodeId)
  deriving DecidableEq, Repr

namespace Violation

def kindText : Violation → String
  | .undefinedUse false _ _ _ => "undefined use"
  | .undefinedUse true _ _ _ => "possibly undefined use"
  | .danglingIncoming _ => "dangling incoming node"
  | .missingIncoming _ _ => "missing incoming node"

def text (f : Func) (x : Violation) : String :=
  match x with
  | .undefinedUse _ b v u =>
    s!"{x.kindText} of {f.varText v} in {f.label b} at {f.indexOf u.inst}"
  | .danglingIncoming n =>
    s!"{x.kindText} {f.incomingText n} on {f.timelineText (f.incomingAt n).owner}"
  | .missingIncoming t p => s!"{x.kindText} from {f.label p} on {f.timelineText t}"

/-- The variable of an undefined use. -/
def undefinedVar? : Violation → Option VarId
  | .undefinedUse _ _ v _ => some v
  | _ => none

end Violation

/-- What a search for undefined paths has seen. -/
structure Seen where
  timelines : List TimelineId
  joins : List NodeId

namespace Func

mutual
/-- Whether some path behind a value of a search brings no definition. -/
def valueMayBeUndefined (f : Func) (s : Stack) :
    Nat → Reach → Seen → Except EditError (Bool × Seen)
  | 0, _, seen => .ok (false, seen)
  | n+1, r, seen => do
    match ← s.canon f r with
    | .undefined => return (true, seen)
    | .timeline t => f.timelineMayBeUndefined n t seen
    | .pending _ => return (false, seen)
    | .join b =>
      match f.joined? b s.var with
      | some t => f.timelineMayBeUndefined n t seen
      | none =>
        if seen.joins.contains b then return (false, seen)
        let seen := { seen with joins := b :: seen.joins }
        if !s.surviving.contains b then return (false, seen)
        (s.frame b).values.foldlM (fun (acc : Bool × Seen) r => do
          if acc.1 then return acc else f.valueMayBeUndefined s n r acc.2) (false, seen)

/-- Whether some path behind a timeline brings no definition. -/
def timelineMayBeUndefined (f : Func) :
    Nat → TimelineId → Seen → Except EditError (Bool × Seen)
  | 0, _, seen => .ok (false, seen)
  | n+1, t, seen => do
    let x := f.timelineAt t
    if !x.locals.isEmpty || seen.timelines.contains t then return (false, seen)
    let seen := { seen with timelines := t :: seen.timelines }
    if x.incoming.isEmpty then
      let s ← f.probeStack x.block x.var
      let (r, inner) ← f.valueMayBeUndefined s n s.root { seen with joins := [] }
      return (r, { seen with timelines := inner.timelines })
    else
      x.incoming.foldlM (fun (acc : Bool × Seen) m => do
        if acc.1 then return acc
        match (f.incomingAt m).target.filter fun t => (f.timelines.get? t).isSome with
        | none => return (true, acc.2)
        | some t => f.timelineMayBeUndefined n t acc.2) (false, seen)
end

/-- A bound on how deep a search for undefined paths can nest: each step sees a
new timeline, or a new join on the way to the next timeline. -/
def searchDepth (f : Func) : Nat := (f.timelines.size + 2) * (f.nodes.size + 3)

/-- Whether a use at the top of `b` lacks a definition: on all paths, on some, or
on none. -/
def undefinedAt (f : Func) (b : NodeId) (v : VarId) : Except EditError (Option Bool) := do
  let s ← f.probeStack b v
  match ← s.canon f s.root with
  | .undefined => return some false
  | root =>
    let (partly, _) ← f.valueMayBeUndefined s f.searchDepth root ⟨[], []⟩
    return if partly then some true else none

def dangling (f : Func) (preds : List NodeId) (n : IncomingId) : Bool :=
  let x := f.incomingAt n
  !preds.contains x.pred ||
    (x.target.bind f.timelines.get?).any fun t => t.isEmpty || !f.attached t.block

def verifyIncoming (f : Func) (preds : List NodeId) (t : TimelineId) : List Violation :=
  let x := f.timelineAt t
  if x.incoming.isEmpty then []
  else (x.incoming.filter (f.dangling preds)).map .danglingIncoming ++
    (preds.filter fun p => (f.incomingFrom? t p).isNone).map (.missingIncoming t ·)

def verifyTimeline (f : Func) (b : NodeId) (v : VarId) (t : TimelineId) :
    Except EditError (List Violation) := do
  let nodes := f.verifyIncoming (f.preds b) t
  let waiting := (f.timelineAt t).waiting
  if waiting.isEmpty then return nodes
  match ← f.undefinedAt b v with
  | none => return nodes
  | some partly => return nodes ++ waiting.map (.undefinedUse partly b v ·)

/-- Everything that is wrong with the definitions and uses of a function. -/
def verify (f : Func) : Except EditError (List Violation) := do
  let found ← f.blocks.mapM fun b =>
    (f.blockAt b).timelines.mapM fun e => f.verifyTimeline b e.1 e.2
  return found.flatten.flatten

end Func

namespace Edit

/-- Resolves every waiting use and closes the function to edits, unless
something is wrong with it. -/
def freeze : Edit Unit := do
  unfrozen .freeze
  let _ ← resolveAll
  let found ← ask Func.verify
  if let v :: _ := found then
    refuse .freeze (.violations found.length (v.text (← get)))
  modify fun f => { f with frozen := true }

/-- Puts a block in front of the body. -/
def prependBlock (entry : NodeId) : Edit Unit := do
  match (← get).body with
  | .seq s _ => insertElement s 0 (← refTo entry)
  | old =>
    let seq ← newSequence []
    setBody (← refTo seq)
    appendElement seq (← refTo entry)
    appendElement seq (← refTo old.id)

/-- Gives every variable that may be used without a definition one in a new
block at the start of the function, and returns these variables. -/
def defineUndefined : Edit (List Variable) := do
  unfrozen .defineUndefined
  let found ← ask Func.verify
  let f ← get
  let vars := (found.filterMap Violation.undefinedVar?).eraseDups.map f.varAt
  if vars.isEmpty then return []
  let entry ← newBlock "undef"
  prependBlock entry
  let f ← get
  for s in f.succs entry do
    for (_, t) in (f.blockAt s).timelines do
      if !(f.timelineAt t).incoming.isEmpty && (f.incomingFrom? t entry).isNone then
        let _ ← linkIncoming t entry none
  for v in vars do
    let _ ← appendInst entry .undef (some v) []
  return vars

end Edit
end DefFlow.Flow
