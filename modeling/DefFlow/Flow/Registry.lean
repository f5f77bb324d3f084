import DefFlow.Flow.Func

/-!
# The registry of components

A function keeps every component under its number: the handle of its parent, and the handles of
its own parts. The two are changed apart from each other. A component is adopted before it is
listed among the parts of its parent, and it is orphaned before or after it is taken off the list.
Its place is found by looking for it among the parts of its parent.
-/

set_option autoImplicit false

namespace DefFlow.Flow

structure Members where
  start : NodeId
  cond : NodeId
  body : NodeId
  update : NodeId
  after : NodeId
  deriving DecidableEq, Repr

namespace Members

def listed (m : Members) : List NodeId := [m.start, m.cond, m.body, m.update, m.after]

def get? (m : Members) : Role → Option NodeId
  | .start => some m.start
  | .loopCondition => some m.cond
  | .body => some m.body
  | .update => some m.update
  | .after => some m.after
  | _ => none

def set (m : Members) (c : NodeId) : Role → Members
  | .start => { m with start := c }
  | .loopCondition => { m with cond := c }
  | .body => { m with body := c }
  | .update => { m with update := c }
  | .after => { m with after := c }
  | _ => m

def roleOf? (m : Members) (c : NodeId) : Option Role :=
  if c = m.start then some .start
  else if c = m.cond then some .loopCondition
  else if c = m.body then some .body
  else if c = m.update then some .update
  else if c = m.after then some .after
  else none

end Members

/-- What a component lists. A structure that has just been numbered, or is about to be released,
lacks the parts that it is named by. -/
inductive Listing where
  | block
  | seq (elements : List NodeId)
  | fork (cond : Option NodeId) (cases : List NodeId)
  | loop (members : Option Members)
  | function (body : Option NodeId)
  deriving DecidableEq, Repr, Inhabited

namespace Listing

def kind : Listing → Kind
  | .block => .block
  | .seq _ => .seq
  | .fork _ _ => .fork
  | .loop _ => .loop
  | .function _ => .function

def listed : Listing → List NodeId
  | .block => []
  | .seq elements => elements
  | .fork cond cases => cond.toList ++ cases
  | .loop members => (members.map Members.listed).getD []
  | .function body => body.toList

end Listing

structure Stored where
  parent : Option NodeId
  parts : Listing
  deriving DecidableEq, Repr, Inhabited

structure Registry where
  handle : Nat
  name : String
  nodes : Arena Stored
  frozen : Bool
  deriving Inhabited

/-- Why a surgery stops: it is refused, it needs a part that is not there, or it does not end. -/
inductive Halt where
  | refused (e : EditError)
  | crashed
  | endless
  deriving DecidableEq, Repr

abbrev Surgery (α : Type) := EStateM Halt Registry α

namespace Registry

def new (handle : Nat) (name : String) : Registry where
  handle := handle
  name := name
  nodes := (Arena.empty.push ⟨none, .function (some 2)⟩).push ⟨some Func.rootId, .seq []⟩
  frozen := false

def setParent (s : Registry) (c : NodeId) (p : Option NodeId) : Registry :=
  { s with nodes := s.nodes.modify c fun x => { x with parent := p } }

def setParts (s : Registry) (c : NodeId) (parts : Listing) : Registry :=
  { s with nodes := s.nodes.modify c fun x => { x with parts := parts } }

def parts? (s : Registry) (i : NodeId) : Option Listing := (s.nodes.get? i).map Stored.parts

/-- The name of a component. -/
def refTo (s : Registry) (c : NodeId) : ComponentRef :=
  ⟨s.handle, c, ((s.parts? c).map Listing.kind).getD .function, ""⟩

/-- The way up from a component, which comes first. More steps than there are components would
come back to one of them. -/
def ancestors (s : Registry) : Nat → NodeId → Option (List NodeId)
  | 0, _ => none
  | steps+1, i =>
    match s.nodes.get? i with
    | none => some []
    | some ⟨none, _⟩ => some [i]
    | some ⟨some p, _⟩ => (s.ancestors steps p).map (i :: ·)

/-- The parent of a component, and the role that the component plays in it. -/
def placement (s : Registry) (i : NodeId) : Except EditError (Option (NodeId × Role)) :=
  let kind := ((s.parts? i).map Listing.kind).getD .function
  let placed (p : NodeId) (role : Option Role) (r : Refusal) :=
    match role with
    | some role => .ok (some (p, role))
    | none => .error ⟨.placementOf, r⟩
  match (s.nodes.get? i).bind Stored.parent with
  | none => .ok none
  | some p =>
    match s.parts? p with
    | some (.seq elements) =>
      placed p ((elements.idxOf? i).map Role.element) (.notElement kind i)
    | some (.fork cond cases) =>
      if cond = some i then .ok (some (p, .condition))
      else placed p ((cases.idxOf? i).map Role.case) (.notCase kind i)
    | some (.loop members) =>
      placed p (members.bind fun m => m.roleOf? i) (.notMember kind i)
    | some (.function _) => .ok (some (p, .functionBody))
    | _ => .ok none

end Registry

namespace Surgery

def refuse {α : Type} (op : Operation) (r : Refusal) : Surgery α := throw (.refused ⟨op, r⟩)

def require (p : Bool) (op : Operation) (r : Refusal) : Surgery Unit :=
  if p then pure () else refuse op r

/-- What has to be there. -/
def demand {α : Type} : Option α → Surgery α
  | some a => pure a
  | none => throw .crashed

def unfrozen (op : Operation) : Surgery Unit := do
  let s ← get
  require (!s.frozen) op (.frozen s.name)

/-! ## Parents and lists -/

def register (parts : Listing) : Surgery NodeId := do
  let s ← get
  set { s with nodes := s.nodes.push ⟨none, parts⟩ }
  return s.nodes.next

def setParent (c : NodeId) (p : Option NodeId) : Surgery Unit := modify (·.setParent c p)

def setParts (c : NodeId) (parts : Listing) : Surgery Unit := modify (·.setParts c parts)

def partsOf (c : NodeId) : Surgery Listing := do demand ((← get).parts? c)

def elementsOf (q : NodeId) : Surgery (List NodeId) := do
  match ← partsOf q with
  | .seq elements => return elements
  | _ => throw .crashed

def forkOf (k : NodeId) : Surgery (NodeId × List NodeId) := do
  match ← partsOf k with
  | .fork (some cond) cases => return (cond, cases)
  | _ => throw .crashed

def membersOf (l : NodeId) : Surgery Members := do
  match ← partsOf l with
  | .loop (some m) => return m
  | _ => throw .crashed

def hasParent (c : NodeId) : Surgery Bool := do
  return (((← get).nodes.get? c).bind Stored.parent).isSome

def refTo (c : NodeId) : Surgery ComponentRef := do return (← get).refTo c

def placementOf (c : NodeId) : Surgery (Option (NodeId × Role)) := do
  match (← get).placement c with
  | .ok place => return place
  | .error e => throw (.refused e)

/-- Makes `p` the parent of a component that has none. -/
def adopt (p : NodeId) (c : ComponentRef) : Surgery Unit := do
  let s ← get
  require (c.owner = s.handle) .adopt (.foreignComponent c.id)
  let x ← demand (s.nodes.get? c.id)
  let kind := x.parts.kind
  require (kind ≠ .function) .adopt .ownedFunction
  require x.parent.isNone .adopt (.alreadyOwned kind c.id)
  match s.ancestors (s.nodes.size + 1) p with
  | none => throw .endless
  | some way =>
    require (!way.contains c.id) .adopt (.ownsItself kind c.id)
    setParent c.id (some p)

def orphan (c : NodeId) : Surgery Unit := setParent c none

/-- Drops a component that has no parent. -/
def release (c : NodeId) : Surgery Unit := do
  require (!(← hasParent c)) .release (.stillAttached c)
  modify fun s => { s with nodes := s.nodes.release c }

/-! ## Structures -/

def insert (q : NodeId) (i : Int) (c : ComponentRef) : Surgery Unit := do
  unfrozen .insertElement
  let elements ← elementsOf q
  require (0 ≤ i && i ≤ elements.length) .insertElement (.insertIndex i elements.length)
  adopt q c
  let elements ← elementsOf q
  setParts q (.seq (elements.insertIdx i.toNat c.id))

def append (q : NodeId) (c : ComponentRef) : Surgery Unit := do
  insert q (← elementsOf q).length c

def remove (q : NodeId) (i : Int) : Surgery NodeId := do
  unfrozen .removeElement
  let elements ← elementsOf q
  require (0 ≤ i && i < elements.length) .removeElement (.outOfRange i)
  let c ← demand elements[i.toNat]?
  setParts q (.seq (elements.eraseIdx i.toNat))
  orphan c
  return c

def replace (q : NodeId) (i : Int) (c : ComponentRef) : Surgery NodeId := do
  let old ← remove q i
  insert q i c
  return old

def addCase (k : NodeId) (c : ComponentRef) : Surgery Unit := do
  unfrozen .addCase
  adopt k c
  let (cond, cases) ← forkOf k
  setParts k (.fork (some cond) (cases ++ [c.id]))

def removeCase (k : NodeId) (i : Int) : Surgery NodeId := do
  unfrozen .removeCase
  let (cond, cases) ← forkOf k
  require (0 ≤ i && i < cases.length) .removeCase (.outOfRange i)
  let c ← demand cases[i.toNat]?
  setParts k (.fork (some cond) (cases.eraseIdx i.toNat))
  orphan c
  return c

def replaceCase (k : NodeId) (i : Nat) (c : ComponentRef) : Surgery Unit := do
  let (cond, cases) ← forkOf k
  orphan (← demand cases[i]?)
  adopt k c
  setParts k (.fork (some cond) (cases.set i c.id))

def replaceCondition (k : NodeId) (b : ComponentRef) : Surgery Unit := do
  let (cond, cases) ← forkOf k
  orphan cond
  adopt k b
  setParts k (.fork (some b.id) cases)

def replaceMember (l : NodeId) (role : Role) (c : ComponentRef) : Surgery Unit := do
  let m ← membersOf l
  match m.get? role with
  | none => refuse .member (.notLoopRole role)
  | some old =>
    require ((role ≠ .loopCondition && role ≠ .after) || c.kind = .block) .replaceMember
      (.notBlock role)
    orphan old
    adopt l c
    setParts l (.loop (some (m.set c.id role)))

def bodyOf : Surgery NodeId := do
  match ← partsOf Func.rootId with
  | .function (some body) => return body
  | _ => throw .crashed

def setBody (c : ComponentRef) : Surgery Unit := do
  unfrozen .setBody
  orphan (← bodyOf)
  adopt Func.rootId c
  setParts Func.rootId (.function (some c.id))

def newBlock : Surgery NodeId := do
  unfrozen .newBlock
  register .block

def newSequence (elements : List ComponentRef) : Surgery NodeId := do
  unfrozen .newSequence
  let q ← register (.seq [])
  elements.forM (append q)
  return q

def newFork (cond : Option ComponentRef) (cases : List ComponentRef) : Surgery NodeId := do
  unfrozen .newFork
  let cond ← match cond with
    | some c => pure c
    | none => do refTo (← newBlock)
  let k ← register (.fork none [])
  adopt k cond
  setParts k (.fork (some cond.id) [])
  cases.forM (addCase k)
  return k

def orNewSequence : Option ComponentRef → Surgery ComponentRef
  | some c => pure c
  | none => do refTo (← newSequence [])

def orNewBlock : Option ComponentRef → Surgery ComponentRef
  | some c => pure c
  | none => do refTo (← newBlock)

def newLoop (start cond body update after : Option ComponentRef) : Surgery NodeId := do
  unfrozen .newLoop
  let start ← orNewSequence start
  let cond ← orNewBlock cond
  let body ← orNewSequence body
  let update ← orNewSequence update
  let after ← orNewBlock after
  let l ← register (.loop none)
  adopt l start
  adopt l cond
  adopt l body
  adopt l update
  adopt l after
  setParts l (.loop (some ⟨start.id, cond.id, body.id, update.id, after.id⟩))
  return l

/-! ## Places -/

/-- Puts `c` into the place of `old`, which is left without a parent. -/
def replaceInParent (old : NodeId) (c : ComponentRef) : Surgery Unit := do
  match ← placementOf old with
  | some (q, .element i) => let _ ← replace q i c
  | some (k, .condition) => if c.kind = .block then replaceCondition k c else throw .crashed
  | some (k, .case i) => replaceCase k i c
  | some (_, .functionBody) => setBody c
  | none | some (_, .none) =>
    refuse .replaceInParent (.detachedComponent (← refTo old).kind old)
  | some (l, role) => replaceMember l role c

/-- The sequence that a component has as its parent, and the position there, if it has one. -/
def sequenceAround (c : NodeId) : Surgery (Option (NodeId × Int)) := do
  let s ← get
  match (s.nodes.get? c).bind Stored.parent with
  | none => return none
  | some p =>
    match s.parts? p with
    | some (.seq elements) => return some (p, ((elements.idxOf? c).map Int.ofNat).getD (-1))
    | _ => return none

def insertBefore (target : NodeId) (c : ComponentRef) : Surgery Unit := do
  match ← sequenceAround target with
  | some (q, i) => insert q i c
  | none =>
    let q ← newSequence []
    replaceInParent target (← refTo q)
    append q c
    append q (← refTo target)

def insertAfter (target : NodeId) (c : ComponentRef) : Surgery Unit := do
  match ← sequenceAround target with
  | some (q, i) => insert q (i + 1) c
  | none =>
    let q ← newSequence []
    replaceInParent target (← refTo q)
    append q (← refTo target)
    append q c

/-- Puts the second half of a split block behind the first, which has its place. -/
def placeSecondHalf (b b2 : NodeId) : Option (NodeId × Role) → Surgery Unit
  | none => pure ()
  | some (q, .element i) => do insert q (i + 1) (← refTo b2)
  | some (k, .condition) => do
    replaceCondition k (← refTo b2)
    insertBefore k (← refTo b)
  | some (l, .after) => do insertAfter l (← refTo b2)
  | some _ => do
    let q ← newSequence []
    replaceInParent b (← refTo q)
    append q (← refTo b)
    append q (← refTo b2)

def split (b : ComponentRef) : Surgery NodeId := do
  unfrozen .split
  require (b.owner = (← get).handle) .split (.foreignBlock b.label)
  let place ← placementOf b.id
  require (place.all fun p => p.2 ≠ .loopCondition) .split (.splitLoopCondition b.label)
  let b2 ← newBlock
  placeSecondHalf b.id b2 place
  return b2

/-- Puts a new block in front of the body. -/
def prependBlock : Surgery Unit := do
  unfrozen .defineUndefined
  let entry ← newBlock
  let old ← bodyOf
  match ← partsOf old with
  | .seq _ => insert old 0 (← refTo entry)
  | _ =>
    let q ← newSequence []
    setBody (← refTo q)
    append q (← refTo entry)
    append q (← refTo old)

/-! ## Flattening -/

/-- Moves some components from another structure to position `i` of a sequence on. -/
def moveInto (q : NodeId) (i : Nat) : List NodeId → Surgery Unit
  | [] => pure ()
  | c :: cs => do
    orphan c
    insert q i (← refTo c)
    moveInto q (i + 1) cs

/-- Dissolves the sequences among the elements from position `i` of a sequence on. -/
def spliceFrom (q : NodeId) (i : Nat) : List NodeId → Surgery Unit
  | [] => pure ()
  | c :: cs => do
    match ← partsOf c with
    | .seq inner =>
      let _ ← remove q i
      setParts c (.seq [])
      moveInto q i inner
      release c
      spliceFrom q (i + inner.length) cs
    | _ => spliceFrom q (i + 1) cs

/-- Puts the condition of a fork, and its case if there is one, into the place of the fork. -/
def unfork (k cond : NodeId) (single : Bool) : Surgery NodeId := do
  if single then
    let c ← removeCase k 0
    let q ← newSequence []
    replaceInParent k (← refTo q)
    orphan cond
    append q (← refTo cond)
    append q (← refTo c)
    return q
  else
    orphan cond
    replaceInParent k (← refTo cond)
    return cond

section

variable (again : NodeId → Surgery NodeId)

/-- Flattens the parts of a structure one by one. -/
def flattenEach (parts : Surgery (List NodeId)) (count : Nat) : Surgery Unit :=
  (List.range count).forM fun i => do
    let _ ← again (← demand (← parts)[i]?)

def flattenSequence (q : NodeId) : Surgery NodeId := do
  flattenEach again (elementsOf q) (← elementsOf q).length
  spliceFrom q 0 (← elementsOf q)
  if (← elementsOf q).length = 1 && (← hasParent q) then
    let child ← remove q 0
    replaceInParent q (← refTo child)
    release q
    return child
  return q

def flattenFork (k : NodeId) : Surgery NodeId := do
  flattenEach again (do return (← forkOf k).2) (← forkOf k).2.length
  let (cond, cases) ← forkOf k
  if cases.length > 1 || !(← hasParent k) then return k
  let replacement ← unfork k cond (cases.length = 1)
  setParts k (.fork none [])
  release k
  again replacement

def flattenLoop (l : NodeId) : Surgery NodeId := do
  let _ ← again (← membersOf l).start
  let _ ← again (← membersOf l).body
  let _ ← again (← membersOf l).update
  return l

end

/-- Flattens a component and returns what stands in its place then. -/
def flattenAt : Nat → NodeId → Surgery NodeId
  | 0, _ => throw .endless
  | steps+1, c => do
    match ← partsOf c with
    | .block => return c
    | .seq _ => flattenSequence (flattenAt steps) c
    | .fork _ _ => flattenFork (flattenAt steps) c
    | .loop _ => flattenLoop (flattenAt steps) c
    | .function body =>
      let _ ← flattenAt steps (← demand body)
      return c

def flatten (c : NodeId) : Surgery NodeId := do
  unfrozen .flatten
  flattenAt ((← get).nodes.size + 1) c

end Surgery

/-! ## Walks

A walk is given up when it has taken too many steps, or comes upon a component without a place. -/

namespace Registry

/-- The last of some lists that is not empty, from the back to the front. -/
def firstFilled (walk : NodeId → Option (List NodeId)) : List NodeId → Option (List NodeId)
  | [] => some []
  | c :: cs => do
    let found ← walk c
    if found.isEmpty then firstFilled walk cs else some found

def firstEntry (walk : NodeId → Option (Option NodeId)) : List NodeId → Option (Option NodeId)
  | [] => some none
  | c :: cs => do
    match ← walk c with
    | some b => some (some b)
    | none => firstEntry walk cs

variable (s : Registry)

mutual
def leaves? : Nat → NodeId → Option (List NodeId)
  | 0, _ => none
  | steps+1, c =>
    match s.parts? c with
    | some .block => some [c]
    | some (.seq elements) => firstFilled (leaves? steps) elements.reverse
    | some (.fork (some cond) []) => some [cond]
    | some (.fork (some _) cases) => do
      return (← cases.mapM (exits? steps)).flatten.eraseDups
    | some (.loop (some m)) => some [m.after]
    | some (.function (some body)) => leaves? steps body
    | _ => none

/-- The blocks that control comes from when it falls out of a component. -/
def exits? : Nat → NodeId → Option (List NodeId)
  | 0, _ => none
  | steps+1, c => do
    let leaves ← leaves? steps c
    if leaves.isEmpty then preds? steps c else some leaves

/-- The predecessors of a component, by the way up from it. -/
def preds? : Nat → NodeId → Option (List NodeId)
  | 0, _ => none
  | steps+1, c =>
    match s.placement c with
    | .error _ => none
    | .ok none => some []
    | .ok (some (p, role)) =>
      match role, s.parts? p with
      | .element (i+1), some (.seq elements) => do exits? steps (← elements[i]?)
      | .element 0, _ | .condition, _ | .start, _ => preds? steps p
      | .case _, some (.fork (some cond) _) => some [cond]
      | .loopCondition, some (.loop (some m)) => do
        return ((← exits? steps m.start) ++ (← exits? steps m.update)).eraseDups
      | .body, some (.loop (some m)) => some [m.cond]
      | .after, some (.loop (some m)) => some [m.cond]
      | .update, some (.loop (some m)) => exits? steps m.body
      | .functionBody, _ => some []
      | _, _ => none
end

def entrance? : Nat → NodeId → Option (Option NodeId)
  | 0, _ => none
  | steps+1, c =>
    match s.parts? c with
    | some .block => some (some c)
    | some (.seq elements) => firstEntry (entrance? steps) elements
    | some (.fork (some cond) _) => some (some cond)
    | some (.loop (some m)) => do return some ((← entrance? steps m.start).getD m.cond)
    | some (.function (some body)) => entrance? steps body
    | _ => none

mutual
/-- The blocks that control reaches when it enters a component. -/
def enter? : Nat → NodeId → Option (List NodeId)
  | 0, _ => none
  | steps+1, c => do
    match ← s.entrance? steps c with
    | some b => some [b]
    | none => succs? steps c

/-- The successors of a component, by the way up from it. -/
def succs? : Nat → NodeId → Option (List NodeId)
  | 0, _ => none
  | steps+1, c =>
    match s.placement c with
    | .error _ => none
    | .ok none => some []
    | .ok (some (p, role)) =>
      match role, s.parts? p with
      | .element i, some (.seq elements) => do
        match ← firstEntry (s.entrance? steps) (elements.drop (i + 1)) with
        | some b => some [b]
        | none => succs? steps p
      | .condition, some (.fork _ cases) =>
        if cases.isEmpty then succs? steps p
        else do return (← cases.mapM (enter? steps)).flatten.eraseDups
      | .case _, _ | .after, _ => succs? steps p
      | .start, some (.loop (some m)) => some [m.cond]
      | .update, some (.loop (some m)) => some [m.cond]
      | .loopCondition, some (.loop (some m)) => do
        return ((← enter? steps m.body) ++ [m.after]).eraseDups
      | .body, some (.loop (some m)) => enter? steps m.update
      | .functionBody, _ => some []
      | _, _ => none
end

/-- The blocks of a component in the order of control. -/
def blocks? : Nat → NodeId → Option (List NodeId)
  | 0, _ => none
  | steps+1, c =>
    match s.parts? c with
    | some .block => some [c]
    | some parts => do return (← parts.listed.mapM (blocks? steps)).flatten
    | none => none

end Registry
end DefFlow.Flow
