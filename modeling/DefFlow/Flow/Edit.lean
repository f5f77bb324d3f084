import DefFlow.Flow.Resolution

/-!
# Edits of a function

An edit reads and changes one function and may refuse. What has been changed
before a refusal stays changed. Every change forgets the resolutions made so far.
-/

set_option autoImplicit false

namespace DefFlow.Flow

abbrev Edit (α : Type) := EStateM EditError Func α

namespace Edit

def refuse {α : Type} (op : Operation) (r : Refusal) : Edit α := throw ⟨op, r⟩

def require (p : Bool) (op : Operation) (r : Refusal) : Edit Unit :=
  if p then pure () else refuse op r

/-- Asks a question that may be refused but changes nothing. -/
def ask {α : Type} (question : Func → Except EditError α) : Edit α := do
  match question (← get) with
  | .ok a => return a
  | .error e => throw e

def unfrozen (op : Operation) : Edit Unit := do
  let f ← get
  require (!f.frozen) op (.frozen f.name)

/-- Records a change that leaves the trees as they are. -/
def bump : Edit Unit := modify fun f => { f with memo := [] }

/-- Records a change of the trees. -/
def touch : Edit Unit := modify fun f => { f with generation := f.generation + 1, memo := [] }

/-! ## Declarations -/

def addVariable (name : String) (type : ValueType) : Edit Variable := do
  unfrozen .addVariable
  let f ← get
  require (f.varNamed? name).isNone .addVariable (.alreadyDeclared name)
  let v : Variable := ⟨f.handle, f.vars.length + 1, name, type, 0⟩
  set { f with vars := f.vars ++ [v] }
  return v

def addArgument (name : String) (type : ValueType) : Edit Variable := do
  let v ← addVariable name type
  modify fun f => { f with args := f.args ++ [v.id] }
  return v

def addReturn (name : String) (type : ValueType) : Edit Variable := do
  let v ← addVariable name type
  modify fun f => { f with returns := f.returns ++ [v.id] }
  return v

/-! ## Trees -/

/-- Refuses a component that cannot be put into the structure `parent`. -/
def adoptable (parent : NodeId) (c : ComponentRef) : Edit Unit := do
  let f ← get
  require (c.owner = f.handle) .adopt (.foreignComponent c.id)
  require (c.kind ≠ .function) .adopt .ownedFunction
  require (f.detached.any fun d => d.id = c.id) .adopt (.alreadyOwned c.kind c.id)
  require (!f.detached.any fun d => d.id = c.id && d.contains parent) .adopt
    (.ownsItself c.kind c.id)

/-- Takes a detached component to be put into the structure `parent`. -/
def adopt (parent : NodeId) (c : ComponentRef) : Edit Component := do
  adoptable parent c
  let f ← get
  let taken := (f.detached.find? fun d => d.id = c.id).getD default
  set { f with detached := f.detached.filter fun d => d.id ≠ c.id }
  touch
  return taken

/-- Sets a component aside that has been taken out of its structure. -/
def orphan (c : Component) : Edit Unit := do
  modify fun f => { f with detached := f.detached ++ [c] }
  touch

/-- Changes one component in whichever tree holds it. -/
def changeAt (target : NodeId) (change : Component → Component) : Edit Unit :=
  modify fun f => { f with
    body := f.body.modify target change
    detached := Component.modifyAll target change f.detached }

def refTo (id : NodeId) : Edit ComponentRef := do
  let f ← get
  let kind := ((f.find? id).map Component.kind).getD .function
  return ⟨f.handle, id, kind, f.label id⟩

def newBlock (label : String) : Edit NodeId := do
  unfrozen .newBlock
  let f ← get
  let id := f.nodes.next
  let stem := if label.isEmpty then "bb" else label
  set { f with
    nodes := f.nodes.push ⟨stem ++ "_" ++ toString f.blockCount, [], 0, []⟩
    blockCount := f.blockCount + 1
    detached := f.detached ++ [Component.block id] }
  return id

/-- Numbers a new structure. -/
def register : Edit NodeId := do
  let f ← get
  set { f with nodes := f.nodes.skip }
  return f.nodes.next

def elementsOf (s : NodeId) : Edit (List Component) := do
  match (← get).find? s with
  | some (.seq _ elements) => return elements
  | _ => return []

def casesOf (s : NodeId) : Edit (List Component) := do
  match (← get).find? s with
  | some (.fork _ _ cases) => return cases
  | _ => return []

def setElements (elements : List Component) : Component → Component
  | .seq id _ => .seq id elements
  | c => c

def setCases (cases : List Component) : Component → Component
  | .fork id cond _ => .fork id cond cases
  | c => c

def setCondition (b : NodeId) : Component → Component
  | .fork id _ cases => .fork id b cases
  | c => c

def insertElement (s : NodeId) (i : Int) (c : ComponentRef) : Edit Unit := do
  unfrozen .insertElement
  let elements ← elementsOf s
  require (0 ≤ i && i ≤ elements.length) .insertElement (.insertIndex i elements.length)
  let taken ← adopt s c
  let elements ← elementsOf s
  changeAt s (setElements (elements.insertIdx i.toNat taken))

def appendElement (s : NodeId) (c : ComponentRef) : Edit Unit := do
  insertElement s (← elementsOf s).length c

def removeElement (s : NodeId) (i : Int) : Edit NodeId := do
  unfrozen .removeElement
  let elements ← elementsOf s
  require (0 ≤ i && i < elements.length) .removeElement (.outOfRange i)
  let c := elements[i.toNat]?.getD default
  changeAt s (setElements (elements.eraseIdx i.toNat))
  orphan c
  return c.id

def replaceElement (s : NodeId) (i : Int) (c : ComponentRef) : Edit NodeId := do
  let old ← removeElement s i
  insertElement s i c
  return old

def addCase (s : NodeId) (c : ComponentRef) : Edit Unit := do
  unfrozen .addCase
  let taken ← adopt s c
  changeAt s (setCases ((← casesOf s) ++ [taken]))

def removeCase (s : NodeId) (i : Int) : Edit NodeId := do
  unfrozen .removeCase
  let cases ← casesOf s
  require (0 ≤ i && i < cases.length) .removeCase (.outOfRange i)
  let c := cases[i.toNat]?.getD default
  changeAt s (setCases (cases.eraseIdx i.toNat))
  orphan c
  return c.id

/-- The part of a loop that plays a role in it. -/
def member (loop : NodeId) (role : Role) : Edit NodeId := do
  match (← get).find? loop, role with
  | some (.loop _ start _ _ _ _), .start => return start.id
  | some (.loop _ _ cond _ _ _), .loopCondition => return cond
  | some (.loop _ _ _ body _ _), .body => return body.id
  | some (.loop _ _ _ _ update _), .update => return update.id
  | some (.loop _ _ _ _ _ after), .after => return after
  | _, _ => refuse .member (.notLoopRole role)

def newSequence (elements : List ComponentRef) : Edit NodeId := do
  unfrozen .newSequence
  let id ← register
  modify fun f => { f with detached := f.detached ++ [.seq id []] }
  elements.forM (appendElement id)
  return id

def newFork (cond : Option ComponentRef) (cases : List ComponentRef) : Edit NodeId := do
  unfrozen .newFork
  let cond ← match cond with
    | some c => pure c
    | none => refTo (← newBlock "cond")
  let id ← register
  let block ← adopt id cond
  modify fun f => { f with detached := f.detached ++ [.fork id block.id []] }
  cases.forM (addCase id)
  return id

def orNewSequence : Option ComponentRef → Edit ComponentRef
  | some c => pure c
  | none => do refTo (← newSequence [])

def orNewBlock (label : String) : Option ComponentRef → Edit ComponentRef
  | some c => pure c
  | none => do refTo (← newBlock label)

def newLoop (start cond body update after : Option ComponentRef) : Edit NodeId := do
  unfrozen .newLoop
  let start ← orNewSequence start
  let cond ← orNewBlock "loop_cond" cond
  let body ← orNewSequence body
  let update ← orNewSequence update
  let after ← orNewBlock "loop_after" after
  let id ← register
  let start ← adopt id start
  let cond ← adopt id cond
  let body ← adopt id body
  let update ← adopt id update
  let after ← adopt id after
  modify fun f => { f with
    detached := f.detached ++ [.loop id start cond.id body update after.id] }
  return id

/-- Makes a detached component the body; the old body is set aside. -/
def setBody (c : ComponentRef) : Edit Unit := do
  unfrozen .setBody
  let f ← get
  set { f with bodyHeld := false }
  touch
  if c.owner = f.handle && c.id = f.body.id then
    modify fun f => { f with bodyHeld := true }
    touch
  else
    let taken ← adopt Func.rootId c
    modify fun f => { f with body := taken, bodyHeld := true, detached := f.detached ++ [f.body] }

/-- Puts a detached component into the place of another, which is set aside. -/
def replaceInParent (old : NodeId) (c : ComponentRef) : Edit Unit := do
  let f ← get
  let was := (f.find? old).getD default
  match f.parent? old with
  | none => refuse .replaceInParent (.detachedComponent was.kind old)
  | some (_, .functionBody) => setBody c
  | some _ =>
    let taken ← adopt old c
    changeAt old fun _ => taken
    orphan was

/-- Gives a fork another condition; the old one is set aside. -/
def replaceCondition (fork : NodeId) (b : ComponentRef) : Edit Unit := do
  match (← get).find? fork with
  | some (.fork _ cond _) =>
    let taken ← adopt fork b
    changeAt fork (setCondition taken.id)
    orphan (.block cond)
  | _ => pure ()

/-- Puts `c` right before the component `target`. -/
def insertBefore (target : NodeId) (c : ComponentRef) : Edit Unit := do
  match (← get).parent? target with
  | some (s, .element i) => insertElement s i c
  | _ =>
    let seq ← newSequence []
    replaceInParent target (← refTo seq)
    appendElement seq c
    appendElement seq (← refTo target)

/-- Puts `c` right after the component `target`. -/
def insertAfter (target : NodeId) (c : ComponentRef) : Edit Unit := do
  match (← get).parent? target with
  | some (s, .element i) => insertElement s (i + 1) c
  | _ =>
    let seq ← newSequence []
    replaceInParent target (← refTo seq)
    appendElement seq (← refTo target)
    appendElement seq c

end Edit
end DefFlow.Flow
