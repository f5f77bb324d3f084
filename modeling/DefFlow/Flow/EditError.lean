import DefFlow.Flow.Component
import DefFlow.Opcode
import DefFlow.Text.Quoted

/-!
# Refused edits

An operation on a function refuses a call that would break the structure of the
function. A refusal names the operation that made it and the reason.
-/

set_option autoImplicit false

namespace DefFlow.Flow

inductive Operation where
  | setBody
  | newBlock
  | newSequence
  | newFork
  | newLoop
  | addVariable
  | adopt
  | release
  | placementOf
  | insertElement
  | removeElement
  | addCase
  | removeCase
  | member
  | replaceMember
  | appendInst
  | prependInst
  | insertInstBefore
  | removeInst
  | createPhi
  | appendLocal
  | appendIncoming
  | rebind
  | propagate
  | resolve
  | reachingDef
  | split
  | replaceInParent
  | flatten
  | pruneIncoming
  | freeze
  | defineUndefined
  deriving DecidableEq, Repr

def Operation.name : Operation → String
  | .setBody => "Function.SetBody"
  | .newBlock => "Function.NewBlock"
  | .newSequence => "Function.NewSequence"
  | .newFork => "Function.NewFork"
  | .newLoop => "Function.NewLoop"
  | .addVariable => "Function.AddVariable"
  | .adopt => "adopt"
  | .release => "release"
  | .placementOf => "PlacementOf"
  | .insertElement => "Sequence.Insert"
  | .removeElement => "Sequence.Remove"
  | .addCase => "Fork.EmplaceCase"
  | .removeCase => "Fork.RemoveCase"
  | .member => "Loop.Member"
  | .replaceMember => "Loop.replaceMember"
  | .appendInst => "Block.AppendInstruction"
  | .prependInst => "Block.PrependInstruction"
  | .insertInstBefore => "Block.EmplaceInstructionBefore"
  | .removeInst => "Block.RemoveInstruction"
  | .createPhi => "Block.CreatePhi"
  | .appendLocal => "DefTimeline.EmplaceBack"
  | .appendIncoming => "DefTimeline.AppendIncoming"
  | .rebind => "IncomingNode.Rebind"
  | .propagate => "Propagate"
  | .resolve => "Resolve"
  | .reachingDef => "Function.ReachingDef"
  | .split => "Function.Split"
  | .replaceInParent => "replaceInParent"
  | .flatten => "Function.Flatten"
  | .pruneIncoming => "Function.PruneIncoming"
  | .freeze => "Function.Freeze"
  | .defineUndefined => "Function.DefineUndefined"

inductive Refusal where
  | frozen (function : String)
  | alreadyDeclared (name : String)
  | foreignComponent (id : NodeId)
  | ownedFunction
  | alreadyOwned (kind : Kind) (id : NodeId)
  | ownsItself (kind : Kind) (id : NodeId)
  | stillAttached (id : NodeId)
  | notElement (kind : Kind) (id : NodeId)
  | notCase (kind : Kind) (id : NodeId)
  | notMember (kind : Kind) (id : NodeId)
  | insertIndex (position : Int) (size : Nat)
  | outOfRange (position : Int)
  | notLoopRole (role : Role)
  | notBlock (role : Role)
  | notInBlock (label : String)
  | amongPhis
  | notInsertable (op : Opcode)
  | operandCount (op : Opcode) (arity count : Nat)
  | definesNothing (op : Opcode)
  | needsDestination (op : Opcode)
  | afterTerminator (label : String) (op : Opcode)
  | foreignVariable (name : String)
  | untyped (name : String)
  | foreignOperand (slot : Nat) (function : String)
  | detachedBlock (label : String)
  | secondPhi (label name : String)
  | otherVariable (name : String)
  | localOrder
  | foreignPredecessor
  | bindMismatch (owner target : String)
  | foreignQuery (function : String)
  | cyclic (name : String)
  | unresolvedPath (value join : String)
  | detachedUse (use : String)
  | foreignBlock (label : String)
  | splitPosition (label : String) (position : Int)
  | splitLoopCondition (label : String)
  | detachedComponent (kind : Kind) (id : NodeId)
  | violations (count : Nat) (first : String)
  deriving DecidableEq, Repr

def Refusal.message : Refusal → String
  | .frozen function => s!"function {function} is frozen"
  | .alreadyDeclared name => s!"variable {Text.quote name} already declared"
  | .foreignComponent id => s!"component {id} belongs to another function"
  | .ownedFunction => "a function cannot be owned"
  | .alreadyOwned kind id => s!"{kind.text} {id} already has a parent"
  | .ownsItself kind id => s!"{kind.text} {id} cannot own itself"
  | .stillAttached id => s!"component {id} is still attached"
  | .notElement kind id => s!"{kind.text} {id} is not an element of its parent"
  | .notCase kind id => s!"{kind.text} {id} is not a case of its parent"
  | .notMember kind id => s!"{kind.text} {id} is not a member of its parent"
  | .insertIndex i size => s!"index {i} out of range [0,{size}]"
  | .outOfRange i => s!"index {i} out of range"
  | .notLoopRole role => s!"{role.text} is not a loop role"
  | .notBlock role => s!"{role.text} must be a block"
  | .notInBlock label => s!"instruction is not in {label}"
  | .amongPhis => "cannot insert into the phi region"
  | .notInsertable op => s!"cannot insert {op.name} instructions"
  | .operandCount op arity count => s!"{op.name} takes {arity} operands, got {count}"
  | .definesNothing op => s!"{op.name} does not define a value"
  | .needsDestination op => s!"{op.name} needs a destination"
  | .afterTerminator label op => s!"{label} already ends with {op.name}"
  | .foreignVariable name => s!"%{name} belongs to another function"
  | .untyped name => s!"%{name} has no type"
  | .foreignOperand slot function => s!"operand {slot} is not a variable of {function}"
  | .detachedBlock label => s!"block {label} is detached"
  | .secondPhi label name => s!"{label} already has a phi for %{name}"
  | .otherVariable name => s!"instruction does not define %{name}"
  | .localOrder => "def precedes the last local def"
  | .foreignPredecessor => "predecessor belongs to another function"
  | .bindMismatch owner target => s!"cannot bind {owner} to {target}"
  | .foreignQuery function => s!"block and variable must belong to {function}"
  | .cyclic name => s!"cyclic resolution of %{name}"
  | .unresolvedPath value join => s!"unresolved path {value} into {join}"
  | .detachedUse use => s!"{use} is detached"
  | .foreignBlock label => s!"block {label} belongs to another function"
  | .splitPosition label i => s!"cannot split {label} at {i}"
  | .splitLoopCondition label => s!"cannot split loop condition {label}"
  | .detachedComponent kind id => s!"{kind.text} {id} is detached"
  | .violations count first => s!"{count} violations, first: {first}"

structure EditError where
  operation : Operation
  refusal : Refusal
  deriving DecidableEq, Repr

def EditError.message (e : EditError) : String :=
  "ir: " ++ e.operation.name ++ ": " ++ e.refusal.message

end DefFlow.Flow
