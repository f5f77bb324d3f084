import DefFlow.Flow.Component

/-!
# Remembered leaves

Sequences and forks remember their leaves, each with the age that the trees had when it was asked.
What is remembered counts as long as the trees have not grown older. A structure asks its parts in
the same way, as far as it needs them.
-/

set_option autoImplicit false

namespace DefFlow.Flow

/-- For each structure that has been asked, the age of the trees then and its leaves. -/
abbrev LeafRecords := List (NodeId × (Nat × List NodeId))

namespace LeafRecords

def find? (m : LeafRecords) (age : Nat) (c : NodeId) : Option (List NodeId) :=
  match m.lookup c with
  | some (stamp, leaves) => if stamp = age then some leaves else none
  | none => none

end LeafRecords

namespace Component

/-- The leaves that are remembered of a structure, or else as computed now. -/
def remembering (age : Nat) (c : NodeId) (compute : StateM LeafRecords (List NodeId)) :
    StateM LeafRecords (List NodeId) := do
  match (← get).find? age c with
  | some leaves => return leaves
  | none =>
    let leaves ← compute
    set ((c, (age, leaves)) :: (← get))
    return leaves

mutual
/-- The leaves of a component of trees of some age. -/
def recallLeaves (age : Nat) : Component → StateM LeafRecords (List NodeId)
  | .block id => return [id]
  | .seq id elements => remembering age id (recallLast age elements)
  | .fork id cond cases =>
    remembering age id do return (← recallCases age cond cases).eraseDups
  | .loop _ _ _ _ _ after => return [after]

/-- Asks the elements from behind, up to the first that has leaves. -/
def recallLast (age : Nat) : List Component → StateM LeafRecords (List NodeId)
  | [] => return []
  | c :: cs => do
    let later ← recallLast age cs
    if later.isEmpty then recallLeaves age c else return later

def recallCases (age : Nat) (cond : NodeId) : List Component → StateM LeafRecords (List NodeId)
  | [] => return [cond]
  | [c] => return orElse (← recallLeaves age c) [cond]
  | c :: cs => return orElse (← recallLeaves age c) [cond] ++ (← recallCases age cond cs)
end

end Component
end DefFlow.Flow
