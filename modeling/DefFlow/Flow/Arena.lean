/-!
# Numbered stores

Values are numbered from one in the order they are added. A number is never
given away twice, also after its value has been released.
-/

set_option autoImplicit false

namespace DefFlow.Flow

structure Arena (α : Type) where
  slots : Array (Option α)
  deriving Repr, Inhabited

namespace Arena

variable {α : Type}

def empty : Arena α := ⟨#[]⟩

def size (a : Arena α) : Nat := a.slots.size

def get? (a : Arena α) : Nat → Option α
  | 0 => none
  | n+1 => a.slots[n]?.join

/-- The number that the next value gets. -/
def next (a : Arena α) : Nat := a.slots.size + 1

def push (a : Arena α) (x : α) : Arena α := ⟨a.slots.push (some x)⟩

/-- Uses up a number without a value. -/
def skip (a : Arena α) : Arena α := ⟨a.slots.push none⟩

def set (a : Arena α) : Nat → α → Arena α
  | 0, _ => a
  | n+1, x => ⟨a.slots.setIfInBounds n (some x)⟩

def release (a : Arena α) : Nat → Arena α
  | 0 => a
  | n+1 => ⟨a.slots.setIfInBounds n none⟩

def modify (a : Arena α) (n : Nat) (change : α → α) : Arena α :=
  match a.get? n with
  | some x => a.set n (change x)
  | none => a

/-- The numbers with a value, in ascending order. -/
def live (a : Arena α) : List Nat :=
  (List.range a.slots.size).filterMap fun n =>
    if (a.get? (n + 1)).isSome then some (n + 1) else none

end Arena
end DefFlow.Flow
