import DefFlow.Compile
import DefFlow.Editor.Mark

/-!
# What a name under the cursor means

A use shows the definition that reaches it, a destination the definition that it
makes. Names take up as many columns as they have bytes. To see what reaches a use
may build joins, so the functions come back with the answer.
-/

set_option autoImplicit false

namespace DefFlow.Editor

open DefFlow.Flow DefFlow.Lowering

structure Hover where
  text : String
  range : Range
  deriving DecidableEq, Repr

/-- A written name of a variable. -/
inductive Spot where
  | use (u : UseSite) (v : VarId) (place : Location)
  | dest (d : Def) (place : Location)
  deriving DecidableEq, Repr

namespace Spot

def owner : Spot → VarId
  | .use _ v _ => v
  | .dest d _ => d.var

def place : Spot → Location
  | .use _ _ p => p
  | .dest _ p => p

def ofUse (f : Lowered) (use : UseSite × VarId) : Option Spot :=
  (f.operandAt.lookup use.1).map (.use use.1 use.2)

/-- An argument is no destination of an instruction that the text shows. -/
def ofDest (f : Lowered) (i : InstId) : Option Spot :=
  if (f.func.inst i).op = .arg then none
  else do
    let d ← (f.func.inst i).dest
    let p ← f.instAt.lookup i
    return .dest d p

def ofInst (f : Lowered) (i : InstId) : List Spot :=
  (f.func.usesOf i).filterMap (ofUse f) ++ (ofDest f i).toList

/-- The written names of a function in the order of its blocks. -/
def all (f : Lowered) : List Spot :=
  f.func.blocks.flatMap fun b => (f.func.blockAt b).instructions.flatMap (ofInst f)

def name (f : Lowered) (s : Spot) : String := (f.func.varAt s.owner).name

def covers (f : Lowered) (line column : Nat) (s : Spot) : Bool :=
  s.place.line = line && s.place.column ≤ column &&
    (column : Int) < s.place.column + (s.name f).utf8ByteSize

def range (f : Lowered) (s : Spot) : Range :=
  let line := fromZero s.place.line
  let char := fromZero s.place.column
  ⟨line, char, line, char + UInt32.ofNat (s.name f).utf8ByteSize⟩

def header (f : Lowered) (s : Spot) : String :=
  s.name f ++ ": " ++ (f.func.varAt s.owner).type.text ++ "\n"

end Spot

def describeReaching (f : Lowered) : Reaching → String
  | .undefined => "no definition reaches this use"
  | .defined i =>
    let place := (f.instAt.lookup i).map fun p => s!" at {p.line}:{p.column}"
    "reached by " ++ f.func.destText i ++ place.getD ""
  | .join t =>
    let join := f.func.timelineAt t
    let preds := join.incoming.map fun n => f.func.label (f.func.incomingAt n).pred
    "reached by a join in " ++ f.func.label join.block ++ " from " ++ ", ".intercalate preds

/-- The text about a written name, and the function with the joins built for it. -/
def Spot.describe (f : Lowered) : Spot → Except EditError (String × Lowered)
  | .dest d _ => .ok ("defines " ++ f.func.defText d, f)
  | .use u _ _ =>
    match (Edit.reachingDef u).run f.func with
    | .error e _ => .error e
    | .ok r func =>
      let f := { f with func }
      .ok (describeReaching f r, f)

/-- Looks a place up in the functions of a file; lines and columns count from
one. -/
def hoverIn (line column : Nat) :
    List Lowered → Except EditError (Option Hover × List Lowered)
  | [] => .ok (none, [])
  | f :: rest =>
    match (Spot.all f).find? (Spot.covers f line column) with
    | some s => do
      let (text, g) ← s.describe f
      return (some ⟨s.header f ++ text, s.range f⟩, g :: rest)
    | none => do
      let (found, rest) ← hoverIn line column rest
      return (found, f :: rest)

/-- What an editor shows at a place that it counts from zero. -/
def hoverAt (line char : Nat) (c : Compilation) :
    Except EditError (Option Hover × Compilation) :=
  match c.module with
  | none => .ok (none, c)
  | some m => do
    let (found, functions) ← hoverIn (line + 1) (char + 1) m.functions
    return (found, { c with module := some { m with functions } })

end DefFlow.Editor
