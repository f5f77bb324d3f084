import DefFlow.Flow.Flatten
import DefFlow.Flow.Verify
import DefFlow.Lowering
import DefFlow.Settings.Basic
import DefFlow.Syntax.Grammar
import DefFlow.Version

/-!
# Compiling a file

Parses and lowers a source text, resolves the uses of every function and reports
those that lack a definition on some path. Functions are independent of each
other.
-/

set_option autoImplicit false

namespace DefFlow

open DefFlow.Flow DefFlow.Lowering

structure Compilation where
  file : String
  source : String
  /-- Missing if the text does not parse. -/
  tree : Option Syntax.File
  module : Option Module
  diagnostics : List Diagnostic

namespace Compilation

def hasErrors (c : Compilation) : Bool := Diagnostic.anyError c.diagnostics

end Compilation

namespace Compile

/-- Where a use was written, or else its instruction, or else its function. -/
def useLocation (file : String) (f : Lowered) (u : UseSite) : Location :=
  ((f.operandAt.lookup u).or (f.instAt.lookup u.inst)).getD
    (.ofPosition file f.source.start)

/-- The predecessors through which nothing flows into the join that reaches the
top of a block. -/
def undefinedPaths (f : Func) (b : NodeId) (v : VarId) : Except EditError (List String) := do
  match (← f.probe b v).timeline? with
  | none => return []
  | some t =>
    return ((f.timelineAt t).incoming.filter fun n => (f.incomingAt n).target.isNone).map
      fun n => f.label (f.incomingAt n).pred

def diagnose (file : String) (level : Level) (f : Lowered) :
    Violation → Except EditError (List Diagnostic)
  | .undefinedUse false _ v u =>
    return [.undefinedVariable (f.func.varAt v).name (useLocation file f u)]
  | .undefinedUse true b v u => do
    let paths ← undefinedPaths f.func b v
    return [.possiblyUndefined level (f.func.varAt v).name (useLocation file f u) paths]
  | _ => return []

/-- Flattens and resolves a function as the settings say. -/
def complete (s : Settings) : Edit (List Violation) := do
  if s.flatten then
    let _ ← Edit.flatten Func.rootId
  let _ ← Edit.resolveAll
  let found ← Edit.ask Func.verify
  return found

def build (file : String) (s : Settings) (f : Lowered) :
    Except EditError (Lowered × List Diagnostic) :=
  match (complete s).run f.func with
  | .error e _ => .error e
  | .ok found func => do
    let f := { f with func }
    let ds ← found.mapM (diagnose file (Level.ofSetting s.possiblyUndefined) f)
    if s.freeze && found.isEmpty then
      match Edit.freeze.run func with
      | .error e _ => .error e
      | .ok _ func => return ({ f with func }, ds.flatten)
    else return (f, ds.flatten)

/-- Why a compilation has no result. -/
inductive Failure where
  | refused (e : EditError)
  | cancelled
  deriving DecidableEq, Repr

def Failure.message : Failure → String
  | .refused e => e.message
  | .cancelled => "context canceled"

/-- Builds the functions of a file; a cancelled run builds none. -/
def buildAll (file : String) (s : Settings) (cancelled : Bool) (fs : List Lowered) :
    Except Failure (List (Lowered × List Diagnostic)) :=
  if cancelled && !fs.isEmpty then .error .cancelled
  else (fs.mapM (build file s)).mapError .refused

def versionProblem (v : Location × String) : List Diagnostic :=
  if Version.isSupported v.2 then []
  else [.unsupportedVersion v.2 Version.constraint v.1]

/-- Compiles a source text. A text that does not parse gets one diagnostic. -/
def compile (file source : String) (s : Settings) (cancelled : Bool) :
    Except Failure Compilation :=
  match Syntax.parse source with
  | .error e =>
    .ok ⟨file, source, none, none, [.refusedText e.message (.ofPosition file e.position)]⟩
  | .ok tree => do
    let (m, ds) ← (lower file tree).mapError .refused
    let versions := (m.version.map versionProblem).getD []
    let built ← buildAll file s cancelled m.functions
    let diagnostics := ds ++ versions ++ (built.map Prod.snd).flatten
    return ⟨file, source, some tree, some { m with functions := built.map Prod.fst },
      Diagnostic.sort diagnostics⟩

end Compile
end DefFlow
