import DefFlow.Command.Invocation
import DefFlow.Compile
import DefFlow.Diagnostic.Report
import DefFlow.Files
import DefFlow.Flow.Printer
import DefFlow.Settings.Read
import DefFlow.Syntax.Layout

/-!
# Running commands

What a command prints, which files it changes and why it fails. A command that
fails keeps what it has printed and written until then. The time that a check
takes is not known before it is done, so the output has a place for it.
-/

set_option autoImplicit false

namespace DefFlow.Command

/-- A piece of output. -/
inductive Piece where
  | text (s : String)
  | elapsed
  deriving DecidableEq, Repr

/-- Output with the elapsed time filled in. -/
def render (elapsed : String) (ps : List Piece) : String :=
  String.join (ps.map fun
    | .text s => s
    | .elapsed => elapsed)

inductive Failure where
  | usage (e : UsageError)
  | unreadableSettings (path : String) (p : FileProblem)
  | badSettings (path : String) (e : Settings.ReadError)
  | settingsOutOfRange (reason : String)
  | unreadable (path : String) (p : FileProblem)
  | syntactic (path : String) (e : Syntax.SyntaxError)
  | notParsed (path : String)
  | hasErrors (path : String)
  | noFunction (name path : String)
  | filesFailed (failed total : Nat)
  | compilation (cause : Compile.Failure)
  deriving Repr

def Failure.message : Failure → String
  | .usage e => e.message
  | .unreadableSettings path p => "failed to read config: " ++ p.message path
  | .badSettings path e => Files.baseName path ++ ": " ++ e.message
  | .settingsOutOfRange reason => reason
  | .unreadable path p => "failed to read file: " ++ p.message path
  | .syntactic path e =>
    (Location.ofPosition path e.position).text ++ ": " ++ e.message
  | .notParsed path => path ++ " does not parse"
  | .hasErrors path => path ++ " has errors"
  | .noFunction name path => "no function named " ++ Text.quote name ++ " in " ++ path
  | .filesFailed failed total => s!"{failed} of {total} files have errors"
  | .compilation cause => cause.message

structure Console where
  files : Files
  out : List Piece
  err : String
  /-- The settings in force, once they are known. -/
  settings : Option Settings
  /-- Whether colors are wanted. -/
  colors : Bool

abbrev Run (α : Type) := EStateM Failure Console α

def write (s : String) : Run Unit :=
  modify fun c => { c with out := c.out ++ [.text s] }

def writeError (s : String) : Run Unit :=
  modify fun c => { c with err := c.err ++ s }

/-- Writes a status line; the codes of its color enclose the end of the line. -/
def status (style : Style) (ps : List Piece) : Run Unit :=
  modify fun c =>
    let line := ps ++ [.text "\n"]
    let (on, off) := style.codes
    let painted := if c.colors then
        .text ("\x1b[" ++ on ++ "m") :: line ++ [.text ("\x1b[" ++ off ++ "m")]
      else line
    { c with out := c.out ++ painted }

def settings : Run Settings := do return (← get).settings.getD .standard

def readFile (path : String) : Run String := do
  match (← get).files.read path with
  | .ok text => return text
  | .error p => throw (.unreadable path p)

/-! ## Settings -/

def settingsName : String := "strata.yaml"

/-- The path of the settings file, if the command line names one. -/
def settingsPath? (a : Arguments) : Option String :=
  (a.text? .config).filter fun p => !p.isEmpty

/-- The settings of the settings file. Only a file that is named has to exist. -/
def readSettings (fs : Files) (a : Arguments) : Except Failure Settings :=
  let path := (settingsPath? a).getD settingsName
  match fs.read path with
  | .ok text => (Settings.read text).mapError (.badSettings path)
  | .error .missing =>
    if (settingsPath? a).isSome then .error (.unreadableSettings path .missing)
    else .ok .standard
  | .error p => .error (.unreadableSettings path p)

/-- The flags of a command line go over the settings. -/
def applyFlags (a : Arguments) (s : Settings) : Settings :=
  { s with
    verbosity := (a.number? .verbosity).getD s.verbosity
    workers := (a.number? .workers).getD s.workers
    flatten := (a.switch? .flatten).getD s.flatten
    color := s.color && a.switch? .noColor ≠ some true }

def loadSettings (a : Arguments) : Run Unit := do
  match readSettings (← get).files a with
  | .error e => throw e
  | .ok s =>
    let s := applyFlags a s
    if let some reason := s.problem? then throw (.settingsOutOfRange reason)
    modify fun c => { c with settings := some s, colors := c.colors && s.color }

/-! ## Commands -/

def compileFile (path : String) : Run Compilation := do
  let text ← readFile path
  match Compile.compile path text (← settings) false with
  | .ok c => return c
  | .error cause => throw (.compilation cause)

def parseFile (path : String) : Run Syntax.File := do
  match Syntax.parse (← readFile path) with
  | .ok tree => return tree
  | .error e => throw (.syntactic path e)

def reportText (colors : Bool) (c : Compilation) : String :=
  if c.diagnostics.isEmpty then ""
  else (Reporter.new c.file c.source colors).report c.diagnostics

/-- Reports the problems of some files and counts the files with errors. -/
def checkFiles : List String → Run Nat
  | [] => return 0
  | path :: rest => do
    let c ← compileFile path
    write (reportText (← get).colors c)
    let failed ← checkFiles rest
    return if c.hasErrors then failed + 1 else failed

def checkAll (paths : List String) : Run Unit := do
  let failed ← checkFiles paths
  let total := paths.length
  if failed = 0 then
    status .green [.text s!"Successfully checked {total} files in ", .elapsed]
  else
    status .red [.text s!"Check failed for {failed} of {total} files after ", .elapsed]
    throw (.filesFailed failed total)

/-- The functions of a file with their joins built. -/
def resolvedModule (path : String) : Run Lowering.Module := do
  let c ← compileFile path
  writeError (reportText (← get).colors c)
  match c.module with
  | some m => return m
  | none => throw (.notParsed path)

/-- The functions of a file as they are written. -/
def plainModule (path : String) : Run Lowering.Module := do
  let tree ← parseFile path
  match Lowering.lower path tree with
  | .error e => throw (.compilation (.refused e))
  | .ok (m, ds) =>
    if Diagnostic.anyError ds then
      writeError ((Reporter.new path (← readFile path) (← get).colors).report ds)
      throw (.hasErrors path)
    return m

def selectFunctions (name path : String) (m : Lowering.Module) :
    Except Failure (List Lowering.Lowered) :=
  if name.isEmpty then .ok m.functions
  else
    match m.lookup? name with
    | some f => .ok [f]
    | none => .error (.noFunction name path)

def printed (fs : List Lowering.Lowered) : Except Failure String := do
  let texts ← fs.mapM fun f => f.func.print.mapError fun e => .compilation (.refused e)
  return "\n".intercalate texts

def printFile (a : Arguments) (path : String) : Run Unit := do
  if let some b := a.switch? .resolve then
    modify fun c => { c with settings := c.settings.map fun s => { s with resolve := b } }
  let m ← if (← settings).resolve then resolvedModule path else plainModule path
  match selectFunctions ((a.text? .function).getD "") path m >>= printed with
  | .ok text => write text
  | .error e => throw e

/-- Writes each file in its canonical layout, or puts that in its place. -/
def formatFiles (inPlace : Bool) : List String → Run Unit
  | [] => return
  | path :: rest => do
    let tree ← parseFile path
    if inPlace then modify fun c => { c with files := c.files.write path tree.text }
    else write tree.text
    formatFiles inPlace rest

/-- Reports the problems of each file by itself. -/
def watchFiles : List String → Run Unit
  | [] => return
  | path :: rest => do
    let c ← compileFile path
    write (reportText (← get).colors c)
    if c.hasErrors then status .red [.text (path ++ ": check failed")]
    else status .green [.text (path ++ ": ok")]
    watchFiles rest

def usage : String :=
  "usage: strata [flags] check FILE...\n" ++
  "       strata [flags] print [-f NAME] [--resolve=false] FILE\n" ++
  "       strata [flags] fmt [-w] FILE...\n" ++
  "       strata [flags] watch FILE...\n" ++
  "flags: -c FILE, -v N, -j N, --no-color, --flatten\n"

def follow : Invocation → Run Unit
  | .help => write usage
  | .run c a => do
    loadSettings a
    match c, a.words with
    | .check, paths => checkAll paths
    | .print, path :: _ => printFile a path
    | .print, [] => return
    | .format, paths => formatFiles (a.switch? .write = some true) paths
    | .watch, paths => watchFiles paths

def Console.new (files : Files) (colors : Bool) : Console := ⟨files, [], "", none, colors⟩

/-- Runs a command line on some files. -/
def run (args : List String) : Run Unit := do
  match interpret args with
  | .ok i => follow i
  | .error e => throw (.usage e)

/-- The files that a command line reads. -/
def inputs (args : List String) : List String :=
  match interpret args with
  | .ok (.run _ a) => (settingsPath? a).getD settingsName :: a.words
  | _ => []

end DefFlow.Command
