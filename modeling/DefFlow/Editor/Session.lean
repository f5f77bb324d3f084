import DefFlow.Editor.Hover
import DefFlow.Editor.SemanticToken
import DefFlow.Editor.Uri
import DefFlow.Files
import DefFlow.Syntax.Layout

/-!
# Editor sessions

A session holds the compilation of every open document by the path of its
address. Whatever asks about a document that was never opened reads it from disk
first. Each compilation leaves the marks of its document for sending.
-/

set_option autoImplicit false

namespace DefFlow.Editor

/-- The marks of a document, to be sent to the editor. -/
structure Publication where
  uri : String
  marks : List Mark
  deriving DecidableEq, Repr

inductive SessionError where
  | address (m : Uri.Malformed)
  | unreadable (path : List UInt8) (p : FileProblem)
  | failed (path : List UInt8) (cause : Compile.Failure)
  deriving DecidableEq, Repr

def SessionError.message : SessionError → String
  | .address m => m.message
  | .unreadable path p =>
    "failed to read file " ++ Text.ofBytes path ++ ": " ++ p.message (Text.ofBytes path)
  | .failed path cause => "failed to compile " ++ Text.ofBytes path ++ ": " ++ cause.message

structure Session where
  settings : Settings
  disk : Files
  documents : List (List UInt8 × Compilation)
  outbox : List Publication

/-- A replacement of a part of a document. -/
structure TextEdit where
  range : Range
  text : String
  deriving DecidableEq, Repr

/-- A change that an editor tells: the whole text or a part of it. -/
inductive Change where
  | whole (text : String)
  | part (text : String)
  deriving DecidableEq, Repr

abbrev Request (α : Type) := EStateM SessionError Session α

namespace Session

def new (settings : Settings) (disk : Files) : Session :=
  ⟨settings, disk, [], []⟩

def put (path : List UInt8) (c : Compilation) : Request Unit :=
  modify fun s =>
    { s with documents := (path, c) :: s.documents.filter fun d => d.1 ≠ path }

def pathOf (uri : String) : Request (List UInt8) :=
  match Uri.path uri with
  | .ok path => return path
  | .error m => throw (.address m)

/-- The last compilation of a document. -/
def result? (uri : String) (s : Session) : Option Compilation :=
  match Uri.path uri with
  | .ok path => s.documents.lookup path
  | .error _ => none

/-- Compiles a document anew. -/
def update (uri text : String) : Request Compilation := do
  let path ← pathOf uri
  match Compile.compile (Text.ofBytes path) text (← get).settings false with
  | .error cause => throw (.failed path cause)
  | .ok c =>
    put path c
    let marks := c.diagnostics.map Mark.ofDiagnostic
    modify fun s => { s with outbox := s.outbox ++ [⟨uri, marks⟩] }
    return c

/-- The text at a path on disk. No file has a path that is not a text. -/
def readDisk (path : List UInt8) (disk : Files) : Except FileProblem String := do
  let text ← disk.read (Text.ofBytes path)
  if Text.bytes (Text.ofBytes path) = path then return text else throw .missing

/-- The compilation of a document, read from disk if it was never opened. -/
def load (uri : String) : Request Compilation := do
  let path ← pathOf uri
  match (← get).documents.lookup path with
  | some c => return c
  | none =>
    match readDisk path (← get).disk with
    | .ok text => update uri text
    | .error p => throw (.unreadable path p)

/-- Takes the marks that wait for sending. -/
def flush (s : Session) : List Publication × Session := (s.outbox, { s with outbox := [] })

def openDocument (uri text : String) : Request Unit := do
  let _ ← update uri text

/-- The last change that holds the whole text counts. -/
def changeDocument (uri : String) (changes : List Change) : Request Unit := do
  let wholes := changes.filterMap fun
    | .whole text => some text
    | .part _ => none
  let _ ← match wholes.getLast? with
    | some text => update uri text
    | none => load uri

def closeDocument (uri : String) : Request Unit := do
  let path ← pathOf uri
  modify fun s => { s with documents := s.documents.filter fun d => d.1 ≠ path }

/-- The encoded tokens; none if the document does not parse. -/
def semanticTokens (uri : String) : Request (List UInt32) := do
  match (← load uri).tree with
  | some tree => return SemanticToken.encode (SemanticToken.collect tree)
  | none => return []

/-- Replaces all lines by the canonical text, unless the document has that text
already or does not parse. -/
def formatting (uri : String) : Request (Option TextEdit) := do
  let c ← load uri
  match c.tree with
  | none => return none
  | some tree =>
    if tree.text = c.source then return none
    else
      let lines := c.source.toList.count '\n'
      return some ⟨⟨0, 0, UInt32.ofNat (lines + 1), 0⟩, tree.text⟩

def hover (uri : String) (line char : Nat) : Request (Option Hover) := do
  let path ← pathOf uri
  match hoverAt line char (← load uri) with
  | .error e => throw (.failed path (.refused e))
  | .ok (found, c) =>
    put path c
    return found

end Session
end DefFlow.Editor
