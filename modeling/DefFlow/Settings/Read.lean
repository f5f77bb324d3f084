import DefFlow.Settings.Basic
import DefFlow.Yaml.Node

/-!
# Reading settings

Puts the entries of a settings file over the standard settings. Every entry that
names no setting or has a value of the wrong kind is reported with its line, in
the order of the file; a mapping with a repeated key is reported for that alone.
Merged entries come last and change nothing that the mapping itself names.
-/

set_option autoImplicit false

namespace DefFlow.Settings

open Yaml (Document Fault Node Value)

inductive ReadError where
  | malformed (f : Fault)
  | problems (lines : List String)
  | invalid (reason : String)
  deriving DecidableEq, Repr

def ReadError.message : ReadError → String
  | .malformed f => "invalid config: " ++ f.message
  | .problems lines =>
    "invalid config: yaml: unmarshal errors:\n" ++
      "\n".intercalate (lines.map fun l => "  " ++ l)
  | .invalid reason => reason

/-- Settings while they are read, and what is wrong so far. -/
structure Draft where
  settings : Settings
  problems : List String

abbrev Fill (α : Type) := EStateM Fault Draft α

def report (line : Nat) (text : String) : Fill Unit :=
  modify fun d => { d with problems := d.problems ++ [s!"line {line}: " ++ text] }

/-! ## Values of the wrong kind -/

/-- At most seven bytes of a value that is longer than ten; a character that is
cut off shows as one mark for each byte left. -/
def shortened (value : String) : String :=
  if value.utf8ByteSize ≤ 10 then value
  else Text.ofBytes ((Text.bytes value).take 7) ++ "..."

/-- How a value shows behind its tag. What is tagged as a collection shows bare. -/
def shownValue (tag value : String) : String :=
  if tag = "!!seq" || tag = "!!map" then value else " `" ++ shortened value ++ "`"

def mismatch (n : Node) (target : String) : Fill Unit :=
  let (tag, value) := match n with
    | .scalar _ tag value => (tag, value)
    | .list _ tag _ => (tag, "")
    | .mapping _ tag _ => (tag, "")
    | .aliasOf _ _ _ _ => ("", "")
  report n.line ("cannot unmarshal " ++ tag ++ shownValue tag value ++ " into " ++ target)

/-! ## Repeated keys -/

/-- Whether two keys count as the same: scalars with one value, aliases of one anchor,
and any two lists or mappings. -/
def sameKey : Node → Node → Bool
  | .scalar _ _ a, .scalar _ _ b => a = b
  | .aliasOf _ _ a _, .aliasOf _ _ b _ => a = b
  | .list _ _ _, .list _ _ _ => true
  | .mapping _ _ _, .mapping _ _ _ => true
  | _, _ => false

def keyText : Node → String
  | .scalar _ _ value => value
  | .aliasOf _ _ name _ => name
  | _ => ""

/-- The pairs of keys of a mapping that count as the same. -/
def repeatedKeys : List Node → List (Node × Node)
  | [] => []
  | k :: rest => (rest.filter (sameKey k)).map (fun later => (k, later)) ++ repeatedKeys rest

/-- Reports the keys that stand in a mapping more than once, and tells whether there
are any. -/
def reportRepeated (entries : List (Node × Node)) : Fill Bool := do
  let pairs := repeatedKeys (entries.map Prod.fst)
  for (first, later) in pairs do
    report later.line
      s!"mapping key {Text.quote (keyText later)} already defined at line {first.line}"
  return !pairs.isEmpty

/-! ## Single values -/

/-- A document, how deep its merged mappings can go, and the aliases that are being
followed, by their places. -/
structure Context where
  document : Document
  depth : Nat
  followed : List Nat

/-- Passes over an alias to the node that it stands for, unless that holds the alias. -/
def passAlias (c : Context) : Node → Fill (Context × Node)
  | .aliasOf _ place name target => do
    if c.followed.contains place then throw (.general (.ownAnchor name))
    match c.document.anchored.lookup target with
    | some n => return ({ c with followed := place :: c.followed }, n)
    | none => throw (.general (.unknownAnchor name))
  | n => return (c, n)

def scalarValue (tag value : String) : Fill Value :=
  match Value.ofTagged tag value with
  | .ok v => return v
  | .error p => throw (.general p)

/-- Reads a single value; nothing if there is none or it is of the wrong kind. -/
def readSingle {α : Type} (target : String) (read : String → Value → Option α) (c : Context)
    (given : Node) : Fill (Option α) := do
  let (_, n) ← passAlias c given
  match n with
  | .scalar _ tag value =>
    match ← scalarValue tag value with
    | .null => return none
    | v =>
      let a := read value v
      if a.isNone then mismatch n target
      return a
  | .mapping _ _ entries =>
    unless ← reportRepeated entries do mismatch n target
    return none
  | n =>
    mismatch n target
    return none

/-- The integer part of a number, in 64 bits. -/
def truncated (x : Float) : Option Int :=
  if x < 9223372036854775808.0 then some x.toInt64.toInt
  else if x == 9223372036854775808.0 then some (-9223372036854775808)
  else none

def intOf : Value → Option Int
  | .int n => if n < Text.signedLimit then some n else none
  | .float x => truncated x
  | _ => none

def yesWords : List String := ["y", "Y", "yes", "Yes", "YES", "on", "On", "ON"]

def noWords : List String := ["n", "N", "no", "No", "NO", "off", "Off", "OFF"]

def boolOf : Value → Option Bool
  | .bool b => some b
  | .text s =>
    if yesWords.contains s then some true else if noWords.contains s then some false else none
  | _ => none

/-- The text of a value; of a number or a date it is what was written. -/
def textOf (written : String) : Value → String
  | .text s => s
  | _ => written

/-! ## Mappings -/

/-- A setting: its name and how its value changes the settings. -/
structure Field where
  name : String
  apply : Context → Node → Fill Unit

def field {α : Type} (name target : String) (read : String → Value → Option α)
    (put : Settings → α → Settings) : Field where
  name := name
  apply c n := do
    if let some a ← readSingle target read c n then
      modify fun d => { d with settings := put d.settings a }

/-- The name that a key stands for, if it is one. -/
def keyName (c : Context) (key : Node) : Fill (Option String) :=
  readSingle "string" (fun written v => some (textOf written v)) c key

/-- The node itself, or the node that it is an alias of. -/
def meant (d : Document) : Node → Node
  | .aliasOf line place name target =>
    (d.anchored.lookup target).getD (.aliasOf line place name target)
  | n => n

/-- The name of a key that is a text, not a number or a date. -/
def ownName? (d : Document) (key : Node) : Option String :=
  match meant d key with
  | .scalar _ tag value =>
    match Value.ofTagged tag value with
    | .ok (.text s) => some s
    | _ => none
  | _ => none

def requireMapping (d : Document) (n : Node) : Fill Unit :=
  match meant d n with
  | .mapping _ _ _ => return
  | _ => throw (.general .mergedValue)

/-- The names that are settled when entries are merged; none while nothing is. -/
abbrev Settled := Option (List String)

/-- What the entries of a mapping have settled so far: the names known from outside,
the names of its own, and the value of its merge key. -/
structure Progress where
  settled : Settled
  done : List String
  merge : Option Node

/-- Applies one entry of a mapping of settings. -/
def fillEntry (target : String) (fields : List Field) (c : Context) (p : Progress)
    (entry : Node × Node) : Fill Progress := do
  let (key, value) := entry
  if key.isMergeKey then return { p with merge := some value }
  match ← keyName c key with
  | none => return p
  | some name =>
    if p.settled.any (·.contains name) then return p
    let p := { p with settled := p.settled.map (name :: ·) }
    match fields.find? fun f => f.name = name with
    | none =>
      report key.line s!"field {name} not found in type {target}"
      return p
    | some f =>
      if p.done.contains name then
        report key.line s!"field {name} already set in type {target}"
        return p
      f.apply c value
      return { p with done := name :: p.done }

mutual
/-- Fills settings from a node that has to be a mapping. The number bounds how deep
merged mappings go. -/
def fill (target : String) (fields : List Field) :
    Nat → Context → Settled → Node → Fill Settled
  | 0, _, settled, _ => return settled
  | n+1, c, settled, given => do
    let (c, node) ← passAlias c given
    match node with
    | .scalar _ tag value =>
      match ← scalarValue tag value with
      | .null => return settled
      | _ =>
        mismatch node target
        return settled
    | .mapping _ _ entries =>
      if ← reportRepeated entries then return settled
      let p ← entries.foldlM (fillEntry target fields c) ⟨settled, [], none⟩
      match p.merge with
      | none => return p.settled
      | some value =>
        let own := entries.filterMap fun e => ownName? c.document e.1
        let after ← merge target fields n c (p.settled.getD own) value
        return p.settled.map fun _ => after
    | node =>
      mismatch node target
      return settled

/-- Fills settings from the value of a merge key: a mapping, or a list of mappings, of
which the first that names a setting counts. -/
def merge (target : String) (fields : List Field) :
    Nat → Context → List String → Node → Fill (List String)
  | 0, _, names, _ => return names
  | n+1, c, names, value => do
    let mappings := match value with
      | .list _ _ items => items
      | value => [value]
    mappings.foldlM (fun names item => do
      requireMapping c.document item
      return (← fill target fields n c (some names) item).getD names) names
end

/-! ## Settings -/

/-- A part of the settings that is a mapping of its own. -/
def group (name target : String) (fields : List Field) : Field where
  name := name
  apply c n := do
    let _ ← fill target fields c.depth c none n

def number (name : String) (put : Settings → Int → Settings) : Field :=
  field name "int" (fun _ v => intOf v) put

def switch (name : String) (put : Settings → Bool → Settings) : Field :=
  field name "bool" (fun _ v => boolOf v) put

def text (name : String) (put : Settings → String → Settings) : Field :=
  field name "string" (fun written v => some (textOf written v)) put

def printFields : List Field := [switch "resolve" fun s b => { s with resolve := b }]

def diagnosticFields : List Field :=
  [text "possibly_undefined" fun s t => { s with possiblyUndefined := t }]

def fields : List Field := [
  number "verbosity" fun s n => { s with verbosity := n },
  text "log_file" fun s t => { s with logFile := t },
  switch "color" fun s b => { s with color := b },
  number "workers" fun s n => { s with workers := n },
  switch "flatten" fun s b => { s with flatten := b },
  switch "freeze" fun s b => { s with freeze := b },
  group "print" "config.PrintOptions" printFields,
  group "diagnostics" "config.DiagnosticOptions" diagnosticFields]

/-- The settings that a document puts over the standard ones. An alias is followed at
most once on the way to a merged mapping, and between two aliases lie at most as many
mappings as the text has characters. -/
def ofDocument (length : Nat) (d : Document) : Except ReadError Settings :=
  let c : Context := ⟨d, (length + 2) * (length + 2), []⟩
  match (fill "config.Config" fields c.depth c none d.root).run ⟨standard, []⟩ with
  | .error f _ => .error (.malformed f)
  | .ok _ draft =>
    if draft.problems.isEmpty then .ok draft.settings else .error (.problems draft.problems)

/-- Reads settings from the text of a settings file. -/
def read (text : String) : Except ReadError Settings := do
  let document ← (Document.read text).mapError .malformed
  let settings ← match document with
    | none => pure standard
    | some d => ofDocument text.length d
  match settings.problem? with
  | some reason => throw (.invalid reason)
  | none => return settings

end DefFlow.Settings
