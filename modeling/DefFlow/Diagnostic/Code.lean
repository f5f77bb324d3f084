import DefFlow.Diagnostic.Basic
import DefFlow.Text.EditDistance

/-!
# Kinds of diagnostics

The codes, what they stand for, and one constructor for each kind of problem.
The length of a diagnostic about a name is the number of bytes of the name.
-/

set_option autoImplicit false

namespace DefFlow

namespace Code

def undefinedVariable : String := "S0001"
def possiblyUndefined : String := "S0002"
def unknownVariable : String := "S0003"
def duplicateVariable : String := "S0004"
def unknownOpcode : String := "S0005"
def operandCount : String := "S0006"
def unsupportedVersion : String := "S0007"
def unknownType : String := "S0008"
def invalidInstruction : String := "S0009"
def refusedText : String := "S0100"

def description : String → String
  | "S0001" => "Variable is used but never defined on any path"
  | "S0002" => "Variable is used but not defined on every path"
  | "S0003" => "Name is not declared in the function"
  | "S0004" => "Name is declared more than once"
  | "S0005" => "Instruction opcode does not exist"
  | "S0006" => "Instruction has the wrong number of operands"
  | "S0007" => "File format version is not supported"
  | "S0008" => "Type name does not exist"
  | "S0009" => "Instruction cannot be placed here"
  | "S0100" => "Syntax error"
  | _ => "Unknown error code"

def category (code : String) : String :=
  if "S0001" ≤ code && code < "S0100" then "Def/Use"
  else if "S0100" ≤ code && code < "S0200" then "Parser"
  else "Unknown"

end Code

namespace Diagnostic

def ofName (code message name : String) (location : Location) : Diagnostic :=
  { new .error code message location with length := name.utf8ByteSize }

def suggest (d : Diagnostic) (message : String) : Diagnostic :=
  { d with suggestions := d.suggestions ++ [.plain message] }

def remark (d : Diagnostic) (note : String) : Diagnostic :=
  { d with notes := d.notes ++ [note] }

/-- Suggests the names that are close to the one at hand. -/
def suggestSimilar (d : Diagnostic) (name : String) (candidates : List String) : Diagnostic :=
  match Text.similarNames name candidates with
  | [] => d
  | [one] => d.suggest s!"did you mean '{one}'?"
  | similar => d.suggest ("did you mean one of: '" ++ "', '".intercalate similar ++ "'?")

def undefinedVariable (name : String) (l : Location) : Diagnostic :=
  (ofName Code.undefinedVariable s!"variable '{name}' is used but never defined" name l)
    |>.suggest s!"assign '{name}' before this use"
    |>.remark "declaring a variable with 'var' does not give it a value"

/-- `paths` names the blocks through which no definition flows in, if known. -/
def possiblyUndefined (level : Level) (name : String) (l : Location) (paths : List String) :
    Diagnostic :=
  let d := { ofName Code.possiblyUndefined s!"variable '{name}' may be used before it is defined"
    name l with level }
  let d := if paths.isEmpty then d
    else d.remark ("no definition reaches this use through: " ++ ", ".intercalate paths)
  d.suggest s!"assign '{name}' on every path leading here"

def unknownVariable (name : String) (l : Location) (declared : List String) : Diagnostic :=
  let d := (ofName Code.unknownVariable s!"unknown variable '{name}'" name l).suggestSimilar name
    declared
  if d.suggestions.isEmpty then d.suggest s!"declare it with 'var {name}: <type>;'" else d

def duplicateVariable (name : String) (l previous : Location) : Diagnostic :=
  { (ofName Code.duplicateVariable s!"variable '{name}' is declared more than once" name l).remark
      s!"first declared at {previous.line}:{previous.column}" with
    help := "arguments, results and locals share one namespace per function" }

def duplicateFunction (name : String) (l previous : Location) : Diagnostic :=
  (ofName Code.duplicateVariable s!"function '{name}' is defined more than once" name l).remark
    s!"first defined at {previous.line}:{previous.column}"

def unknownOpcode (name : String) (l : Location) (known : List String) : Diagnostic :=
  (ofName Code.unknownOpcode s!"unknown opcode '{name}'" name l).suggestSimilar name known

def operandCount (op : String) (expected actual : Int) (l : Location) : Diagnostic :=
  ofName Code.operandCount s!"'{op}' takes {expected} operands, found {actual}" op l

def unsupportedVersion (version constraint : String) (l : Location) : Diagnostic :=
  (new .error Code.unsupportedVersion s!"unsupported format version '{version}'" l).remark
    s!"supported versions: {constraint}"

def unknownType (name : String) (l : Location) (known : List String) : Diagnostic :=
  ((ofName Code.unknownType s!"unknown type '{name}'" name l).suggestSimilar name known).remark
    ("available types: " ++ ", ".intercalate known)

def invalidInstruction (message : String) (l : Location) : Diagnostic :=
  new .error Code.invalidInstruction message l

def refusedText (message : String) (l : Location) : Diagnostic :=
  new .error Code.refusedText message l

end Diagnostic
end DefFlow
