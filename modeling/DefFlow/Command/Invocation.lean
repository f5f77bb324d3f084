import DefFlow.Command.Flag
import DefFlow.Text.EditDistance
import DefFlow.Text.LowerCase

/-!
# Invocations

Finds the command that a command line names, reads its flags and checks how many
files it is given. While the command is not known yet, only the flags that all
commands share are known; any other flag counts as one with a value.
-/

set_option autoImplicit false

namespace DefFlow

inductive Command where
  | check
  | print
  | format
  | watch
  deriving DecidableEq, Repr

namespace Command

def name : Command → String
  | .check => "check"
  | .print => "print"
  | .format => "fmt"
  | .watch => "watch"

def all : List Command := [.check, .print, .format, .watch]

def ofName? (s : String) : Option Command := all.find? fun c => c.name = s

def sharedFlags : List Flag := [.config, .verbosity, .noColor, .workers, .flatten]

def ownFlags : Command → List Flag
  | .print => [.function, .resolve]
  | .format => [.write]
  | .check | .watch => []

inductive UsageError where
  | unknownCommand (name : String)
  | flag (e : FlagError)
  | tooFew (received : Nat)
  | notOne (received : Nat)
  deriving DecidableEq, Repr

/-- The commands that one may have meant: those that start with the word or are
close to it. -/
def suggestions (word : String) : List String :=
  let word := Text.lowerCase word
  (all.map name ++ ["completion"]).filter fun n =>
    Text.editDistance word n ≤ 2 || n.startsWith word

def UsageError.message : UsageError → String
  | .unknownCommand word =>
    let meant := match suggestions word with
      | [] => ""
      | names => "\n\nDid you mean this?\n" ++ String.join (names.map fun n => "\t" ++ n ++ "\n")
    "unknown command " ++ Text.quote word ++ " for \"strata\"" ++ meant
  | .flag e => e.message
  | .tooFew received => s!"requires at least 1 arg(s), only received {received}"
  | .notOne received => s!"accepts 1 arg(s), received {received}"

/-- Whether the argument behind this one belongs to it. -/
def takesNext (arg : String) : Bool :=
  match arg.toList with
  | '-' :: '-' :: name =>
    !name.contains '=' &&
      !sharedFlags.any fun f => f.name = String.ofList name && f.kind = .switch
  | ['-', c] =>
    c.toNat < 0x80 && c ≠ '=' &&
      !sharedFlags.any fun f => f.letter? = some c && f.kind = .switch
  | _ => false

def isWord (arg : String) : Bool := !arg.isEmpty && !arg.startsWith "-"

/-- The first argument that is neither a flag nor the value of one. -/
def firstWord? : List String → Option String
  | [] => none
  | [arg] => if isWord arg then some arg else none
  | arg :: next :: rest =>
    if arg = "--" then none
    else if takesNext arg then (if rest.isEmpty then none else firstWord? rest)
    else if isWord arg then some arg
    else firstWord? (next :: rest)

/-- The arguments without the first word. -/
def withoutFirstWord : List String → List String
  | [] => []
  | [arg] => if isWord arg then [] else [arg]
  | arg :: next :: rest =>
    if arg = "--" then arg :: next :: rest
    else if takesNext arg then arg :: next :: withoutFirstWord rest
    else if isWord arg then next :: rest
    else arg :: withoutFirstWord (next :: rest)

/-- A command line that can be followed. -/
inductive Invocation where
  | help
  | run (c : Command) (a : Arguments)
  deriving DecidableEq, Repr

def checkCount (c : Command) (n : Nat) : Except UsageError Unit :=
  match c with
  | .print => if n = 1 then .ok () else .error (.notOne n)
  | .check | .format | .watch => if n = 0 then .error (.tooFew n) else .ok ()

def readFlags (known : List Flag) (args : List String) : Except UsageError Arguments :=
  (readArguments (known ++ [.help]) none args).mapError .flag

/-- Reads a command line. -/
def interpret (args : List String) : Except UsageError Invocation :=
  match firstWord? args with
  | none => do
    let _ ← readFlags sharedFlags args
    return .help
  | some word =>
    match ofName? word with
    | none => if word = "help" then .ok .help else .error (.unknownCommand word)
    | some c => do
      let a ← readFlags (sharedFlags ++ c.ownFlags) (withoutFirstWord args)
      if a.switch? .help = some true then return .help
      checkCount c a.words.length
      return .run c a

end Command
end DefFlow
