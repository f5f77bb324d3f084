import DefFlow.Text.Numeral
import DefFlow.Text.Utf8

/-!
# Flags

The flags of the command line and how they are read. A long flag takes its value
after an equals sign or, unless it is a switch, from the next argument. Short
flags may stand together behind one dash; the first that is no switch takes the
rest as its value. Everything behind a lone double dash is an argument.
-/

set_option autoImplicit false

namespace DefFlow.Command

inductive Flag where
  | config
  | verbosity
  | noColor
  | workers
  | flatten
  | function
  | resolve
  | write
  | help
  deriving DecidableEq, Repr

inductive FlagKind where
  | text
  | number
  | switch
  deriving DecidableEq, Repr

namespace Flag

def name : Flag → String
  | .config => "config"
  | .verbosity => "verbosity"
  | .noColor => "no-color"
  | .workers => "workers"
  | .flatten => "flatten"
  | .function => "function"
  | .resolve => "resolve"
  | .write => "write"
  | .help => "help"

def letter? : Flag → Option Char
  | .config => some 'c'
  | .verbosity => some 'v'
  | .workers => some 'j'
  | .function => some 'f'
  | .write => some 'w'
  | .help => some 'h'
  | .noColor | .flatten | .resolve => none

def kind : Flag → FlagKind
  | .config | .function => .text
  | .verbosity | .workers => .number
  | .noColor | .flatten | .resolve | .write | .help => .switch

/-- How messages name a flag. -/
def text (f : Flag) : String :=
  match f.letter? with
  | some c => String.ofList ['-', c] ++ ", --" ++ f.name
  | none => "--" ++ f.name

end Flag

inductive FlagValue where
  | text (s : String)
  | number (n : Int)
  | switch (b : Bool)
  deriving DecidableEq, Repr

inductive FlagError where
  | badSyntax (arg : String)
  | unknown (name : String)
  | unknownLetter (first : Char) (letters : String)
  | missingValue (name : String)
  | missingLetterValue (letter : Char)
  | notNumber (f : Flag) (value : String) (cause : Text.NumeralError)
  | notSwitch (f : Flag) (value : String)
  deriving DecidableEq, Repr

namespace FlagError

def invalid (f : Flag) (value reader cause : String) : String :=
  "invalid argument " ++ Text.quote value ++ " for " ++ Text.quote f.text ++ " flag: " ++
    reader ++ ": parsing " ++ Text.quote value ++ ": " ++ cause

def message : FlagError → String
  | .badSyntax arg => "bad flag syntax: " ++ arg
  | .unknown name => "unknown flag: --" ++ name
  | .unknownLetter first letters =>
    "unknown shorthand flag: " ++ Text.quoteChar first ++ " in -" ++ letters
  | .missingValue name => "flag needs an argument: --" ++ name
  | .missingLetterValue letter =>
    "flag needs an argument: " ++ Text.quoteChar letter ++ " in -" ++ String.ofList [letter]
  | .notNumber f value cause => invalid f value "strconv.ParseInt" cause.message
  | .notSwitch f value => invalid f value "strconv.ParseBool" "invalid syntax"

end FlagError

def switchWord? : String → Option Bool
  | "1" | "t" | "T" | "true" | "True" | "TRUE" => some true
  | "0" | "f" | "F" | "false" | "False" | "FALSE" => some false
  | _ => none

/-- Reads the value of a flag. -/
def Flag.read (f : Flag) (value : String) : Except FlagError FlagValue :=
  match f.kind with
  | .text => .ok (.text value)
  | .number =>
    match Text.numeral value.toList with
    | .ok n => .ok (.number n)
    | .error e => .error (.notNumber f value e)
  | .switch =>
    match switchWord? value with
    | some b => .ok (.switch b)
    | none => .error (.notSwitch f value)

/-- A command line without its flags, and the flags in their order. -/
structure Arguments where
  flags : List (Flag × FlagValue)
  words : List String
  deriving DecidableEq, Repr

namespace Arguments

def addFlag (f : Flag) (v : FlagValue) (a : Arguments) : Arguments :=
  { a with flags := (f, v) :: a.flags }

def addWord (w : String) (a : Arguments) : Arguments := { a with words := w :: a.words }

/-- The last value that a flag was given. -/
def value? (f : Flag) (a : Arguments) : Option FlagValue := a.flags.reverse.lookup f

def text? (f : Flag) (a : Arguments) : Option String :=
  match a.value? f with
  | some (.text s) => some s
  | _ => none

def number? (f : Flag) (a : Arguments) : Option Int :=
  match a.value? f with
  | some (.number n) => some n
  | _ => none

def switch? (f : Flag) (a : Arguments) : Option Bool :=
  match a.value? f with
  | some (.switch b) => some b
  | _ => none

end Arguments

/-- A flag whose value is the next argument, and what to say if there is none. -/
structure Pending where
  flag : Flag
  complaint : FlagError

/-- The flags of one argument, the last of which may wait for its value. -/
abbrev FlagGroup := List (Flag × FlagValue) × Option Pending

/-- The character whose number is the first byte of a character. -/
def leadCharacter (c : Char) : Char :=
  Char.ofNat (((Text.bytes (String.ofList [c])).head?.map UInt8.toNat).getD 0)

/-- Short flags that stand together. A letter is one byte, and an unknown one is shown
by the first byte of the character which that byte numbers. Letters that begin with
`test.` are meant for whoever runs the program, and are passed over. -/
def readLetters (known : List Flag) : List Char → Except FlagError FlagGroup
  | [] => .ok ([], none)
  | c :: rest =>
    if "test.".toList.isPrefixOf (c :: rest) then .ok ([], none)
    else
      match known.find? fun f => f.letter? = some c with
      | none =>
        .error (.unknownLetter (leadCharacter (leadCharacter c)) (String.ofList (c :: rest)))
      | some f =>
        match rest with
        | '=' :: v :: more => do
          return ([(f, ← f.read (String.ofList (v :: more)))], none)
        | _ =>
          if f.kind = .switch then do
            let (others, pending) ← readLetters known rest
            return ((f, .switch true) :: others, pending)
          else if rest.isEmpty then .ok ([], some ⟨f, .missingLetterValue c⟩)
          else do
            return ([(f, ← f.read (String.ofList rest))], none)

/-- A long flag without its dashes. -/
def readLong (known : List Flag) (cs : List Char) : Except FlagError FlagGroup :=
  let name := String.ofList (cs.takeWhile (· ≠ '='))
  if name.isEmpty || name.startsWith "-" then
    .error (.badSyntax ("--" ++ String.ofList cs))
  else
    match known.find? fun f => f.name = name with
    | none => .error (.unknown name)
    | some f =>
      match cs.dropWhile (· ≠ '=') with
      | _ :: value => do return ([(f, ← f.read (String.ofList value))], none)
      | [] =>
        if f.kind = .switch then .ok ([(f, .switch true)], none)
        else .ok ([], some ⟨f, .missingValue name⟩)

def addGroup (flags : List (Flag × FlagValue)) (a : Arguments) : Arguments :=
  { a with flags := flags ++ a.flags }

def readArguments (known : List Flag) : Option Pending → List String → Except FlagError Arguments
  | none, [] => .ok ⟨[], []⟩
  | some p, [] => .error p.complaint
  | some p, arg :: rest => do
    let v ← p.flag.read arg
    return (← readArguments known none rest).addFlag p.flag v
  | none, arg :: rest =>
    match arg.toList with
    | ['-', '-'] => .ok ⟨[], rest⟩
    | '-' :: '-' :: cs => do
      let (flags, pending) ← readLong known cs
      return addGroup flags (← readArguments known pending rest)
    | '-' :: c :: cs => do
      let (flags, pending) ← readLetters known (c :: cs)
      return addGroup flags (← readArguments known pending rest)
    | _ => do return (← readArguments known none rest).addWord arg

end DefFlow.Command
