/-!
# Files

The texts of files by path. A path is followed name by name from the working
directory, or from the top if it starts with a slash: an empty name and `.` stay in
a directory, `..` goes up, and any other name leads to a file or to a directory
that holds one. Nothing lies behind a file, not even the directory itself.
-/

set_option autoImplicit false

namespace DefFlow

inductive FileProblem where
  | missing
  | directory
  | notDirectory
  | nameTooLong
  | invalidPath
  deriving DecidableEq, Repr

/-- What the system says about a path that cannot be read. -/
def FileProblem.message (path : String) : FileProblem → String
  | .missing => "open " ++ path ++ ": no such file or directory"
  | .directory => "read " ++ path ++ ": is a directory"
  | .notDirectory => "open " ++ path ++ ": not a directory"
  | .nameTooLong => "open " ++ path ++ ": file name too long"
  | .invalidPath => "open " ++ path ++ ": invalid argument"

structure Files where
  entries : List (String × String)
  deriving DecidableEq, Repr, Inhabited

namespace Files

/-- The longest name and the longest path, in bytes. -/
def nameLimit : Nat := 255

def pathLimit : Nat := 4095

def isAbsolute (path : String) : Bool := path.startsWith "/"

/-- The names on the way to a file, the last one first. -/
def names (path : String) : List String :=
  ((path.splitOn "/").filter fun c => c ≠ "" && c ≠ ".").reverse

/-- Where a path has led so far. A directory is given by the names on the way to it,
the last one first, and by how far it lies above the working directory. -/
inductive Spot where
  | directory (above : Nat) (names : List String)
  | file (name text : String)
  deriving DecidableEq, Repr

/-- What a name in a directory stands for. -/
def enter (absolute : Bool) (inside : List String) (fs : Files) : Except FileProblem Spot :=
  let there := fs.entries.filter fun e => isAbsolute e.1 = absolute
  match there.find? fun e => names e.1 = inside with
  | some e => .ok (.file e.1 e.2)
  | none =>
    if there.any fun e => inside.isSuffixOf (names e.1) then .ok (.directory 0 inside)
    else .error .missing

/-- Follows one more name of a path. -/
def step (absolute : Bool) (fs : Files) : Spot → String → Except FileProblem Spot
  | .file _ _, _ => .error .notDirectory
  | .directory above inside, name =>
    if name = "" || name = "." then .ok (.directory above inside)
    else if name = ".." then
      match inside with
      | _ :: outside => .ok (.directory above outside)
      | [] => .ok (.directory (if absolute then 0 else above + 1) [])
    else if nameLimit < name.utf8ByteSize then .error .nameTooLong
    else if 0 < above then .error .missing
    else fs.enter absolute (name :: inside)

/-- Follows a path to its end. A file is known by the very path it was given under,
whatever that looks like. -/
def locate (path : String) (fs : Files) : Except FileProblem Spot :=
  if path.contains '\x00' then .error .invalidPath
  else if path.isEmpty then .error .missing
  else if pathLimit < path.utf8ByteSize then .error .nameTooLong
  else
    match fs.entries.find? fun e => e.1 = path with
    | some e => .ok (.file e.1 e.2)
    | none => (path.splitOn "/").foldlM (fs.step (isAbsolute path)) (.directory 0 [])

def read (path : String) (fs : Files) : Except FileProblem String := do
  match ← fs.locate path with
  | .file _ text => return text
  | .directory _ _ => throw .directory

/-- Replaces the text of a file that exists. -/
def write (path text : String) (fs : Files) : Files :=
  match fs.locate path with
  | .ok (.file name _) => ⟨fs.entries.map fun e => if e.1 = name then (name, text) else e⟩
  | _ => fs

/-- The files of `new` whose text differs from that in `old`. -/
def changed (old new : Files) : List (String × String) :=
  new.entries.filter fun e => !old.entries.contains e

/-- The last name of a path. -/
def baseName (path : String) : String :=
  if path.isEmpty then "."
  else (((path.splitOn "/").filter (· ≠ "")).getLast?).getD "/"

end Files
end DefFlow
