import DefFlow.Yaml.Lexer
import DefFlow.Yaml.Value

/-!
# Documents

The nodes of a document: scalars, lists, mappings, and aliases, which stand for a node
that has an anchor. Only the first document of a text is read. An anchor is known from
the start of its node on, so a node may hold an alias of itself; therefore an alias
holds the number of an anchored node, and the document holds these nodes by number.
-/

set_option autoImplicit false

namespace DefFlow.Yaml

/-- A node knows the line it starts on, counted from one, and its tag. An alias knows
the place where it stands. -/
inductive Node where
  | scalar (line : Nat) (tag value : String)
  | list (line : Nat) (tag : String) (items : List Node)
  | mapping (line : Nat) (tag : String) (entries : List (Node × Node))
  | aliasOf (line place : Nat) (name : String) (target : Nat)
  deriving Inhabited, Repr

namespace Node

def line : Node → Nat
  | .scalar line _ _ | .list line _ _ | .mapping line _ _ | .aliasOf line _ _ _ => line

/-- A missing node. -/
def empty (mark : Mark) : Node := .scalar (mark.line + 1) "!!null" ""

/-- A plain scalar with this value holds further entries of its mapping. -/
def mergeKey : String := "<<"

def isMergeKey : Node → Bool
  | .scalar _ tag value => value = mergeKey && tag = "!!merge"
  | _ => false

end Node

/-- The first document of a text. -/
structure Document where
  root : Node
  anchored : List (Nat × Node)
  deriving Inhabited, Repr

/-! ## Tags -/

def standardTags : String := "tag:yaml.org,2002:"

/-- A tag in its short form. -/
def shortTag (tag : String) : String :=
  if tag.startsWith standardTags then "!!" ++ (tag.drop standardTags.length).toString else tag

/-- What the handles stand for if nothing is said about them. -/
def standardHandles : List (String × String) := [("!", "!"), ("!!", standardTags)]

def scalarTag (tag value : String) (plain : Bool) : String :=
  if tag ≠ "" && tag ≠ "!" then shortTag tag
  else if !plain then "!!str"
  else if value = Node.mergeKey then "!!merge"
  else Value.plainTag value

def listTag (tag : String) : String :=
  if tag ≠ "" && tag ≠ "!" then shortTag tag else "!!seq"

def mappingTag (tag : String) : String :=
  if tag ≠ "" && tag ≠ "!" then shortTag tag else "!!map"

/-! ## Reading -/

structure Reader where
  lexer : Lexer
  handles : List (String × String)
  /-- The numbers of the anchors, the last one first. -/
  anchors : List (String × Nat)
  /-- The nodes with anchors that have been read to their end. -/
  anchored : List (Nat × Node)
  deriving Repr

abbrev Read (α : Type) := EStateM Fault Reader α

namespace Read

def lex {α : Type} (x : Lex α) : Read α := do
  let r ← get
  match x.run r.lexer with
  | .ok a lexer =>
    set { r with lexer }
    return a
  | .error e lexer =>
    set { r with lexer }
    throw e

def peek : Read Token := lex Lex.peek

def skip : Read Unit := lex Lex.skip

def failAt {α : Type} (context here : Mark) (p : Problem) : Read α :=
  throw (.inOrder context.line here.line p)

/-- What stands in front of the content of a node. -/
structure Properties where
  start : Mark
  anchor : Option String
  tag : String
  deriving Repr

/-- The tag that a handle and a text stand for. -/
def tagOf (start mark : Mark) (handle text : String) : Read String := do
  if handle.isEmpty then return text
  match (← get).handles.lookup handle with
  | some stands => return stands ++ text
  | none => failAt start mark .unknownHandle

/-- Reads an anchor and a tag, in any order, as far as they are there. -/
def properties : Read Properties := do
  let first ← peek
  let start := first.mark
  match first.kind with
  | .anchor name =>
    skip
    let second ← peek
    match second.kind with
    | .tag handle text =>
      skip
      let _ ← peek
      return ⟨start, some name, ← tagOf start second.mark handle text⟩
    | _ => return ⟨start, some name, ""⟩
  | .tag handle text =>
    skip
    let second ← peek
    match second.kind with
    | .anchor name =>
      skip
      let _ ← peek
      return ⟨start, some name, ← tagOf start start handle text⟩
    | _ => return ⟨start, none, ← tagOf start start handle text⟩
  | _ => return ⟨start, none, ""⟩

/-- Gives an anchor its number. -/
def bind (anchor : Option String) : Read (Option Nat) := do
  match anchor with
  | none => return none
  | some name =>
    let r ← get
    let number := r.anchors.length
    set { r with anchors := (name, number) :: r.anchors }
    return some number

/-- Keeps a node with an anchor. -/
def keep (number : Option Nat) (n : Node) : Read Node := do
  if let some k := number then modify fun r => { r with anchored := (k, n) :: r.anchored }
  return n

def aliasNode (token : Token) (name : String) : Read Node := do
  match (← get).anchors.lookup name with
  | some target => return .aliasOf (token.mark.line + 1) token.mark.index name target
  | none => throw (.general (.unknownAnchor name))

/-- Whether a key or a value of a block mapping is missing before this token. -/
def endsEntry : TokenKind → Bool
  | .key | .value | .blockEnd => true
  | _ => false

mutual
/-- Reads a node. Blocks can stand only inside blocks, and a list in the column of its
mapping only as a value or a key of that. The number bounds the depth. -/
def node : Nat → (inBlock unindented : Bool) → Read Node
  | 0, _, _ => throw (.general .nodeContent)
  | n+1, inBlock, unindented => do
    let first ← peek
    if let .aliasOf name := first.kind then
      skip
      return ← aliasNode first name
    let p ← properties
    let token ← peek
    let line := p.start.line + 1
    match token.kind with
    | .scalar text plain =>
      skip
      keep (← bind p.anchor) (.scalar line (scalarTag p.tag text plain) text)
    | .flowList =>
      let number ← bind p.anchor
      skip
      keep number (.list line (listTag p.tag) (← flowItems n token.mark true))
    | .flowMapping =>
      let number ← bind p.anchor
      skip
      keep number (.mapping line (mappingTag p.tag) (← flowEntries n token.mark true))
    | kind =>
      if unindented && kind = .item then
        let number ← bind p.anchor
        keep number (.list line (listTag p.tag) (← unindentedItems n))
      else if inBlock && kind = .blockList then
        let number ← bind p.anchor
        skip
        keep number (.list line (listTag p.tag) (← blockItems n token.mark))
      else if inBlock && kind = .blockMapping then
        let number ← bind p.anchor
        skip
        keep number (.mapping line (mappingTag p.tag) (← blockEntries n token.mark))
      else if p.anchor.isSome || p.tag ≠ "" then
        keep (← bind p.anchor) (.scalar line (scalarTag p.tag "" true) "")
      else failAt p.start token.mark .nodeContent

/-- Reads the items of a block list. -/
def blockItems : Nat → Mark → Read (List Node)
  | 0, _ => throw (.general .nodeContent)
  | n+1, start => do
    let token ← peek
    match token.kind with
    | .item =>
      skip
      let next ← peek
      let item ← if next.kind = .item || next.kind = .blockEnd then pure (.empty token.mark)
        else node n true false
      return item :: (← blockItems n start)
    | .blockEnd =>
      skip
      return []
    | _ => failAt start token.mark .listItem

/-- Reads the items of a list that stands in the column of its mapping. -/
def unindentedItems : Nat → Read (List Node)
  | 0 => throw (.general .nodeContent)
  | n+1 => do
    let token ← peek
    if token.kind ≠ .item then return []
    skip
    let next ← peek
    let item ← if next.kind = .item || endsEntry next.kind then pure (.empty token.mark)
      else node n true false
    return item :: (← unindentedItems n)

/-- Reads the entries of a block mapping. -/
def blockEntries : Nat → Mark → Read (List (Node × Node))
  | 0, _ => throw (.general .nodeContent)
  | n+1, start => do
    let token ← peek
    match token.kind with
    | .key =>
      skip
      let next ← peek
      let key ← if endsEntry next.kind then pure (.empty token.mark) else node n true true
      let value ← blockValue n
      return (key, value) :: (← blockEntries n start)
    | .blockEnd =>
      skip
      return []
    | _ => failAt start token.mark .mappingKey

/-- Reads the value behind a key of a block mapping. -/
def blockValue : Nat → Read Node
  | 0 => throw (.general .nodeContent)
  | n+1 => do
    let token ← peek
    if token.kind ≠ .value then return .empty token.mark
    skip
    let next ← peek
    if endsEntry next.kind then return .empty token.mark else node n true true

/-- Reads the items of a flow list; between two of them stands a comma. -/
def flowItems : Nat → Mark → (first : Bool) → Read (List Node)
  | 0, _, _ => throw (.general .nodeContent)
  | n+1, start, first => do
    let token ← flowSeparator .flowListEnd start first .flowListEnd
    match token.kind with
    | .flowListEnd =>
      skip
      return []
    | .key =>
      skip
      let entry ← pairInList n
      let item := .mapping (token.mark.line + 1) "!!map" [entry]
      return item :: (← flowItems n start false)
    | _ =>
      let item ← node n false false
      return item :: (← flowItems n start false)

/-- Reads a key and a value that are an item of a flow list. -/
def pairInList : Nat → Read (Node × Node)
  | 0 => throw (.general .nodeContent)
  | n+1 => do
    let token ← peek
    let key ← match token.kind with
      | .value | .comma | .flowListEnd => do
        skip
        pure (.empty token.mark)
      | _ => node n false false
    let token ← peek
    if token.kind ≠ .value then return (key, .empty token.mark)
    skip
    let next ← peek
    match next.kind with
    | .comma | .flowListEnd => return (key, .empty token.mark)
    | _ => return (key, ← node n false false)

/-- Reads the entries of a flow mapping; between two of them stands a comma. -/
def flowEntries : Nat → Mark → (first : Bool) → Read (List (Node × Node))
  | 0, _, _ => throw (.general .nodeContent)
  | n+1, start, first => do
    let token ← flowSeparator .flowMappingEnd start first .flowMappingEnd
    match token.kind with
    | .flowMappingEnd =>
      skip
      return []
    | .key =>
      skip
      let next ← peek
      let key ← match next.kind with
        | .value | .comma | .flowMappingEnd => pure (.empty next.mark)
        | _ => node n false false
      let value ← flowValue n
      return (key, value) :: (← flowEntries n start false)
    | _ =>
      let key ← node n false false
      let next ← peek
      return (key, .empty next.mark) :: (← flowEntries n start false)

/-- Reads the value behind a key of a flow mapping. -/
def flowValue : Nat → Read Node
  | 0 => throw (.general .nodeContent)
  | n+1 => do
    let token ← peek
    if token.kind ≠ .value then return .empty token.mark
    skip
    let next ← peek
    match next.kind with
    | .comma | .flowMappingEnd => return .empty next.mark
    | _ => node n false false

/-- Passes over the comma between two members of a flow collection, and gives the token
behind it. The end of the collection needs no comma, and may have one. -/
def flowSeparator (stop : TokenKind) (start : Mark) (first : Bool) (p : Problem) :
    Read Token := do
  let token ← peek
  if token.kind = stop || first then return token
  if token.kind ≠ .comma then failAt start token.mark p
  skip
  peek
end

/-! ## Documents -/

/-- Adds a directive to what is known of the handles. -/
def directive (version : Bool) (mark : Mark) : Directive → Read Bool
  | .version major minor => do
    if version then failAt default mark .repeatedVersion
    if major ≠ 1 || minor ≠ 1 then failAt default mark .otherVersion
    return true
  | .handle name stands => do
    let r ← get
    if (r.handles.lookup name).isSome then failAt default mark .repeatedHandle
    set { r with handles := r.handles ++ [(name, stands)] }
    return version

/-- Reads the directives in front of a document; `version` tells that its version is
known. -/
def directives : Nat → (version : Bool) → Read Unit
  | 0, _ => return
  | n+1, version => do
    let token ← peek
    match token.kind with
    | .directive d =>
      let version ← directive version token.mark d
      skip
      directives n version
    | _ =>
      modify fun r =>
        let more := standardHandles.filter fun h => (r.handles.lookup h.1).isNone
        { r with handles := r.handles ++ more }

/-- Whether a document without content ends before this token. -/
def endsDocument : TokenKind → Bool
  | .directive _ | .documentStart | .documentEnd | .textEnd => true
  | _ => false

/-- Reads the first document, if there is one, and the token behind it. -/
def document (n : Nat) : Read (Option Node) := do
  let token ← peek
  match token.kind with
  | .textEnd => return none
  | .directive _ | .documentStart =>
    directives n false
    let token ← peek
    if token.kind ≠ .documentStart then failAt default token.mark .documentStart
    skip
    let next ← peek
    let root ← if endsDocument next.kind then pure (.empty next.mark) else node n true false
    let _ ← peek
    return some root
  | _ =>
    directives n false
    let root ← node n true false
    let _ ← peek
    return some root

end Read

/-- Reads the first document of a text. Every level of nodes takes up a token, and a
text has at most three tokens for each of its characters. -/
def Document.read (text : String) : Except Fault (Option Document) :=
  let lexer := Lexer.ofText text
  let bound := 4 * lexer.cursor.rest.length + 8
  match (Read.document bound).run ⟨lexer, [], [], []⟩ with
  | .ok root r => .ok (root.map fun n => ⟨n, r.anchored⟩)
  | .error e _ => .error e

end DefFlow.Yaml
