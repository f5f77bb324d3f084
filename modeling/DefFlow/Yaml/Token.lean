import DefFlow.Yaml.Tag

/-!
# Tokens of a YAML text

The tokens that a text is cut into. Blocks have no marks of their own in the text:
where they start and end, and where a key stands that has no question mark, follows
from the indentation and the colons.
-/

set_option autoImplicit false

namespace DefFlow.Yaml

inductive TokenKind where
  | textEnd
  | directive (d : Directive)
  | documentStart
  | documentEnd
  | blockList
  | blockMapping
  | blockEnd
  | flowList
  | flowListEnd
  | flowMapping
  | flowMappingEnd
  | item
  | comma
  | key
  | value
  | aliasOf (name : String)
  | anchor (name : String)
  | tag (handle text : String)
  | scalar (text : String) (plain : Bool)
  deriving DecidableEq, Repr, Inhabited

/-- A token and the place where it starts. -/
structure Token where
  kind : TokenKind
  mark : Mark
  deriving DecidableEq, Repr, Inhabited

end DefFlow.Yaml
