import DefFlow.Yaml.Cursor

/-!
# What is wrong with a YAML text

The causes for which a text is no document or its values cannot be read, with the
line that shows it. The line of a token is the one it stands on; a fault in the order
of the tokens names the line in front. The first line is never named.
-/

set_option autoImplicit false

namespace DefFlow.Yaml

inductive Problem where
  | controlCharacter
  | missingColon
  | keyNotAllowed
  | valueNotAllowed
  | itemNotAllowed
  | noToken
  | tooDeep
  | directiveName
  | directiveLetter
  | unknownDirective
  | lineNotEnded
  | versionPoint
  | versionTooLong
  | versionNumber
  | missingBlank
  | anchorName
  | tagBracket
  | tagNotEnded
  | tagMark
  | tagText
  | escapedByte
  | leadingByte
  | trailingByte
  | zeroIndentation
  | tabIndentation
  | tabInScalar
  | documentInQuotes
  | endInQuotes
  | unknownEscape
  | escapeDigits
  | escapedCharacter
  | documentStart
  | repeatedVersion
  | otherVersion
  | repeatedHandle
  | unknownHandle
  | nodeContent
  | listItem
  | mappingKey
  | flowListEnd
  | flowMappingEnd
  | unknownAnchor (name : String)
  | ownAnchor (name : String)
  | mergedValue
  | wrongTag (found value wanted : String)
  | binaryText
  deriving DecidableEq, Repr

/-- How deep blocks and flow collections may be nested. -/
def depthLimit : Nat := 10000

def Problem.message : Problem → String
  | .controlCharacter => "control characters are not allowed"
  | .missingColon => "could not find expected ':'"
  | .keyNotAllowed => "mapping keys are not allowed in this context"
  | .valueNotAllowed => "mapping values are not allowed in this context"
  | .itemNotAllowed => "block sequence entries are not allowed in this context"
  | .noToken => "found character that cannot start any token"
  | .tooDeep => s!"exceeded max depth of {depthLimit}"
  | .directiveName => "could not find expected directive name"
  | .directiveLetter => "found unexpected non-alphabetical character"
  | .unknownDirective => "found unknown directive name"
  | .lineNotEnded => "did not find expected comment or line break"
  | .versionPoint => "did not find expected digit or '.' character"
  | .versionTooLong => "found extremely long version number"
  | .versionNumber => "did not find expected version number"
  | .missingBlank => "did not find expected whitespace"
  | .anchorName => "did not find expected alphabetic or numeric character"
  | .tagBracket => "did not find the expected '>'"
  | .tagNotEnded => "did not find expected whitespace or line break"
  | .tagMark => "did not find expected '!'"
  | .tagText => "did not find expected tag URI"
  | .escapedByte => "did not find URI escaped octet"
  | .leadingByte => "found an incorrect leading UTF-8 octet"
  | .trailingByte => "found an incorrect trailing UTF-8 octet"
  | .zeroIndentation => "found an indentation indicator equal to 0"
  | .tabIndentation => "found a tab character where an indentation space is expected"
  | .tabInScalar => "found a tab character that violates indentation"
  | .documentInQuotes => "found unexpected document indicator"
  | .endInQuotes => "found unexpected end of stream"
  | .unknownEscape => "found unknown escape character"
  | .escapeDigits => "did not find expected hexdecimal number"
  | .escapedCharacter => "found invalid Unicode character escape code"
  | .documentStart => "did not find expected <document start>"
  | .repeatedVersion => "found duplicate %YAML directive"
  | .otherVersion => "found incompatible YAML document"
  | .repeatedHandle => "found duplicate %TAG directive"
  | .unknownHandle => "found undefined tag handle"
  | .nodeContent => "did not find expected node content"
  | .listItem => "did not find expected '-' indicator"
  | .mappingKey => "did not find expected key"
  | .flowListEnd => "did not find expected ',' or ']'"
  | .flowMappingEnd => "did not find expected ',' or '\x7d'"
  | .unknownAnchor name => "unknown anchor '" ++ name ++ "' referenced"
  | .ownAnchor name => "anchor '" ++ name ++ "' value contains itself"
  | .mergedValue => "map merge requires map or sequence of maps as the value"
  | .wrongTag found value wanted =>
    "cannot decode " ++ found ++ " `" ++ value ++ "` as a " ++ wanted
  | .binaryText => "!!binary value contains invalid base64 data"

/-- A problem and the line it is reported for. -/
structure Fault where
  line : Option Nat
  problem : Problem
  deriving DecidableEq, Repr

namespace Fault

def message (f : Fault) : String :=
  let place := match f.line with
    | some n => s!"line {n}: "
    | none => ""
  "yaml: " ++ place ++ f.problem.message

/-- The line to report: that of what was being read, or else that of the fault. -/
def lineOf (context here : Nat) : Option Nat :=
  if context ≠ 0 then some context else if here ≠ 0 then some here else none

/-- A fault in a token that starts at the line `context`. -/
def inToken (context here : Nat) (p : Problem) : Fault :=
  ⟨(lineOf context here).map (· + 1), p⟩

/-- A fault in the order of the tokens of a node that starts at the line `context`. -/
def inOrder (context here : Nat) (p : Problem) : Fault := ⟨lineOf context here, p⟩

/-- A fault that has no place. -/
def general (p : Problem) : Fault := ⟨none, p⟩

end Fault
end DefFlow.Yaml
