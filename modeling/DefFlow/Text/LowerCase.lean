/-!
# Lower case

Words that a user types are compared with names in ASCII, byte by byte. Besides the
letters of ASCII, only those letters can make a difference whose small letter takes
another number of bytes.
-/

set_option autoImplicit false

namespace DefFlow.Text

/-- The letters outside ASCII whose small letter takes another number of bytes, in
ascending order, each with its small letter. -/
def resizedLetters : List (Nat × Nat) := [
  (0x130, 0x69), (0x23a, 0x2c65), (0x23e, 0x2c66), (0x1e9e, 0xdf), (0x2126, 0x3c9),
  (0x212a, 0x6b), (0x212b, 0xe5), (0x2c62, 0x26b), (0x2c64, 0x27d), (0x2c6d, 0x251),
  (0x2c6e, 0x271), (0x2c6f, 0x250), (0x2c70, 0x252), (0x2c7e, 0x23f), (0x2c7f, 0x240),
  (0xa78d, 0x265), (0xa7aa, 0x266), (0xa7ab, 0x25c), (0xa7ac, 0x261), (0xa7ad, 0x26c),
  (0xa7ae, 0x26a), (0xa7b0, 0x29e), (0xa7b1, 0x287), (0xa7b2, 0x29d), (0xa7c5, 0x282),
  (0xa7cb, 0x264), (0xa7dc, 0x19b)]

def lowered (c : Char) : Char :=
  match resizedLetters.lookup c.toNat with
  | some small => Char.ofNat small
  | none => c.toLower

/-- A text in lower case, as far as comparing it with ASCII can tell. -/
def lowerCase (s : String) : String := s.map lowered

end DefFlow.Text
