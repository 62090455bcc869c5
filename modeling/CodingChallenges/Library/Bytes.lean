import Mathlib.Init

/-!
# Texts in Bytes

The bytes of the characters and texts that stand in a program. All of these are of ASCII, so a
character is one byte.

## Main definitions

* `byte`, `bytes`: A character and a text.
-/

namespace CodingChallenges

/-- The byte of a character of ASCII. -/
abbrev byte (c : Char) : UInt8 := c.toUInt8

/-- The bytes of a text of ASCII. -/
abbrev bytes (text : String) : List UInt8 := text.toList.map Char.toUInt8

end CodingChallenges
