import CodingChallenges.Library.Bytes
import CodingChallenges.Library.Delimiter
import Mathlib.Data.Int.Notation
import Mathlib.Algebra.Ring.Nat

/-!
# Values of the Protocol

What the server and its clients say to each other: `RespTypes.hpp` and
`RespErrors.hpp`.

A value is a string, an integer, an error, an array of values, or nothing.
Strings come in two kinds. A simple string or an error is one line; a bulk
string is announced with its length and may hold anything, as far as the
protocol is concerned.

What the decoder relies on is weaker than that. It looks for the next `\r\n`,
so a string is told from its frame if it holds no `\r\n` itself.

## Main definitions

* `RespString`, `RespType`: The values.
* `crlf`: What ends a line of the protocol.
* `RespType.ForallLeaves`: What holds of everything in a value but the arrays.
* `RespType.NoNull`, `RespType.Delimited`: Values that can be framed.

## Theorems

* `crlf_unbordered`: The delimiter does not overlap itself.
-/

namespace CodingChallenges

namespace Redis

/-- One `char` of a message. -/
abbrev Byte := UInt8

/-- What ends a line. -/
abbrev crlf : List Byte := [byte '\r', byte '\n']

/-- A string is either bulk or simple. -/
structure RespString where
  str : List Byte
  isBulk : Bool
deriving DecidableEq, Repr

/-- An error is its text. -/
abbrev RespError := List Byte

/-- Integers have 64 bits. -/
abbrev RespInt := Int64

/-- The values of the protocol. -/
inductive RespType where
  | string (s : RespString)
  | int (n : RespInt)
  | error (e : RespError)
  | array (elements : List RespType)
  | null
deriving Repr

/-- An array holds values of any type. -/
abbrev RespArray := List RespType

/-- One value more than the largest `std::size_t`. -/
abbrev sizeBound : Nat := 2 ^ 64

/-- One value more than the largest `std::int64_t`. -/
abbrev intBound : Nat := 2 ^ 63

/-- The error for bytes that are no value. -/
def invalidInputFormat : RespError := bytes "INVALID_INPUT_FORMAT"

/-- The error for a wrong number of arguments. -/
def invalidNumberArguments : RespError := bytes "INVALID_NUMBER_OF_ARGUMENTS"

/-- The error for an argument that is no number. -/
def invalidArgumentFormat : RespError := bytes "INVALID_ARGUMENT_FORMAT"

/-- The error for an unknown command. -/
def notImplemented : RespError := bytes "NOT_IMPLEMENTED"

/-- The error for a complete result that has no value. -/
def internalError : RespError := bytes "INTERNAL_ERROR"

/-- The error for a dump that was not written. -/
def saveFailed : RespError := bytes "SAVE_FAILED"

/-- The error for a value of the wrong type. -/
def invalidOperation : RespError := bytes "INVALID_OPERATION"

/-- The error for an expiry that is no number. -/
def invalidExpiryValue : RespError := bytes "INVALID_EXPIRY_VALUE"

mutual

/-- The predicate holds of everything in a value but the arrays. -/
def RespType.ForallLeaves (P : RespType → Prop) : RespType → Prop
  | .array elements => RespType.ForallElements P elements
  | leaf => P leaf

/-- The predicate holds all over a list of elements. -/
def RespType.ForallElements (P : RespType → Prop) : List RespType → Prop
  | [] => True
  | v :: rest => RespType.ForallLeaves P v ∧ RespType.ForallElements P rest

end

theorem RespType.forallElements_iff {P : RespType → Prop} {elements : List RespType} :
    RespType.ForallElements P elements ↔ ∀ v ∈ elements, v.ForallLeaves P := by
  induction elements with
  | nil => exact iff_of_true trivial (fun v hv => absurd hv List.not_mem_nil)
  | cons v rest ih =>
      rw [List.forall_mem_cons, ← ih]
      exact Iff.rfl

/-- Neither the value nor an element of it, at any depth, is the null value. -/
def RespType.NoNull : RespType → Prop :=
  RespType.ForallLeaves (· ≠ .null)

/-- The text is one line. -/
def OneLine (text : List Byte) : Prop :=
  ∀ c ∈ text, c ≠ byte '\r' ∧ c ≠ byte '\n'

/-- The strings of a value end where their frames do. -/
def RespType.DelimitedLeaf : RespType → Prop
  | .string ⟨str, true⟩ => ¬ crlf <:+: str
  | .string ⟨str, false⟩ => OneLine str
  | .error e => OneLine e
  | _ => True

/-- The strings of a value, at any depth, end where their frames do. -/
def RespType.Delimited : RespType → Prop :=
  RespType.ForallLeaves RespType.DelimitedLeaf

theorem crlf_unbordered : Delimiter.Unbordered crlf := by
  intro k hpos hlt hat
  have hone : k = 1 := by
    have hlen : crlf.length = 2 := rfl
    omega
  subst hone
  exact absurd (List.isPrefixOf_iff_prefix.mpr hat) (by decide)

/-- One line has no end of a line in it. -/
theorem OneLine.not_infix {text : List Byte} (h : OneLine text) : ¬ crlf <:+: text := by
  intro hoccurs
  exact (h (byte '\r') (hoccurs.subset List.mem_cons_self)).1 rfl

end Redis

end CodingChallenges
