import CodingChallenges.Library.Decimal
import CodingChallenges.Redis.RespTypes

/-!
# Writing Values

The encoder: `RespGenerator.cpp`.

## Main definitions

* `generate`: The message of a value.

## Theorems

* `generate_array`, `generateElements_cons`: The message of an array is that of its
  length and those of its elements.
* `length_le_generate`, `length_le_generateElements`: Nothing is longer than its
  message.
-/

namespace CodingChallenges

namespace Redis

/-- A bulk string carries its length, a simple one does not. -/
def generateRespString (input : RespString) : List Byte :=
  if input.isBulk then
    byte '$' :: (decimalDigits input.str.length ++ crlf) ++ (input.str ++ crlf)
  else byte '+' :: (input.str ++ crlf)

/-- An error is a line. -/
def generateRespError (input : RespError) : List Byte :=
  byte '-' :: (input ++ crlf)

/-- An integer is a line of digits, with a sign when it is negative. -/
def generateRespInt (input : RespInt) : List Byte :=
  byte ':' :: (signedDigits input.toInt ++ crlf)

/-- There is one spelling of null. -/
def generateRespNull : List Byte :=
  bytes "_\r\n"

/-- What announces an array. -/
def generateArrayLength (size : Nat) : List Byte :=
  byte '*' :: (decimalDigits size ++ crlf)

mutual

/-- An element of an array, by the alternative it holds. -/
def generateElement : RespType → List Byte
  | .string s => generateRespString s
  | .int n => generateRespInt n
  | .null => generateRespNull
  | .error e => generateRespError e
  | .array elements => generateArrayLength elements.length ++ generateElements elements

/-- The elements of an array, one behind the other. -/
def generateElements : List RespType → List Byte
  | [] => []
  | v :: rest => generateElement v ++ generateElements rest

end

/-- An array is its length and its elements. -/
def generateRespArray (input : RespArray) : List Byte :=
  generateArrayLength input.length ++ generateElements input

/-- The message of a value. -/
def generate : RespType → List Byte
  | .string s => generateRespString s
  | .array elements => generateRespArray elements
  | .error e => generateRespError e
  | .int n => generateRespInt n
  | .null => generateRespNull

theorem generate_array (elements : RespArray) :
    generate (.array elements) = generateRespArray elements :=
  rfl

/-- An element is written as it would be on its own. -/
theorem generateElement_eq (v : RespType) : generateElement v = generate v := by
  cases v <;> rw [generateElement, generate]
  rfl

theorem generateElements_cons (v : RespType) (rest : List RespType) :
    generateElements (v :: rest) = generate v ++ generateElements rest := by
  rw [generateElements, generateElement_eq]

/-- Every message begins with a byte that tells what it is. -/
theorem generate_pos (v : RespType) : 0 < (generate v).length := by
  cases v with
  | string s =>
      rw [generate, generateRespString]
      split <;> exact Nat.succ_pos _
  | int n => rw [generate]; exact Nat.succ_pos _
  | error e => rw [generate]; exact Nat.succ_pos _
  | array elements => rw [generate]; exact Nat.succ_pos _
  | null => rw [generate]; exact Nat.succ_pos _

/-- There are no more elements than bytes. -/
theorem length_le_generateElements (elements : List RespType) :
    elements.length ≤ (generateElements elements).length := by
  induction elements with
  | nil => exact Nat.zero_le _
  | cons v rest ih =>
      have hpos := generate_pos v
      rw [generateElements_cons, List.length_append, List.length_cons]
      omega

/-- A string is shorter than its message. -/
theorem length_lt_generateRespString (s : RespString) :
    s.str.length < (generateRespString s).length := by
  unfold generateRespString
  split <;> simp only [List.length_append, List.length_cons] <;> omega

end Redis

end CodingChallenges
