import CodingChallenges.Library.InputStream
import CodingChallenges.Library.Outcomes
import CodingChallenges.Redis.RespTypes

/-!
# The Dump File

How the contents of the dictionary are written to a file: `DictionaryValue.hpp`
and `RdbManager.cpp`.

The file is a header, then one record an entry, then a trailer. A record says when
the entry expires if it does, of which type the value is, and the key and the
value, each string and each list behind its length.

Only strings and lists of strings have a record. Of an entry with any other value
nothing is written but its expiry, and a list with anything else in it makes
`std::get` throw.

Loading skips the header unread and takes the entries one after the other. A byte
that cannot be read leaves the variable for it as it was, and a variable that was
never assigned has no value to go on with.

## Main definitions

* `DictionaryValue`: What is stored under a key.
* `writeLength`: The length in front of a string or a list.
* `saveEntry`, `saveSnapshot`: What is written.
* `readLength`, `loadEntry`, `load`: What is read.
* `RespType.Serialisable`: The values that have a record.

## Theorems

* `saveSnapshot_isSome`: What can be written.
-/

namespace CodingChallenges

namespace Redis

/-- A key is any string of bytes. -/
abbrev Key := List Byte

/-- What is stored under a key. The value is a pointer in the source; a model that
    tells the pointer from what it points to says which of them `α` is. -/
structure DictionaryValue (α : Type) where
  value : α
  expiryTimestamp : Option UInt64
deriving DecidableEq, Repr

/-- The entries of a dictionary, in the order they are written. -/
abbrev DictionarySnapshot (α : Type) := List (Key × DictionaryValue α)

/-- `write_length`. A length that needs more than 32 bits is not written at all. -/
def writeLength (length : Nat) : List Byte :=
  if length ≤ 63 then
    [UInt8.ofNat (length &&& 0b00111111)]
  else if length ≤ 16383 then
    [(0b01000000 : Byte) ||| UInt8.ofNat ((length >>> 8) &&& 0b00111111),
      UInt8.ofNat (length &&& 0xff)]
  else if length ≤ 0xFFFFFFFF then
    0b10000000 :: LittleEndian.encode 4 length
  else
    []

/-- What is written of a string. -/
def saveString (str : List Byte) : List Byte :=
  writeLength str.length ++ str

/-- What is written of the elements of a list, unless one of them is not a string. -/
def saveElements : RespArray → Option (List Byte)
  | [] => some []
  | .string s :: rest => (saveElements rest).map fun file => saveString s.str ++ file
  | _ :: _ => none

/-- What is written of an expiry. -/
def saveExpiry : Option UInt64 → List Byte
  | some expiryMillis => 0xFC :: LittleEndian.encode 8 expiryMillis.toNat
  | none => []

/-- What is written of an entry. -/
def saveEntry (key : Key) (entry : DictionaryValue RespType) : Option (List Byte) :=
  match entry.value with
  | .string s =>
    some (saveExpiry entry.expiryTimestamp ++ (0x00 :: saveString key) ++ saveString s.str)
  | .array list =>
    (saveElements list).map fun elements =>
      saveExpiry entry.expiryTimestamp ++ (0x01 :: saveString key) ++ writeLength list.length ++
        elements
  | _ => some (saveExpiry entry.expiryTimestamp)

/-- The records of the entries, one behind the other. -/
def saveEntries : DictionarySnapshot RespType → Option (List Byte)
  | [] => some []
  | (key, entry) :: rest => do
    let record ← saveEntry key entry
    let records ← saveEntries rest
    return record ++ records

/-- What stands in front of the entries. -/
def saveHeader (dictSize : Nat) : List Byte :=
  bytes "REDIS0005" ++ [0xFA, 0x07] ++ bytes "VERSION" ++ [0x01, byte '3', 0xFE, 0x00, 0xFB] ++
    writeLength dictSize ++ writeLength dictSize

/-- What stands behind the entries: the end of the file and a dummy checksum. -/
def saveTrailer : List Byte :=
  0xFF :: LittleEndian.encode 8 0

/-- The contents of the file. There is none if `std::get` throws. -/
def saveSnapshot (snapshot : DictionarySnapshot RespType) : Option (List Byte) :=
  (saveEntries snapshot).map fun records => saveHeader snapshot.length ++ records ++ saveTrailer

/-- Why nothing is loaded: the file is not there or not understood, or a variable is
    used that nothing was read into. -/
inductive LoadFailure where
  | refused
  | indeterminate
deriving DecidableEq, Repr

/-- What is computed while the file is read. -/
abbrev Load := StateT InputStream (Except LoadFailure)

/-- The next byte, if there is one. -/
def getByte : Load (Option Byte) := fun ifile => .ok ifile.get

/-- The next byte, where the variable for it has no value yet. -/
def getFresh : Load Byte := fun ifile =>
  match ifile.get with
  | (some byte, ifile') => .ok (byte, ifile')
  | (none, _) => .error .indeterminate

/-- The next bytes, in memory that was cleared before. -/
def readBlock (n : Nat) : Load (List Byte) := fun ifile => .ok (ifile.readZeroed n)

/-- A `char` as a `std::uint16_t`: `char` is signed. -/
def toUInt16 (c : Byte) : Nat :=
  c.toInt8.toInt16.toUInt16.toNat

/-- The two upper bits of the first byte tell how the length is stored. -/
def readLength : Load Nat := do
  let byte ← getFresh
  if byte >>> 6 = 0 then
    return (byte &&& 0b00111111).toNat
  else if byte >>> 6 = 1 then
    let secondByte ← getFresh
    return toUInt16 secondByte + (byte &&& 0b00111111).toNat <<< 8
  else if byte >>> 6 = 2 then
    return LittleEndian.decode (← readBlock 4)
  else
    return 0

/-- A string behind its length. -/
def loadString : Load (List Byte) := do
  let length ← readLength
  readBlock length

/-- The elements of a list, all of which are taken for bulk strings. -/
def loadElements : Nat → Load RespArray
  | 0 => return []
  | listSize + 1 => do
    let value ← loadString
    let rest ← loadElements listSize
    return .string ⟨value, true⟩ :: rest

/-- The expiry of an entry, and the byte that says of which type its value is. -/
def loadExpiry : Load (Option UInt64 × Byte) := do
  let firstByte ← getFresh
  if firstByte = 0xFC then
    let expiryMillis ← readBlock 8
    let valueType ← getByte
    return (some (UInt64.ofNat (LittleEndian.decode expiryMillis)), valueType.getD firstByte)
  else
    return (none, firstByte)

/-- An entry is an expiry, a type, a key and a value. -/
def loadEntry : Load (Key × DictionaryValue RespType) := do
  let (expiryTimestamp, valueType) ← loadExpiry
  if valueType = 0x00 then
    let key ← loadString
    let value ← loadString
    return (key, ⟨.string ⟨value, true⟩, expiryTimestamp⟩)
  else if valueType = 0x01 then
    let key ← loadString
    let listSize ← readLength
    let listValues ← loadElements listSize
    return (key, ⟨.array listValues, expiryTimestamp⟩)
  else
    throw .refused

/-- As many entries as the header announces. -/
def loadEntries : Nat → Load (DictionarySnapshot RespType)
  | 0 => return []
  | dictLength + 1 => do
    let entry ← loadEntry
    let rest ← loadEntries dictLength
    return entry :: rest

/-- The entries of the file. The length of the expiry dictionary and what stands
    behind the entries are read and not used. -/
def loadSnapshot : Load (DictionarySnapshot RespType) := do
  let dictLength ← readLength
  let _ ← readLength
  let dictionarySnapshot ← loadEntries dictLength
  let _ ← getByte
  return dictionarySnapshot

/-- The length of the part of the header that is skipped. -/
def headerLength : Nat := 23

/-- What is loaded from the file, if it can be opened. -/
def load (dump : Option (List Byte)) : Except LoadFailure (DictionarySnapshot RespType) :=
  match dump with
  | some file => (loadSnapshot (.ofFile (file.drop headerLength))).map (·.1)
  | none => .error .refused

/-- An element of a list that can be written. -/
def RespType.IsString : RespType → Prop
  | .string _ => True
  | _ => False

/-- A value that has a record: a string or a list of strings. -/
def RespType.Serialisable : RespType → Prop
  | .string _ => True
  | .array list => ∀ v ∈ list, v.IsString
  | _ => False

theorem RespType.isString_iff {v : RespType} : v.IsString ↔ ∃ s, v = .string s := by
  constructor
  · intro h
    cases v with
    | string s => exact ⟨s, rfl⟩
    | _ => cases h
  · rintro ⟨s, rfl⟩
    trivial

theorem saveEntries_cons (key : Key) (entry : DictionaryValue RespType)
    (rest : DictionarySnapshot RespType) :
    saveEntries ((key, entry) :: rest) =
      (saveEntry key entry).bind fun record =>
        (saveEntries rest).map fun records => record ++ records := by
  rw [saveEntries]
  cases saveEntry key entry with
  | none => rfl
  | some record => cases saveEntries rest <;> rfl

theorem saveEntry_array {key : Key} {list : RespArray} {expiry : Option UInt64} :
    saveEntry key ⟨.array list, expiry⟩ = (saveElements list).map fun elements =>
      saveExpiry expiry ++ (0x01 :: saveString key) ++ writeLength list.length ++ elements :=
  rfl

/-- What can be written as a whole is what can be written entry by entry. -/
theorem saveSnapshot_isSome {snapshot : DictionarySnapshot RespType} :
    (saveSnapshot snapshot).isSome = true ↔
      ∀ x ∈ snapshot, (saveEntry x.1 x.2).isSome = true := by
  unfold saveSnapshot
  rw [Option.isSome_map]
  induction snapshot with
  | nil => exact iff_of_true rfl (List.forall_mem_nil _)
  | cons x rest ih =>
      rw [List.forall_mem_cons, ← ih, saveEntries_cons]
      cases saveEntry x.1 x.2 with
      | none => exact iff_of_false Bool.false_ne_true fun h => Bool.false_ne_true h.1
      | some record =>
          rw [Option.bind_some, Option.isSome_map, Option.isSome_some, eq_self, true_and]

end Redis

end CodingChallenges
