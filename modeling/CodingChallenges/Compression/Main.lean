import CodingChallenges.Library.InputStream
import CodingChallenges.Compression.HuffmanTree

/-!
# The Compression Tool

The two directions of the tool, from the bytes of one file to those of the other:
`main.cpp` and `CompressionHeader.cpp`. What `main` does with its arguments and with
the files they name is in `Program`.

The number of bits is a number of 64 bits, but what is computed from it is the quotient
of an `int`, since this is the one version of `std::div` that fits the second argument
as it is.

## Main definitions

* `CompressionHeader`: What stands in front of the payload.
* `encode`, `decode`: The two directions.
-/

namespace CodingChallenges

namespace Compression

/-- What stands in front of the payload. -/
structure CompressionHeader where
  headerLength : Nat
  payloadLengthBits : Nat
  serializedTreeTotalBits : Nat
  originalFileBytes : Nat
  serializedTree : List UInt8
deriving DecidableEq, Repr

/-- `operator<<`. -/
def CompressionHeader.write (header : CompressionHeader) : List UInt8 :=
  LittleEndian.encode 8 header.headerLength ++ LittleEndian.encode 8 header.payloadLengthBits ++
    LittleEndian.encode 8 header.serializedTreeTotalBits ++
    LittleEndian.encode 8 header.originalFileBytes ++ header.serializedTree

/-- The quotient by `std::div`, and one more if there is a remainder. -/
def bytesOfBits (bits : Nat) : Int :=
  let numerator := (bits : Int).bmod (2 ^ 32)
  if numerator.tmod 8 ≠ 0 then numerator.tdiv 8 + 1 else numerator.tdiv 8

/-- A vector of a size, filled from the stream. -/
def readVector (size : Int) (is : InputStream) : Except Failure (List UInt8 × InputStream) :=
  if size < 0 then .error .badSize else .ok (is.readZeroed size.toNat)

/-- `operator>>`. -/
def CompressionHeader.read (is : InputStream) :
    Except Failure (CompressionHeader × InputStream) := do
  let (headerLength, is) := is.readZeroed 8
  let (payloadLengthBits, is) := is.readZeroed 8
  let (serializedTreeTotalBits, is) := is.readZeroed 8
  let (originalFileBytes, is) := is.readZeroed 8
  let (serializedTree, is) ←
    readVector (bytesOfBits (LittleEndian.decode serializedTreeTotalBits)) is
  .ok (⟨LittleEndian.decode headerLength, LittleEndian.decode payloadLengthBits,
    LittleEndian.decode serializedTreeTotalBits, LittleEndian.decode originalFileBytes,
    serializedTree⟩, is)

/-- `compute_frequency`, from a map without entries. -/
def computeFrequency (fileContents : List UInt8) : FrequencyMap :=
  fileContents.foldl (fun frequencyMap c => fun i =>
    if i = c then frequencyMap c + 1 else frequencyMap i) fun _ => 0

/-- `main` with `-e`, from the contents of the one file to those of the other. -/
def encode (addresses : Nat → Nat) (buffer : List UInt8) : Except Failure (List UInt8) := do
  let huffmanTree ← construct addresses (computeFrequency buffer)
  let (outputBuffer, totalBits) ← huffmanTree.serializePayload buffer
  let (serializedTree, serializedTreeTotalBits) := huffmanTree.serialize
  let header : CompressionHeader :=
    ⟨24 + serializedTree.length, totalBits, serializedTreeTotalBits, buffer.length, serializedTree⟩
  .ok (header.write ++ outputBuffer)

/-- `main` with `-d`. -/
def decode (file : List UInt8) : Except Failure (List UInt8) := do
  let (header, inputFile) ← CompressionHeader.read (.ofFile file)
  if inputFile.good = false then .error .exit
  else
    let (payloadBuffer, inputFile) ← readVector (bytesOfBits header.payloadLengthBits) inputFile
    if inputFile.good = false then .error .exit
    else
      let huffmanTree ← deserialize .null header.serializedTree header.serializedTreeTotalBits
      huffmanTree.deserializePayload payloadBuffer header.payloadLengthBits
        header.originalFileBytes

end Compression

end CodingChallenges
