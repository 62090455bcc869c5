import Mathlib.Algebra.Ring.Nat
import Mathlib.Data.List.Sort

/-!
# The Huffman Tree

The tree of the compression tool as a data structure: `HuffmanTree.cpp`.

A node is a value here, and a pointer to it is the node together with the address that
it was allocated at. The addresses matter in one place. The nodes wait in a priority
queue of pointers whose comparison is `std::greater<>`, so what is on top is the node
at the lowest address, and `operator>` on nodes is never called. Which address the next
node gets is up to the allocator; the model takes it from a function.

Bits go into a buffer from the highest bit of a byte down. The counters of bits are
numbers without a bound, as none of them gets near to its own.

## Main definitions

* `HuffmanTreeNode`, `HuffmanTree`: The data structure.
* `buildTree`, `construct`: Building a tree from frequencies.
* `serialize`, `serializePayload`: Writing.
* `deserialize`, `deserializePayload`: Reading.
-/

namespace CodingChallenges

namespace Compression

/-- `null` is the null pointer. -/
inductive HuffmanTreeNode where
  | null
  | node (char : Option UInt8) (value : UInt64) (left right : HuffmanTreeNode)
deriving DecidableEq, Repr

namespace HuffmanTreeNode

/-- A leaf has a symbol and no children. -/
def isLeafNode : HuffmanTreeNode → Bool
  | .node (some _) _ .null .null => true
  | _ => false

/-- `m_value`. -/
def value : HuffmanTreeNode → UInt64
  | .null => 0
  | .node _ value _ _ => value

end HuffmanTreeNode

/-- How the tool may fail other than by a message. -/
inductive Failure where
  /-- An assertion does not hold. -/
  | assertion
  /-- `exit(1)`, or `return 1` in `main`. -/
  | exit
  /-- An index lies outside of a vector. -/
  | outOfBounds
  /-- A null pointer is followed. -/
  | nullPointer
  /-- A vector is to get a size that it cannot have. -/
  | badSize
  /-- The recursion did not come to an end within the given number of steps. -/
  | outOfFuel
deriving DecidableEq, Repr

/-! ### Building -/

/-- A node and where it was allocated. -/
structure NodePtr where
  address : Nat
  node : HuffmanTreeNode
deriving DecidableEq, Repr

/-- `HeapType`, in the order in which it is emptied. -/
abbrev Heap := List NodePtr

/-- The heap is ordered by the addresses. -/
def Heap.push (nodes : Heap) (p : NodePtr) : Heap :=
  nodes.orderedInsert (fun p q => p.address ≤ q.address) p

/-- A round of `build_tree`: the two on top become one. The address is the next that is
    handed out. -/
def mergeTop (address : Nat) : Heap → Heap
  | left :: right :: nodes =>
    Heap.push nodes
      ⟨address, .node none (left.node.value + right.node.value) left.node right.node⟩
  | nodes => nodes

/-- The loop of `build_tree`, with a number of rounds that is large enough. The second
    number counts the nodes that have been allocated. -/
def buildTree (addresses : Nat → Nat) : Nat → Nat → Heap → Heap
  | rounds + 1, allocated, nodes =>
    if 2 ≤ nodes.length then
      buildTree addresses rounds (allocated + 1) (mergeTop (addresses allocated) nodes)
    else nodes
  | 0, _, nodes => nodes

/-- How often each byte occurs. -/
abbrev FrequencyMap := UInt8 → UInt64

/-- The code of each byte that has one. -/
abbrev BitMap := UInt8 → Option (List Bool)

/-- The leaf nodes for the bytes that occur, with how many nodes there are then. -/
def leafNodes (addresses : Nat → Nat) (frequencyMap : FrequencyMap) :
    List UInt8 → Heap × Nat → Heap × Nat
  | [], result => result
  | index :: indices, (nodes, allocated) =>
    leafNodes addresses frequencyMap indices <|
      if 0 < frequencyMap index then
        (nodes.push ⟨addresses allocated, .node (some index) (frequencyMap index) .null .null⟩,
          allocated + 1)
      else (nodes, allocated)

/-- `construct_bit_map`. For a null pointer nothing happens. -/
def constructBitMap : HuffmanTreeNode → List Bool → BitMap → BitMap
  | .null, _, bitMap => bitMap
  | .node char value left right, code, bitMap =>
    if (HuffmanTreeNode.node char value left right).isLeafNode then
      fun c => if some c = char then some code else bitMap c
    else
      constructBitMap right (code ++ [true]) (constructBitMap left (code ++ [false]) bitMap)

/-- The tree, and the codes read off it. -/
structure HuffmanTree where
  root : HuffmanTreeNode
  bitMap : BitMap

/-- A tree with the bit map that belongs to it. -/
def HuffmanTree.ofRoot (root : HuffmanTreeNode) : HuffmanTree :=
  ⟨root, constructBitMap root [] fun _ => none⟩

/-- The indices of a frequency map. -/
def byteIndices : List UInt8 :=
  (List.range 256).map UInt8.ofNat

/-- The constructor from frequencies. -/
def construct (addresses : Nat → Nat) (frequencyMap : FrequencyMap) :
    Except Failure HuffmanTree :=
  let (nodes, allocated) := leafNodes addresses frequencyMap byteIndices ([], 0)
  match buildTree addresses nodes.length allocated nodes with
  | [root] => .ok (.ofRoot root.node)
  | _ => .error .assertion

/-! ### Writing -/

/-- What the two writers keep: the output, the byte that is being filled, and how many of
    its bits are still free. -/
structure Writer where
  buffer : List UInt8
  currentByte : UInt8
  remainingBits : Nat
  totalBits : Nat
deriving DecidableEq, Repr

/-- Nothing is written yet. -/
def Writer.new : Writer :=
  ⟨[], 0, 8, 0⟩

/-- A full byte goes to the buffer. -/
def Writer.writeBit (w : Writer) (bit : Bool) : Writer :=
  let currentByte := if bit then w.currentByte <<< 1 ||| 1 else w.currentByte <<< 1
  if w.remainingBits - 1 = 0 then ⟨w.buffer ++ [currentByte], 0, 8, w.totalBits + 1⟩
  else ⟨w.buffer, currentByte, w.remainingBits - 1, w.totalBits + 1⟩

/-- The byte of a leaf. As many bits of it as there is room for go into the current byte,
    and the others stay in the next one. -/
def Writer.writeByte (w : Writer) (byte : UInt8) : Writer :=
  let remainingBits := UInt8.ofNat w.remainingBits
  if w.remainingBits < 8 then
    ⟨w.buffer ++ [w.currentByte <<< remainingBits ||| byte >>> (8 - remainingBits)],
      byte <<< remainingBits >>> remainingBits, w.remainingBits, w.totalBits + 8⟩
  else ⟨w.buffer ++ [byte], 0, w.remainingBits, w.totalBits + 8⟩

/-- The output with what is left of the current byte filled up with zeros. -/
def Writer.finish (w : Writer) : List UInt8 :=
  if w.remainingBits ≠ 0 && w.remainingBits ≠ 8 then
    w.buffer ++ [w.currentByte <<< UInt8.ofNat w.remainingBits]
  else w.buffer

/-- The loop of `serialize` over a stack of nodes. A null child is not pushed there; here it
    is passed over. -/
def serializeLoop : List HuffmanTreeNode → Writer → Writer
  | [], w => w
  | .null :: nodes, w => serializeLoop nodes w
  | .node char value left right :: nodes, w =>
    let isLeafNode := (HuffmanTreeNode.node char value left right).isLeafNode
    if isLeafNode then
      serializeLoop nodes ((w.writeBit isLeafNode).writeByte (char.getD 0))
    else serializeLoop (left :: right :: nodes) (w.writeBit isLeafNode)
termination_by nodes => sizeOf nodes

/-- The serialised tree and `total_bits`. -/
def HuffmanTree.serialize (tree : HuffmanTree) : List UInt8 × Nat :=
  if tree.root = .null then ([], 0)
  else
    let w := serializeLoop [tree.root] .new
    (w.finish, w.totalBits)

/-- The loop of `serialize_payload`. -/
def serializePayloadLoop (bitMap : BitMap) : List UInt8 → Writer → Except Failure Writer
  | [], w => .ok w
  | c :: buffer, w =>
    match bitMap c with
    | some code => serializePayloadLoop bitMap buffer (code.foldl Writer.writeBit w)
    | none => .error .exit

/-- The serialised payload and `total_bits`. -/
def HuffmanTree.serializePayload (tree : HuffmanTree) (buffer : List UInt8) :
    Except Failure (List UInt8 × Nat) := do
  let w ← serializePayloadLoop tree.bitMap buffer .new
  .ok (w.finish, w.totalBits)

/-! ### Reading -/

/-- Where the reader of a serialised tree is. -/
structure Reader where
  index : Nat
  totalProcessedBits : Nat
  remainingBits : Nat
deriving DecidableEq, Repr

/-- A byte of a vector. -/
def byteAt (bytes : List UInt8) (index : Nat) : Except Failure UInt8 :=
  match bytes[index]? with
  | some byte => .ok byte
  | none => .error .outOfBounds

/-- The bit that is next in a byte. -/
def nextBit (byte : UInt8) (remainingBits : Nat) : Bool :=
  byte >>> UInt8.ofNat (remainingBits - 1) &&& 0x1 = 1

/-- Behind the next bit. -/
def Reader.behindBit (r : Reader) : Reader :=
  if r.remainingBits - 1 = 0 then ⟨r.index + 1, r.totalProcessedBits + 1, 8⟩
  else ⟨r.index, r.totalProcessedBits + 1, r.remainingBits - 1⟩

/-- The byte of a leaf. -/
def readByte (serializedTree : List UInt8) (r : Reader) : Except Failure UInt8 :=
  if r.remainingBits < 8 then
    if serializedTree.length ≤ r.index + 1 then .error .exit
    else do
      let processedBits := UInt8.ofNat (8 - r.remainingBits)
      let byte ← byteAt serializedTree r.index
      let next ← byteAt serializedTree (r.index + 1)
      .ok (byte <<< processedBits ||| next >>> UInt8.ofNat r.remainingBits)
  else byteAt serializedTree r.index

/-- `deserialize`, with a depth that is large enough. A node that is passed in is filled,
    and a new one is made where there is none. -/
def deserializeNode (serializedTree : List UInt8) (serializedTreeBits : Nat) :
    Nat → Reader → HuffmanTreeNode → Except Failure (HuffmanTreeNode × Reader)
  | 0, _, _ => .error .outOfFuel
  | depth + 1, r, root =>
    if serializedTree.length ≤ r.index then .ok (.null, r)
    else if serializedTreeBits ≤ r.totalProcessedBits then .ok (.null, r)
    else do
      let first ← byteAt serializedTree r.index
      let (char, value, left, right) :=
        match root with
        | .null => (none, 0, .null, .null)
        | .node char value left right => (char, value, left, right)
      if nextBit first r.remainingBits = false then
        let (left, r) ← deserializeNode serializedTree serializedTreeBits depth r.behindBit left
        let (right, r) ← deserializeNode serializedTree serializedTreeBits depth r right
        .ok (.node char value left right, r)
      else
        let r := r.behindBit
        let byte ← readByte serializedTree r
        .ok (.node (some byte) value left right,
          ⟨r.index + 1, r.totalProcessedBits + 8, r.remainingBits⟩)

/-- The public `deserialize`, for a tree that has the given root. -/
def deserialize (root : HuffmanTreeNode) (serializedTree : List UInt8)
    (serializedTreeBits : Nat) : Except Failure HuffmanTree := do
  let (root, _) ← deserializeNode serializedTree serializedTreeBits (serializedTreeBits + 1)
    ⟨0, 0, 8⟩ root
  .ok (.ofRoot root)

/-- The loop of `deserialize_payload`, with a number of steps that is large enough. -/
def deserializePayloadLoop (root : HuffmanTreeNode) (payload : List UInt8) (payloadBits : Nat) :
    Nat → Reader → HuffmanTreeNode → List UInt8 → Except Failure (List UInt8)
  | 0, _, _, _ => .error .outOfFuel
  | steps + 1, r, node, output =>
    if payload.length ≤ r.index then .ok output
    else do
      let byte ← byteAt payload r.index
      match node with
      | .null => .error .nullPointer
      | .node _ _ left right =>
        match if nextBit byte r.remainingBits then right else left with
        -- A code that is in no tree: the output is thrown away.
        | .null => .ok []
        | .node char value left right =>
          let next := HuffmanTreeNode.node char value left right
          let node := if next.isLeafNode then root else next
          let output := if next.isLeafNode then output ++ [char.getD 0] else output
          if payloadBits ≤ r.totalProcessedBits + 1 then .ok output
          else deserializePayloadLoop root payload payloadBits steps r.behindBit node output

/-- Room for so many bytes as the original file had is reserved first, and a vector of bytes
    cannot have more than `2 ^ 63 - 1` of them. -/
def HuffmanTree.deserializePayload (tree : HuffmanTree) (payload : List UInt8)
    (payloadBits originalFileBytes : Nat) : Except Failure (List UInt8) :=
  if 2 ^ 63 ≤ originalFileBytes then .error .badSize
  else
    deserializePayloadLoop tree.root payload payloadBits (8 * payload.length + 1) ⟨0, 0, 8⟩
      tree.root []

end Compression

end CodingChallenges
