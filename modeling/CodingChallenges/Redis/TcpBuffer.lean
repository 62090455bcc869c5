import CodingChallenges.Redis.RespTypes

/-!
# The Input Buffer

Where a client keeps the bytes of a message that is not complete yet:
`TcpBuffer.cpp`.

The buffer is a string of fixed size, and its contents are the bytes between two
positions in it. Appending moves the end and fails if there is no room behind
it. Consuming moves the start; the room in front of the start is won back only
when the buffer gets empty or the start has passed the middle, so a buffer that
holds little can still be full.

Seen from outside it is a queue of bytes: appending adds to its end and
consuming takes from its front (`view_append`, `view_consume`).

## Main definitions

* `TcpBuffer`: The string and the two positions.
* `TcpBuffer.append`, `TcpBuffer.view`, `TcpBuffer.consume`: The operations.
* `TcpBuffer.Valid`: The positions are in order and inside the string.

## Theorems

* `TcpBuffer.Valid.append`, `TcpBuffer.Valid.consume`: The operations keep the
  buffer valid.
* `TcpBuffer.view_append`, `TcpBuffer.view_consume`: What they do to its contents.
-/

namespace CodingChallenges

namespace Redis

/-- A buffer whose bytes in use lie between two positions. -/
structure TcpBuffer where
  buffer : List Byte
  startPos : Nat
  endPos : Nat
deriving DecidableEq, Repr

namespace TcpBuffer

/-- A buffer with room for so many bytes. -/
def ofCapacity (capacity : Nat) : TcpBuffer :=
  ⟨List.replicate capacity 0, 0, 0⟩

/-- Whether there was room, and the buffer, which is as before if there was
    none. -/
def append (b : TcpBuffer) (data : List Byte) : Bool × TcpBuffer :=
  if b.endPos + data.length > b.buffer.length then (false, b)
  else
    (true, { b with
      buffer := b.buffer.take b.endPos ++ data ++ b.buffer.drop (b.endPos + data.length)
      endPos := b.endPos + data.length })

/-- The bytes in use. -/
def view (b : TcpBuffer) : List Byte :=
  (b.buffer.take b.endPos).drop b.startPos

/-- Drop bytes at the front of what is in use. -/
def consume (b : TcpBuffer) (length : Nat) : TcpBuffer :=
  let startPos := b.startPos + length
  if startPos = b.endPos then { b with startPos := 0, endPos := 0 }
  else if startPos > b.buffer.length / 2 then
    -- What is left is moved to the front.
    let rest := (b.buffer.take b.endPos).drop startPos
    { buffer := rest ++ b.buffer.drop rest.length, startPos := 0, endPos := b.endPos - startPos }
  else { b with startPos := startPos }

/-- How many bytes are in use. -/
def size (b : TcpBuffer) : Nat :=
  b.endPos - b.startPos

/-- No byte is in use. -/
def empty (b : TcpBuffer) : Bool :=
  b.size == 0

/-- The positions are in order and inside the string, and an empty buffer has all
    its room behind them. -/
structure Valid (b : TcpBuffer) : Prop where
  start_le : b.startPos ≤ b.endPos
  end_le : b.endPos ≤ b.buffer.length
  empty_start : b.startPos = b.endPos → b.endPos = 0

variable {b : TcpBuffer}

theorem Valid.ofCapacity (capacity : Nat) : (ofCapacity capacity).Valid :=
  ⟨Nat.le_refl _, Nat.zero_le _, fun _ => rfl⟩

theorem Valid.length_view (h : b.Valid) : b.view.length = b.size := by
  have hend := h.end_le
  rw [view, List.length_drop, List.length_take, Nat.min_eq_left hend, size]

theorem Valid.empty_iff (h : b.Valid) : b.empty = true ↔ b.view = [] := by
  rw [empty, beq_iff_eq, ← h.length_view, List.length_eq_zero_iff]

/-- An empty buffer is as it was at first. -/
theorem Valid.endPos_eq_zero (h : b.Valid) (hempty : b.view = []) : b.endPos = 0 := by
  have hsize : b.endPos - b.startPos = 0 := by
    have hlen := h.length_view
    rw [hempty, List.length_nil] at hlen
    exact hlen.symm
  have hle := h.start_le
  exact h.empty_start (by omega)

section Append

variable {data : List Byte}

/-- There is room behind the end. -/
def HasRoom (b : TcpBuffer) (length : Nat) : Prop :=
  b.endPos + length ≤ b.buffer.length

instance (b : TcpBuffer) (length : Nat) : Decidable (b.HasRoom length) :=
  inferInstanceAs (Decidable (b.endPos + length ≤ b.buffer.length))

theorem append_fst : (b.append data).1 = true ↔ b.HasRoom data.length := by
  unfold append HasRoom
  split
  · exact iff_of_false Bool.false_ne_true (by omega)
  · exact iff_of_true rfl (by omega)

theorem append_of_not_hasRoom (h : ¬ b.HasRoom data.length) : (b.append data).2 = b := by
  unfold append
  rw [if_pos (Nat.lt_of_not_le h)]

theorem append_endPos (h : b.HasRoom data.length) :
    (b.append data).2.startPos = b.startPos ∧
      (b.append data).2.endPos = b.endPos + data.length := by
  unfold append
  rw [if_neg (Nat.not_lt_of_le h)]
  exact ⟨rfl, rfl⟩

/-- The string keeps its size. -/
theorem append_length (hvalid : b.Valid) : (b.append data).2.buffer.length = b.buffer.length := by
  have hend := hvalid.end_le
  unfold append
  split
  · rfl
  · simp only [List.length_append, List.length_take, List.length_drop]
    omega

theorem Valid.append (h : b.Valid) (hdata : data ≠ []) : (b.append data).2.Valid := by
  by_cases hroom : b.HasRoom data.length
  · rcases append_endPos hroom with ⟨hstart, hend⟩
    have hpos := List.length_pos_iff.mpr hdata
    have hle := h.start_le
    refine ⟨?_, ?_, ?_⟩
    · rw [hstart, hend]
      omega
    · rw [append_length h, hend]
      exact hroom
    · rw [hstart, hend]
      omega
  · rw [append_of_not_hasRoom hroom]
    exact h

/-- Nothing changes when nothing is appended. -/
theorem append_nil : (b.append []).2 = b := by
  unfold append
  split
  · rfl
  · simp only [List.length_nil, Nat.add_zero, List.append_nil, List.take_append_drop]

theorem Valid.append_any (h : b.Valid) (data : List Byte) : (b.append data).2.Valid := by
  by_cases hdata : data = []
  · rw [hdata, append_nil]
    exact h
  · exact h.append hdata

/-- What is appended comes behind the contents. -/
theorem view_append (h : b.Valid) (hroom : b.HasRoom data.length) :
    (b.append data).2.view = b.view ++ data := by
  have hend := h.end_le
  have hle := h.start_le
  have hlen : (b.buffer.take b.endPos ++ data).length = b.endPos + data.length := by
    rw [List.length_append, List.length_take, Nat.min_eq_left hend]
  unfold append view
  rw [if_neg (Nat.not_lt_of_le hroom)]
  simp only
  -- The new end is right behind the data, so everything up to it is what was there and the data.
  rw [← hlen, List.take_left, List.drop_append_of_le_length]
  rw [List.length_take]
  omega

end Append

section Consume

variable {length : Nat}

theorem consume_length (h : b.Valid) : (b.consume length).buffer.length = b.buffer.length := by
  have hend := h.end_le
  unfold consume
  simp only
  split
  · rfl
  · split
    · simp only [List.length_append, List.length_drop, List.length_take]
      omega
    · rfl

theorem Valid.consume (h : b.Valid) (hlength : length ≤ b.size) : (b.consume length).Valid := by
  have hend := h.end_le
  have hle := h.start_le
  unfold size at hlength
  unfold TcpBuffer.consume
  simp only
  split
  · exact ⟨Nat.le_refl _, Nat.zero_le _, fun _ => rfl⟩
  · split
    · -- The contents were moved to the front, and there is something left of them.
      refine ⟨Nat.zero_le _, ?_, fun h => h.symm⟩
      simp only [List.length_append, List.length_drop, List.length_take]
      omega
    · refine ⟨?_, hend, ?_⟩
      · simp only
        omega
      · simp only
        omega

/-- What is consumed is the front of the contents. -/
theorem view_consume (h : b.Valid) : (b.consume length).view = b.view.drop length := by
  have hend := h.end_le
  unfold consume view
  simp only
  rw [List.drop_drop]
  split
  · -- Everything is consumed.
    next heq =>
      rw [heq, List.take_zero, List.drop_nil]
      refine (List.drop_eq_nil_of_le ?_).symm
      rw [List.length_take]
      omega
  · split
    · -- What is left was moved to the front.
      have hlen : ((b.buffer.take b.endPos).drop (b.startPos + length)).length
          = b.endPos - (b.startPos + length) := by
        rw [List.length_drop, List.length_take, Nat.min_eq_left hend]
      simp only
      rw [← hlen, List.take_left, List.drop_zero]
    · rfl

/-- The start does not stay behind the middle. -/
theorem consume_startPos : (b.consume length).startPos ≤ b.buffer.length / 2 := by
  unfold consume
  simp only
  split
  · exact Nat.zero_le _
  · split
    · exact Nat.zero_le _
    · next h => exact Nat.le_of_not_lt h

end Consume

end TcpBuffer

end Redis

end CodingChallenges
