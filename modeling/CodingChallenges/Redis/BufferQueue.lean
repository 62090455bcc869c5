import CodingChallenges.Library.Fifo
import CodingChallenges.Redis.TcpBuffer

/-!
# The Input Buffer as a Queue

How far a `TcpBuffer` is a queue of bytes with a bound.

Its contents are always those of the queue. The bound is another matter. Room
comes free in front of the contents as they are consumed, and an append looks for
room behind them only. So an append can fail while there would be room for it, and
it does so exactly if what is free in front is needed. No append does that if it
leaves half of the buffer free.

## Main definitions

* `QueuedBuffer`: A buffer beside the queue it implements.
* `Access`, `QueuedBuffer.Step`: The calls.
* `FailsOnlyIfFull`: A call does not fail for want of room that there is.
* `NeedsRoomInFront`: The data fits into the buffer, but not behind the contents.

## Theorems

* `QueuedBuffer.view_eq`: The contents are those of the queue.
* `buffer_queue_iff`: When the whole capacity is made use of.
-/

namespace CodingChallenges

namespace Redis

/-- The calls that change a buffer. -/
inductive Access where
  | append (data : List Byte)
  | consume (length : Nat)

/-- A buffer, and the queue that it is to implement. -/
structure QueuedBuffer where
  tcpBuffer : TcpBuffer
  queue : Fifo Byte

namespace QueuedBuffer

/-- Nothing is in the buffer, and nothing is queued. -/
def ofCapacity (capacity : Nat) : QueuedBuffer :=
  ⟨TcpBuffer.ofCapacity capacity, Fifo.empty⟩

/-- A call. What is appended counts if the append succeeds, and no more is consumed
    than there is. -/
inductive Step : QueuedBuffer → Access → QueuedBuffer → Prop where
  | append (b : TcpBuffer) (q : Fifo Byte) (data : List Byte) :
      Step ⟨b, q⟩ (.append data)
        ⟨(b.append data).2, if (b.append data).1 then q.add data else q⟩
  | consume (b : TcpBuffer) (q : Fifo Byte) (length : Nat) (h : length ≤ b.size) :
      Step ⟨b, q⟩ (.consume length) ⟨b.consume length, q.take length⟩

/-- The contents are what was appended, without what was consumed of it. -/
def Agrees (s : QueuedBuffer) : Prop :=
  s.tcpBuffer.view = s.queue.contents

/-- The call is not a failed append of data that fits. -/
def FailsOnlyIfFull (capacity : Nat) (s : QueuedBuffer) (access : Access) : Prop :=
  match access with
  | .append data =>
    (s.tcpBuffer.append data).1 = false → capacity < s.tcpBuffer.size + data.length
  | .consume _ => True

/-- The data of an append fits, but not behind the contents. -/
def NeedsRoomInFront (capacity : Nat) (s : QueuedBuffer) (access : Access) : Prop :=
  match access with
  | .append data =>
    s.tcpBuffer.size + data.length ≤ capacity ∧
      capacity < s.tcpBuffer.startPos + s.tcpBuffer.size + data.length
  | .consume _ => False

/-- What holds of a buffer and its queue all along. -/
structure Follows (capacity : Nat) (s : QueuedBuffer) : Prop where
  valid : s.tcpBuffer.Valid
  length_buffer : s.tcpBuffer.buffer.length = capacity
  agrees : s.Agrees

variable {capacity : Nat}

theorem follows_ofCapacity (capacity : Nat) : (ofCapacity capacity).Follows capacity := by
  refine ⟨TcpBuffer.Valid.ofCapacity capacity, List.length_replicate, ?_⟩
  change ((List.replicate capacity 0).take 0).drop 0 = _
  rw [List.take_zero, List.drop_nil]
  exact Fifo.contents_empty.symm

/-- An append that succeeds is one to the queue, and one that fails changes nothing. -/
theorem Follows.append {b : TcpBuffer} {q : Fifo Byte} (h : Follows capacity ⟨b, q⟩)
    (data : List Byte) :
    Follows capacity ⟨(b.append data).2, if (b.append data).1 then q.add data else q⟩ := by
  rcases h with ⟨hvalid, hlength, hagrees⟩
  by_cases hroom : b.HasRoom data.length
  · rw [if_pos (TcpBuffer.append_fst.mpr hroom)]
    refine ⟨hvalid.append_any data, ?_, ?_⟩
    · rw [TcpBuffer.append_length hvalid]
      exact hlength
    · unfold Agrees at *
      rw [TcpBuffer.view_append hvalid hroom, hagrees, Fifo.contents_add]
  · rw [if_neg (mt TcpBuffer.append_fst.mp hroom), TcpBuffer.append_of_not_hasRoom hroom]
    exact ⟨hvalid, hlength, hagrees⟩

theorem Follows.consume {b : TcpBuffer} {q : Fifo Byte} (h : Follows capacity ⟨b, q⟩)
    {length : Nat} (hsize : length ≤ b.size) :
    Follows capacity ⟨b.consume length, q.take length⟩ := by
  rcases h with ⟨hvalid, hlength, hagrees⟩
  refine ⟨hvalid.consume hsize, ?_, ?_⟩
  · rw [TcpBuffer.consume_length hvalid]
    exact hlength
  · unfold Agrees at *
    rw [TcpBuffer.view_consume hvalid, hagrees, Fifo.contents_take]

theorem Step.follows {s s' : QueuedBuffer} {access : Access} (h : Follows capacity s)
    (hstep : Step s access s') : Follows capacity s' := by
  cases hstep with
  | append b q data => exact h.append data
  | consume b q length hsize => exact h.consume hsize

/-- The contents follow the queue all along a run. -/
theorem Follows.run {s s' : QueuedBuffer} {t : List (QueuedBuffer × Access)}
    (h : Follows capacity s) (hrun : Trace Step s t s') :
    (∀ x ∈ t, Follows capacity x.1) ∧ Follows capacity s' :=
  hrun.preserved (fun _ _ _ hs hstep => hstep.follows hs) h

/-- An append fails for want of room that there is exactly if it needs the room in
    front of the contents. -/
theorem Follows.failsOnlyIfFull_iff {s : QueuedBuffer} (h : Follows capacity s)
    (access : Access) :
    s.FailsOnlyIfFull capacity access ↔ ¬ s.NeedsRoomInFront capacity access := by
  cases access with
  | append data =>
      have hend : s.tcpBuffer.startPos + s.tcpBuffer.size = s.tcpBuffer.endPos := by
        have hle := h.valid.start_le
        unfold TcpBuffer.size
        omega
      have hfails : (s.tcpBuffer.append data).1 = false ↔
          capacity < s.tcpBuffer.endPos + data.length := by
        rw [← Bool.not_eq_true, TcpBuffer.append_fst, TcpBuffer.HasRoom, h.length_buffer,
          Nat.not_le]
      unfold FailsOnlyIfFull NeedsRoomInFront
      simp only
      rw [hend, hfails]
      omega
  | consume length => exact iff_of_true trivial id

end QueuedBuffer

open QueuedBuffer

/-- All along a run the contents are what was appended without what was consumed of
    it, and no append fails that fits, exactly if no append needs the room in front of
    the contents. -/
theorem buffer_queue_iff (capacity : Nat) (s : QueuedBuffer) (t : List (QueuedBuffer × Access))
    (h : Trace Step (ofCapacity capacity) t s) :
    ((∀ x ∈ t, x.1.Agrees ∧ x.1.FailsOnlyIfFull capacity x.2) ∧ s.Agrees) ↔
      ∀ x ∈ t, ¬ x.1.NeedsRoomInFront capacity x.2 := by
  rcases (follows_ofCapacity capacity).run h with ⟨hall, hs⟩
  constructor
  · rintro ⟨hrun, -⟩ x hx
    exact ((hall x hx).failsOnlyIfFull_iff x.2).mp (hrun x hx).2
  · intro hrun
    refine ⟨fun x hx => ⟨(hall x hx).agrees, ?_⟩, hs.agrees⟩
    exact ((hall x hx).failsOnlyIfFull_iff x.2).mpr (hrun x hx)

/-- A buffer of three bytes, filled again after it was emptied. -/
theorem buffer_queue_iff_refill :
    (∀ x ∈ [(ofCapacity 3, Access.append [1, 2]),
        (⟨⟨[1, 2, 0], 0, 2⟩, ⟨[1, 2], 0, by decide⟩⟩, Access.consume 2),
        (⟨⟨[1, 2, 0], 0, 0⟩, ⟨[1, 2], 2, by decide⟩⟩, Access.append [3, 4, 5])],
      x.1.Agrees ∧ x.1.FailsOnlyIfFull 3 x.2) ∧
    QueuedBuffer.Agrees ⟨⟨[3, 4, 5], 0, 3⟩, ⟨[1, 2, 3, 4, 5], 2, by decide⟩⟩ := by
  refine (buffer_queue_iff 3 _ _ ?_).mpr ?_
  · refine Trace.cons _ _ _ _ _ (Step.append _ _ [1, 2]) ?_
    refine Trace.cons _ _ _ _ _ (Step.consume _ _ 2 (by decide)) ?_
    exact Trace.single (Step.append _ _ [3, 4, 5])
  · rw [List.forall_mem_cons, List.forall_mem_cons, List.forall_mem_singleton]
    unfold NeedsRoomInFront
    decide

/-- Of a buffer of two bytes one is free, and it is in front. -/
theorem not_buffer_queue :
    ¬ ∀ (capacity : Nat) (s : QueuedBuffer) (t : List (QueuedBuffer × Access)),
      Trace Step (ofCapacity capacity) t s →
        (∀ x ∈ t, x.1.Agrees ∧ x.1.FailsOnlyIfFull capacity x.2) ∧ s.Agrees := by
  intro hall
  have hrun : Trace Step (ofCapacity 2) _ _ :=
    Trace.cons _ _ _ _ _ (Step.append _ _ [1, 2])
      (Trace.cons _ _ _ _ _ (Step.consume _ _ 1 (by decide))
        (Trace.single (Step.append _ _ [3])))
  have hfails := ((hall 2 _ _ hrun).1 _ (List.mem_cons_of_mem _ (List.mem_cons_of_mem _
    List.mem_cons_self))).2
  exact absurd (hfails rfl) (by decide)

end Redis

end CodingChallenges
