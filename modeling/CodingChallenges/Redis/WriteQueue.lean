import CodingChallenges.Library.Fifo
import CodingChallenges.Redis.RespTypes

/-!
# Writing to a Client

How replies are written to the socket of a client: `write` and `handle_write` of
`Client.cpp`.

Several threads may call `write`, and what they pass has to go out in one piece. So
a payload is put into a queue first. The one in front is being written, and it
stays in front until its write has completed; then the next one is started. A
payload is started by `write` itself only if there is none in front of it.

Both functions hold the lock of the queue, so each is a step. In between a write may
complete at any time, and it does not matter whether it failed.

## Main definitions

* `Writer`: The queue of a client and its writes under way.
* `Writer.write`, `Writer.handleWrite`: The functions.
* `Writer.Step`: A call of `write`, or the completion of a write.
* `Writer.writtenIn`: What the calls of a run pass.
* `Writer.Follows`: The writer implements a queue of payloads.

## Theorems

* `Writer.Step.follows`: Every step is one of the queue.
* `Writer.writes_in_order`: Replies are written one at a time and in order.
-/

namespace CodingChallenges

namespace Redis

/-- What a client has to write. -/
structure Writer where
  /-- `m_write_queue`. -/
  writeQueue : List (List Byte)
  /-- The writes that were started and have not completed. -/
  outstanding : List (List Byte)
  /-- The payloads that were handed to `async_write` so far. -/
  handed : List (List Byte)
  /-- The payloads that were passed to `write` so far. -/
  passed : List (List Byte)

namespace Writer

/-- Nothing is queued. -/
def new : Writer :=
  ⟨[], [], [], []⟩

/-- Handing the payload in front to `async_write`. -/
def startWrite (w : Writer) : Writer :=
  match w.writeQueue with
  | [] => w
  | payload :: _ =>
    { w with
      outstanding := w.outstanding ++ [payload]
      handed := w.handed ++ [payload] }

/-- A payload is queued, and started unless one is under way. -/
def write (w : Writer) (payload : List Byte) : Writer :=
  let writeInProgress := w.writeQueue ≠ []
  let w := { w with
    writeQueue := w.writeQueue ++ [payload]
    passed := w.passed ++ [payload] }
  if writeInProgress then w else w.startWrite

/-- What happens when a write has completed. The error is not looked at. -/
def handleWrite (w : Writer) (_error : Bool) : Writer :=
  let w := { w with writeQueue := w.writeQueue.tail }
  if w.writeQueue ≠ [] then w.startWrite else w

/-- What can happen to a writer. -/
inductive Event where
  | write (payload : List Byte)
  | completed (payload : List Byte) (error : Bool)

/-- What a call of `write` passes. -/
def Event.passes : Event → Option (List Byte)
  | .write payload => some payload
  | .completed _ _ => none

/-- The payloads of the calls of `write` in a run. -/
def writtenIn (t : List (Writer × Event)) : List (List Byte) :=
  t.filterMap fun x => x.2.passes

/-- Any of the writes under way may complete. -/
inductive Step : Writer → Event → Writer → Prop where
  | write (w : Writer) (payload : List Byte) : Step w (.write payload) (w.write payload)
  | completed (queue before after handed passed : List (List Byte)) (payload : List Byte)
      (error : Bool) :
      Step ⟨queue, before ++ payload :: after, handed, passed⟩ (.completed payload error)
        (handleWrite ⟨queue, before ++ after, handed, passed⟩ error)

/-- The payloads in the queue are those that were passed and whose writes have not
    completed, and the one in front is being written. -/
structure Follows (w : Writer) (q : Fifo (List Byte)) : Prop where
  contents : w.writeQueue = q.contents
  added : w.passed = q.added
  outstanding : w.outstanding = q.contents.take 1
  handed : w.handed = q.added.take q.taken ++ q.contents.take 1

theorem follows_new : new.Follows Fifo.empty :=
  ⟨rfl, rfl, rfl, rfl⟩

/-- A call of `write` is an addition to the queue. -/
theorem Follows.write {w : Writer} {q : Fifo (List Byte)} (h : w.Follows q)
    (payload : List Byte) : (w.write payload).Follows (q.add [payload]) := by
  rcases w with ⟨queue, outstanding, handed, passed⟩
  rcases h with ⟨rfl, rfl, rfl, rfl⟩
  have hcontents := q.contents_add [payload]
  have htaken := q.take_add [payload]
  unfold Writer.write
  simp only
  split
  · next hbusy =>
      -- The payload in front stays the same.
      have hfront : (q.contents ++ [payload]).take 1 = q.contents.take 1 :=
        List.take_append_of_le_length (List.length_pos_iff.mpr hbusy)
      refine ⟨hcontents.symm, rfl, ?_, ?_⟩
      · rw [hcontents, hfront]
      · rw [hcontents, hfront]
        exact congrArg (· ++ q.contents.take 1) htaken.symm
  · next hidle =>
      have hnil : q.contents = [] := not_not.mp hidle
      rw [hnil, List.nil_append] at hcontents ⊢
      refine ⟨hcontents.symm, rfl, ?_, ?_⟩
      · rw [hcontents]
        rfl
      · rw [hcontents]
        change q.added.take q.taken ++ [] ++ [payload] = _
        rw [List.append_nil]
        exact congrArg (· ++ [payload]) htaken.symm

/-- There is something to complete only if there is something in the queue, and then it
    is what is in front. -/
theorem Follows.front {queue before after handed passed : List (List Byte)}
    {payload : List Byte} {q : Fifo (List Byte)}
    (h : Follows ⟨queue, before ++ payload :: after, handed, passed⟩ q) :
    before = [] ∧ after = [] ∧ q.contents = payload :: q.contents.tail := by
  have hfront := h.outstanding
  simp only at hfront
  cases hcontents : q.contents with
  | nil =>
      rw [hcontents, List.take_nil] at hfront
      exact absurd hfront (List.append_ne_nil_of_right_ne_nil _ (List.cons_ne_nil _ _))
  | cons first rest =>
      rw [hcontents, List.take_succ_cons, List.take_zero] at hfront
      -- One payload in all leaves none on either side.
      have hlength := congrArg List.length hfront
      rw [List.length_append, List.length_cons, List.length_singleton] at hlength
      have hbefore : before = [] := List.length_eq_zero_iff.mp (by omega)
      have hafter : after = [] := List.length_eq_zero_iff.mp (by omega)
      subst hbefore hafter
      rw [List.nil_append, List.cons.injEq] at hfront
      rw [hfront.1, List.tail_cons]
      exact ⟨rfl, rfl, rfl⟩

/-- A write that completes takes its payload out of the queue. -/
theorem Follows.handleWrite {queue before after handed passed : List (List Byte)}
    {payload : List Byte} {q : Fifo (List Byte)}
    (h : Follows ⟨queue, before ++ payload :: after, handed, passed⟩ q) (error : Bool) :
    (Writer.handleWrite ⟨queue, before ++ after, handed, passed⟩ error).Follows (q.take 1) := by
  rcases h.front with ⟨rfl, rfl, hfront⟩
  rcases h with ⟨rfl, rfl, -, rfl⟩
  have htail : (q.take 1).contents = q.contents.tail := by
    rw [q.contents_take, List.drop_one]
  have htaken := q.take_take 1
  unfold Writer.handleWrite
  simp only
  rw [← htail]
  split
  · next hmore =>
      -- The next payload is started.
      rcases List.exists_cons_of_ne_nil hmore with ⟨next, rest, hnext⟩
      have hstarted : (q.take 1).contents.take 1 = [next] := by
        rw [hnext]
        rfl
      refine ⟨?_, ?_, ?_, ?_⟩
      · unfold startWrite
        rw [hnext]
      · unfold startWrite
        rw [hnext]
        rfl
      · rw [hstarted]
        unfold startWrite
        rw [hnext]
        rfl
      · rw [hstarted, htaken]
        unfold startWrite
        rw [hnext]
  · next hdone =>
      have hnil : (q.take 1).contents = [] := not_not.mp hdone
      refine ⟨rfl, rfl, ?_, ?_⟩
      · rw [hnil]
        rfl
      · rw [hnil, htaken, List.take_nil, List.append_nil, List.append_nil]

/-- Every step is one of the queue. -/
theorem Step.follows {w w' : Writer} {event : Event} (hstep : Step w event w')
    (h : ∃ q, w.Follows q) : ∃ q, w'.Follows q := by
  rcases h with ⟨q, h⟩
  cases hstep with
  | write w payload => exact ⟨q.add [payload], h.write payload⟩
  | completed queue before after handed passed payload error =>
      exact ⟨q.take 1, h.handleWrite error⟩

/-- At most one write is under way, and one is exactly if there is something in the
    queue. What was handed over is a prefix of what was passed. -/
structure InOrder (w : Writer) : Prop where
  one_at_a_time : w.outstanding.length ≤ 1
  busy_iff : w.outstanding.length = 1 ↔ w.writeQueue ≠ []
  handed_prefix : w.handed <+: w.passed

theorem Follows.inOrder {w : Writer} {q : Fifo (List Byte)} (h : w.Follows q) : w.InOrder := by
  refine ⟨?_, ?_, ?_⟩
  · rw [h.outstanding]
    exact List.length_take_le 1 q.contents
  · rw [h.outstanding, h.contents, ← List.length_pos_iff, List.length_take]
    omega
  · rw [h.handed, h.added, ← q.take_take 1]
    exact List.take_prefix _ _

theorem passed_startWrite (w : Writer) : w.startWrite.passed = w.passed := by
  unfold startWrite
  split <;> rfl

/-- A call passes its payload, and a write that has completed passes nothing. -/
theorem Step.passed {w w' : Writer} {event : Event} (h : Step w event w') :
    w'.passed = w.passed ++ event.passes.toList := by
  cases h with
  | write w payload =>
      unfold Writer.write
      simp only
      split_ifs
      · rfl
      · exact passed_startWrite _
  | completed queue before after handed passed payload error =>
      refine Eq.trans ?_ (List.append_nil passed).symm
      unfold Writer.handleWrite
      simp only
      split_ifs
      · exact passed_startWrite _
      · rfl

/-- What was passed are the payloads of the calls. -/
theorem passed_run {w w' : Writer} {t : List (Writer × Event)} (h : Trace Step w t w') :
    w'.passed = w.passed ++ writtenIn t := by
  induction h with
  | nil w => exact (List.append_nil _).symm
  | cons w event next t w' hstep _ ih =>
      rw [ih, hstep.passed, List.append_assoc, writtenIn, writtenIn, List.filterMap_cons]
      cases event <;> rfl

/-- Replies are written one at a time and in order, whatever calls and completions
    come in between. -/
theorem writes_in_order (w : Writer) (t : List (Writer × Event)) (h : Trace Step new t w) :
    w.InOrder ∧ w.passed = writtenIn t := by
  have hfollows : ∃ q, w.Follows q :=
    (h.preserved (fun _ _ _ hw hstep => hstep.follows hw) ⟨Fifo.empty, follows_new⟩).2
  rcases hfollows with ⟨q, hq⟩
  exact ⟨hq.inOrder, passed_run h⟩

/-- Two payloads, the first of which fails to be written. -/
theorem writes_in_order_two :
    InOrder ⟨[bytes "b"], [bytes "b"], [bytes "a", bytes "b"], [bytes "a", bytes "b"]⟩ := by
  have hrun : Trace Step new _ _ :=
    Trace.cons _ _ _ _ _ (Step.write new (bytes "a"))
      (Trace.cons _ _ _ _ _ (Step.write _ (bytes "b"))
        (Trace.single (Step.completed _ [] [] _ _ (bytes "a") true)))
  exact (writes_in_order _ _ hrun).1

end Writer

end Redis

end CodingChallenges
