import CodingChallenges.Redis.Server
import CodingChallenges.Redis.TcpBuffer
import CodingChallenges.Redis.Truncation

/-!
# Reading from a Client

What happens to the bytes that arrive from a client: `Client.cpp`.

What the callback is not done with is kept in the input buffer and put in front
of the next read. There are two ways through a read. With an empty buffer the
callback sees the bytes that have arrived, and only what it leaves goes to the
buffer. Otherwise everything goes to the buffer first and the callback sees the
buffer, unless there is no room for it: then the bytes are gone.

For streams of messages that never happens. A message has at most as many bytes
as a read, so what is pending is less than that, and the start of the buffer
does not stay behind its middle; both together leave room for another read
(`Steady`).

## Main definitions

* `Connection`: A client, its processor, and what has happened so far.
* `handleRead`: What a read does.
* `runReads`: Several reads, one after the other.

## Theorems

* `handleRead_kept_iff`: When a read loses nothing.
* `runReads_lossless_iff`: When nothing that was received is lost.
* `handleRead_stream`: A read of a stream of messages.
* `runReads_chunks`: How a stream is cut into reads does not matter.
-/

namespace CodingChallenges

namespace Redis

open Framing

/-- The size of a read. -/
abbrev readSize : Nat := 2048

/-- The size of the input buffer. -/
abbrev bufferCapacity : Nat := 8192

/-- A client and its processor. What has happened on the connection so far is kept
    beside them. -/
structure Connection (σ : Type) where
  inputBuffer : TcpBuffer
  processor : σ
  /-- The commands that were handed to the processor. -/
  executed : List RespType
  /-- What was written to the client. -/
  written : List (List Byte)
  /-- The bytes that were reported as processed. -/
  processed : List Byte
  /-- Whether every append has succeeded. -/
  appended : Bool
  /-- Whether another read is started. -/
  reading : Bool

/-- What the owner of a connection does once a read has completed. -/
abbrev ReadCallback (σ : Type) :=
  σ → List Byte → Option ReadError → Nat → ReadDone σ

variable {σ : Type}

/-- A connection before the first read. -/
def Connection.new (processor : σ) : Connection σ :=
  ⟨TcpBuffer.ofCapacity bufferCapacity, processor, [], [], [], true, true⟩

/-- What the callback did to what it was shown. -/
def Connection.record (c : Connection σ) (view : List Byte) (done : ReadDone σ) : Connection σ :=
  { c with
    processor := done.processor
    executed := c.executed ++ done.executed
    written := c.written ++ done.written
    processed := c.processed ++ view.take done.processedBytes }

/-- The completion handler of a read. The callback sees what is pending and what has arrived. -/
def handleRead (onReadDone : ReadCallback σ) (c : Connection σ) (data : List Byte)
    (error : Option ReadError) : Connection σ :=
  let reading := decide (error ≠ some .connectionReset ∧ error ≠ some .eof)
  -- Something is pending: the callback is shown it together with what has arrived.
  if c.inputBuffer.empty = false then
    let (appended, inputBuffer) := c.inputBuffer.append data
    if appended then
      let done := onReadDone c.processor inputBuffer.view error data.length
      { c.record inputBuffer.view done with
        inputBuffer := inputBuffer.consume done.processedBytes
        reading := reading }
    -- There is no branch for this in the source: the read is dropped.
    else { c with appended := false, reading := reading }
  else
    let done := onReadDone c.processor data error data.length
    if done.processedBytes < data.length then
      -- Whether this append succeeds is not looked at.
      let (appended, inputBuffer) := c.inputBuffer.append (data.drop done.processedBytes)
      { c.record data done with
        inputBuffer := inputBuffer
        appended := c.appended && appended
        reading := reading }
    else { c.record data done with reading := reading }

/-- Several successful reads, one after the other. -/
def runReads (onReadDone : ReadCallback σ) (c : Connection σ) (reads : List (List Byte)) :
    Connection σ :=
  reads.foldl (fun c data => handleRead onReadDone c data none) c

theorem runReads_append (onReadDone : ReadCallback σ) (c : Connection σ)
    (reads others : List (List Byte)) :
    runReads onReadDone c (reads ++ others) =
      runReads onReadDone (runReads onReadDone c reads) others :=
  List.foldl_append

/-- The buffer is valid and has the size it was made with. -/
structure Connection.Valid (c : Connection σ) : Prop where
  buffer : c.inputBuffer.Valid
  capacity : c.inputBuffer.buffer.length = bufferCapacity

/-- The buffer holds no more than its size. -/
theorem Connection.Valid.length_view_le {c : Connection σ} (h : c.Valid) :
    c.inputBuffer.view.length ≤ bufferCapacity := by
  have hend := h.buffer.end_le
  rw [h.capacity] at hend
  rw [h.buffer.length_view]
  exact Nat.le_trans (Nat.sub_le _ _) hend

theorem Connection.Valid.new (processor : σ) : (Connection.new processor).Valid :=
  ⟨TcpBuffer.Valid.ofCapacity bufferCapacity, List.length_replicate⟩

/-- The callback never reports more than it was shown. -/
def Bounded (onReadDone : ReadCallback σ) : Prop :=
  ∀ processor view bytesTransferred,
    (onReadDone processor view none bytesTransferred).processedBytes ≤ view.length

/-- A read that socket and read buffer can deliver. -/
def IsRead (data : List Byte) : Prop :=
  data ≠ [] ∧ data.length ≤ readSize

/-- There is room for what arrives while something is pending. -/
def Connection.Fits (c : Connection σ) (data : List Byte) : Prop :=
  c.inputBuffer.view ≠ [] → c.inputBuffer.HasRoom data.length

section Cases

variable {onReadDone : ReadCallback σ} {c : Connection σ} {data : List Byte}

/-- A read while something is pending, if there is room for it. -/
theorem handleRead_pending (hvalid : c.Valid) (hpending : c.inputBuffer.view ≠ [])
    (hroom : c.inputBuffer.HasRoom data.length) :
    handleRead onReadDone c data none =
      let inputBuffer := (c.inputBuffer.append data).2
      let done := onReadDone c.processor inputBuffer.view none data.length
      { c.record inputBuffer.view done with
        inputBuffer := inputBuffer.consume done.processedBytes
        reading := true } := by
  have hempty : c.inputBuffer.empty = false :=
    Bool.eq_false_iff.mpr (mt hvalid.buffer.empty_iff.mp hpending)
  unfold handleRead
  simp only
  rw [if_pos hempty, if_pos (TcpBuffer.append_fst.mpr hroom)]
  rfl

/-- A read while something is pending, if there is no room for it. -/
theorem handleRead_full (hvalid : c.Valid) (hpending : c.inputBuffer.view ≠ [])
    (hroom : ¬ c.inputBuffer.HasRoom data.length) :
    handleRead onReadDone c data none = { c with appended := false, reading := true } := by
  have hempty : c.inputBuffer.empty = false :=
    Bool.eq_false_iff.mpr (mt hvalid.buffer.empty_iff.mp hpending)
  unfold handleRead
  simp only
  rw [if_pos hempty, if_neg (mt TcpBuffer.append_fst.mp hroom)]
  rfl

/-- An empty buffer has room for what is left of a read. -/
theorem hasRoom_of_empty (hvalid : c.Valid) (hempty : c.inputBuffer.view = [])
    (hread : data.length ≤ readSize) (processed : Nat) :
    c.inputBuffer.HasRoom (data.drop processed).length := by
  unfold TcpBuffer.HasRoom
  rw [hvalid.buffer.endPos_eq_zero hempty, hvalid.capacity, List.length_drop]
  unfold readSize at hread
  unfold bufferCapacity
  omega

/-- A read while nothing is pending. -/
theorem handleRead_empty (hvalid : c.Valid) (hempty : c.inputBuffer.view = [])
    (hread : data.length ≤ readSize) :
    handleRead onReadDone c data none =
      let done := onReadDone c.processor data none data.length
      { c.record data done with
        inputBuffer :=
          if done.processedBytes < data.length then
            (c.inputBuffer.append (data.drop done.processedBytes)).2
          else c.inputBuffer
        reading := true } := by
  have hnot : ¬ c.inputBuffer.empty = false := by
    rw [Bool.not_eq_false]
    exact hvalid.buffer.empty_iff.mpr hempty
  unfold handleRead
  simp only
  rw [if_neg hnot]
  split
  · have happend := TcpBuffer.append_fst.mpr (hasRoom_of_empty hvalid hempty hread
      (onReadDone c.processor data none data.length).processedBytes)
    rw [happend, Bool.and_true]
    rfl
  · rfl

end Cases

section Lossless

variable {onReadDone : ReadCallback σ} {c : Connection σ} {data : List Byte}

/-- The bytes that were received: what was processed, and what is kept. -/
def Connection.accounted (c : Connection σ) : List Byte :=
  c.processed ++ c.inputBuffer.view

/-- A read keeps the buffer valid, and loses nothing if it fits. -/
theorem handleRead_accounted (hbounded : Bounded onReadDone) (hvalid : c.Valid)
    (hread : IsRead data) :
    (handleRead onReadDone c data none).Valid ∧
      (handleRead onReadDone c data none).accounted =
        c.accounted ++ if c.inputBuffer.view ≠ [] ∧ ¬ c.inputBuffer.HasRoom data.length then []
          else data := by
  rcases hread with ⟨hne, hsize⟩
  unfold Connection.accounted
  by_cases hempty : c.inputBuffer.view = []
  · -- The callback sees what has arrived.
    rw [handleRead_empty hvalid hempty hsize, if_neg fun h => h.1 hempty, hempty]
    have hbound := hbounded c.processor data data.length
    simp only [Connection.record]
    by_cases hleft : (onReadDone c.processor data none data.length).processedBytes < data.length
    · have hdrop : data.drop (onReadDone c.processor data none data.length).processedBytes ≠ [] :=
        List.ne_nil_of_length_pos (by rw [List.length_drop]; omega)
      have hroom := hasRoom_of_empty hvalid hempty hsize
        (onReadDone c.processor data none data.length).processedBytes
      rw [if_pos hleft]
      refine ⟨⟨hvalid.buffer.append hdrop, ?_⟩, ?_⟩
      · rw [TcpBuffer.append_length hvalid.buffer]
        exact hvalid.capacity
      · rw [TcpBuffer.view_append hvalid.buffer hroom, hempty, List.nil_append, List.append_nil,
          List.append_assoc, List.take_append_drop]
    · rw [if_neg hleft]
      refine ⟨⟨hvalid.buffer, hvalid.capacity⟩, ?_⟩
      rw [hempty, List.append_nil, List.append_nil, List.take_of_length_le (by omega)]
  · by_cases hroom : c.inputBuffer.HasRoom data.length
    · -- The callback sees the buffer.
      rw [handleRead_pending hvalid hempty hroom, if_neg fun h => h.2 hroom]
      have hview := TcpBuffer.view_append hvalid.buffer hroom
      have hvalid' : (c.inputBuffer.append data).2.Valid := hvalid.buffer.append hne
      -- What the callback is done with was in the buffer, so it can be taken from it.
      have hbound := hbounded c.processor (c.inputBuffer.append data).2.view data.length
      rw [hvalid'.length_view] at hbound
      simp only [Connection.record]
      refine ⟨⟨hvalid'.consume hbound, ?_⟩, ?_⟩
      · rw [TcpBuffer.consume_length hvalid', TcpBuffer.append_length hvalid.buffer]
        exact hvalid.capacity
      · rw [TcpBuffer.view_consume hvalid', List.append_assoc, List.take_append_drop, hview,
          List.append_assoc]
    · rw [handleRead_full hvalid hempty hroom, if_pos ⟨hempty, hroom⟩, List.append_nil]
      exact ⟨⟨hvalid.buffer, hvalid.capacity⟩, rfl⟩

/-- A read loses nothing exactly if it fits. -/
theorem handleRead_kept_iff (hbounded : Bounded onReadDone) (hvalid : c.Valid)
    (hread : IsRead data) :
    (handleRead onReadDone c data none).accounted = c.accounted ++ data ↔ c.Fits data := by
  rw [(handleRead_accounted hbounded hvalid hread).2, List.append_cancel_left_eq]
  unfold Connection.Fits
  by_cases hlost : c.inputBuffer.view ≠ [] ∧ ¬ c.inputBuffer.HasRoom data.length
  · rw [if_pos hlost]
    exact iff_of_false (fun h => hread.1 h.symm) (fun h => hlost.2 (h hlost.1))
  · rw [if_neg hlost]
    exact iff_of_true rfl fun hpending => not_not.mp fun hroom => hlost ⟨hpending, hroom⟩

theorem runReads_valid (hbounded : Bounded onReadDone) (reads : List (List Byte)) :
    ∀ c : Connection σ, c.Valid → (∀ data ∈ reads, IsRead data) →
      (runReads onReadDone c reads).Valid := by
  induction reads with
  | nil => exact fun c hvalid _ => hvalid
  | cons data reads ih =>
      intro c hvalid hreads
      -- The first read keeps the connection valid, and the others follow.
      rcases List.forall_mem_cons.mp hreads with ⟨hread, hothers⟩
      exact ih _ (handleRead_accounted hbounded hvalid hread).1 hothers

/-- The connection after the first `n` reads. -/
def after (onReadDone : ReadCallback σ) (processor : σ) (reads : List (List Byte)) (n : Nat) :
    Connection σ :=
  runReads onReadDone (Connection.new processor) (reads.take n)

theorem after_succ {processor : σ} {reads : List (List Byte)} {n : Nat}
    (h : reads[n]? = some data) :
    after onReadDone processor reads (n + 1) =
      handleRead onReadDone (after onReadDone processor reads n) data none := by
  unfold after
  rw [List.take_add_one, h, Option.toList_some, runReads_append]
  rfl

/-- At no time anything that was received is missing, exactly if every read fits
    that arrives while something is pending. -/
theorem runReads_lossless_iff (onReadDone : ReadCallback σ) (hbounded : Bounded onReadDone)
    (processor : σ) (reads : List (List Byte)) (hreads : ∀ data ∈ reads, IsRead data) :
    (∀ n, (after onReadDone processor reads n).processed ++
        (after onReadDone processor reads n).inputBuffer.view = (reads.take n).flatten) ↔
      ∀ n data, reads[n]? = some data → (after onReadDone processor reads n).Fits data := by
  have hvalid : ∀ n, (after onReadDone processor reads n).Valid := fun n =>
    runReads_valid hbounded _ _ (Connection.Valid.new processor)
      fun data hdata => hreads data (List.mem_of_mem_take hdata)
  constructor
  · intro h n data hdata
    rw [← handleRead_kept_iff hbounded (hvalid n) (hreads data (List.mem_of_getElem? hdata)),
      ← after_succ hdata]
    unfold Connection.accounted
    rw [h (n + 1), h n, List.take_add_one, hdata, Option.toList_some, List.flatten_append,
      List.flatten_singleton]
  · intro h n
    induction n with
    | zero => rfl
    | succ n ih =>
        cases hdata : reads[n]? with
        | none =>
            -- There is no read any more.
            have htake : reads.take (n + 1) = reads.take n := by
              rw [List.take_add_one, hdata, Option.toList_none, List.append_nil]
            unfold after at ih ⊢
            rw [htake]
            exact ih
        | some data =>
            have hkept := (handleRead_kept_iff hbounded (hvalid n)
              (hreads data (List.mem_of_getElem? hdata))).mpr (h n data hdata)
            rw [← after_succ hdata] at hkept
            unfold Connection.accounted at hkept
            rw [hkept, ih, List.take_add_one, hdata, Option.toList_some, List.flatten_append,
              List.flatten_singleton]

/-- Three reads, and a callback that is done with messages of four bytes: two of the reads arrive
    while the beginning of a message is pending. -/
theorem runReads_lossless_iff_fours :
    (after (fun s view _ _ => ⟨s, [], [], false, true, view.length / 4 * 4⟩) ()
        [bytes "PI", bytes "NGECH", bytes "OP"] 3).processed ++
      (after (fun s view _ _ => ⟨s, [], [], false, true, view.length / 4 * 4⟩) ()
        [bytes "PI", bytes "NGECH", bytes "OP"] 3).inputBuffer.view = bytes "PINGECHOP" := by
  have hreads : ∀ data ∈ [bytes "PI", bytes "NGECH", bytes "OP"], IsRead data :=
    List.forall_mem_cons.mpr ⟨⟨List.cons_ne_nil _ _, by decide⟩, List.forall_mem_cons.mpr
      ⟨⟨List.cons_ne_nil _ _, by decide⟩, List.forall_mem_singleton.mpr
        ⟨List.cons_ne_nil _ _, by decide⟩⟩⟩
  refine (runReads_lossless_iff (fun s view _ _ => ⟨s, [], [], false, true, view.length / 4 * 4⟩)
    (fun _ view _ => Nat.div_mul_le_self view.length 4) () _ hreads).mpr (fun n data hdata => ?_) 3
  match n with
  | 0 => exact fun hpending => absurd rfl hpending
  | 1 =>
      cases hdata
      exact fun _ => by decide +kernel
  | 2 =>
      cases hdata
      exact fun _ => by decide +kernel
  | n + 3 => cases hdata

/-- A callback that is waiting for the rest of a message is done with nothing. -/
theorem processed_waiting (reads : List (List Byte)) :
    ∀ c : Connection Unit, c.processed = [] →
      (runReads (fun s _ _ _ => ⟨s, [], [], false, false, 0⟩) c reads).processed = [] := by
  induction reads with
  | nil => exact fun c h => h
  | cons data reads ih =>
      intro c h
      refine ih _ ?_
      unfold handleRead
      simp only [Connection.record, List.take_zero, List.append_nil]
      split
      · split <;> exact h
      · split <;> exact h

/-- Five full reads of a message that is not complete, and the fifth is lost. -/
theorem runReads_loses :
    ¬ ∀ (onReadDone : ReadCallback Unit) (reads : List (List Byte)), Bounded onReadDone →
      (∀ data ∈ reads, IsRead data) →
      ∀ n, (after onReadDone () reads n).processed ++
        (after onReadDone () reads n).inputBuffer.view = (reads.take n).flatten := by
  intro h
  have hreads : ∀ data ∈ List.replicate 5 (List.replicate readSize (0 : Byte)), IsRead data := by
    intro data hdata
    rw [(List.mem_replicate.mp hdata).2]
    exact ⟨List.ne_nil_of_length_pos (by rw [List.length_replicate]; decide),
      Nat.le_of_eq List.length_replicate⟩
  have hbounded : Bounded fun (s : Unit) _ _ _ => ⟨s, [], [], false, false, 0⟩ :=
    fun _ _ _ => Nat.zero_le _
  have hkept := congrArg List.length (h _ _ hbounded hreads 5)
  have hvalid := runReads_valid hbounded _ _ (Connection.Valid.new ()) hreads
  -- The buffer would have to hold all of it.
  unfold after at hkept
  rw [List.take_of_length_le (Nat.le_of_eq List.length_replicate), processed_waiting _ _ rfl,
    List.nil_append, List.flatten_replicate_replicate, List.length_replicate] at hkept
  have hle := hvalid.length_view_le
  rw [hkept] at hle
  exact absurd hle (by decide)

end Lossless

section Streams

/-- A message that a read can hold. -/
def IsFrame (v : RespType) : Prop :=
  v.NoNull ∧ v.Delimited ∧ (generate v).length ≤ readSize

/-- Whole messages are executed and answered in order, and the beginning of the
    next one is left. -/
theorem onReadDone_cut (process : Process σ) (processor : σ) {front back : List RespType}
    {message more : List Byte} (hframes : ∀ v ∈ front ++ back, IsFrame v)
    (hmore : Pending generate more back) (hcut : message = front.flatMap generate ++ more)
    (hne : message ≠ []) (hsize : message.length < sizeBound) (bytesTransferred : Nat) :
    let done := onReadDone process processor message none bytesTransferred
    done.executed = front ∧ done.processor = runCommands process processor front ∧
      done.written.flatten = repliesTo process processor front ∧
      done.processedBytes = (front.flatMap generate).length := by
  have hfits : ∀ v ∈ back, (generate v).length < sizeBound := fun v hv =>
    Nat.lt_of_le_of_lt (hframes v (List.mem_append_right _ hv)).2.2 (by decide)
  have hfront : (front.flatMap generate).length < sizeBound := by
    rw [hcut, List.length_append] at hsize
    omega
  rcases reads_cut (fun v hv => (hframes v hv).1) (fun v hv => (hframes v hv).2.1) hfront hfits
    hmore with ⟨results, hreads, hincomplete⟩
  rw [← hcut] at hreads
  -- Behind the whole messages nothing is read that is complete, and the loop changes nothing.
  rcases handleResults_incomplete process results
    ⟨runCommands process processor front, front, repliesTo process processor front, false,
      (front.flatMap generate).length⟩ hincomplete with ⟨wait, hwait⟩
  simp only
  rw [onReadDone_of_reads process processor hne hreads bytesTransferred, if_pos rfl,
    handleResults_frames process front 0 results _ rfl]
  simp only [List.nil_append, Nat.zero_add]
  rw [hwait]
  refine ⟨rfl, rfl, ?_, rfl⟩
  -- Nothing is written if there is nothing to reply.
  by_cases hnone : repliesTo process processor front = []
  · rw [if_pos hnone, hnone]
    rfl
  · rw [if_neg hnone, List.flatten_singleton]

/-- The buffer is valid, every append has succeeded, and the start is not behind
    the middle. What was written answers what was executed. -/
structure Connection.Steady (process : Process σ) (processor : σ) (c : Connection σ) : Prop where
  valid : c.Valid
  appended : c.appended = true
  start_le : c.inputBuffer.startPos ≤ bufferCapacity / 2
  processor_eq : c.processor = runCommands process processor c.executed
  written_eq : c.written.flatten = repliesTo process processor c.executed

theorem Connection.Steady.new (process : Process σ) (processor : σ) :
    (Connection.new processor).Steady process processor :=
  ⟨Connection.Valid.new processor, rfl, Nat.zero_le _, rfl, rfl⟩

/-- What the callback did answers what it executed. -/
theorem Connection.Steady.record {process : Process σ} {processor : σ} {c : Connection σ}
    {front : List RespType} {done : ReadDone σ} (h : c.Steady process processor)
    (view : List Byte) (hexecuted : done.executed = front)
    (hprocessor : done.processor = runCommands process c.processor front)
    (hwritten : done.written.flatten = repliesTo process c.processor front) :
    (c.record view done).executed = c.executed ++ front ∧
      (c.record view done).processor =
        runCommands process processor (c.record view done).executed ∧
      (c.record view done).written.flatten =
        repliesTo process processor (c.record view done).executed := by
  simp only [Connection.record, hexecuted]
  refine ⟨trivial, ?_, ?_⟩
  · rw [hprocessor, h.processor_eq, runCommands_append]
  · rw [List.flatten_append, h.written_eq, hwritten, h.processor_eq, repliesTo_append]

/-- What is pending of a message is less than a read. -/
theorem length_pending {pending : List Byte} {values : List RespType}
    (hframes : ∀ v ∈ values, IsFrame v) (hpending : Pending generate pending values) :
    pending.length < readSize := by
  rcases hpending with rfl | ⟨v, others, rfl, -, -, hlt⟩
  · exact Nat.pos_of_ne_zero (by decide)
  · exact Nat.lt_of_lt_of_le hlt (hframes v List.mem_cons_self).2.2

/-- A read of a stream of messages while nothing is pending. -/
theorem handleRead_stream_empty (process : Process σ) {processor : σ} {c : Connection σ}
    {data : List Byte} {front back : List RespType} {more : List Byte}
    (hsteady : c.Steady process processor) (hread : IsRead data)
    (hframes : ∀ v ∈ front ++ back, IsFrame v) (hmore : Pending generate more back)
    (hempty : c.inputBuffer.view = []) (hcut : data = front.flatMap generate ++ more) :
    (handleRead (onReadDone process) c data none).Steady process processor ∧
      (handleRead (onReadDone process) c data none).executed = c.executed ++ front ∧
      (handleRead (onReadDone process) c data none).inputBuffer.view = more := by
  have hvalid := hsteady.valid
  have hsize : data.length < sizeBound := Nat.lt_of_le_of_lt hread.2 (by decide)
  rcases onReadDone_cut process c.processor hframes hmore hcut hread.1 hsize data.length
    with ⟨hexecuted, hprocessor, hwritten, hprocessed⟩
  rcases hsteady.record data hexecuted hprocessor hwritten with ⟨hexec, hproc, hwrit⟩
  have hdrop : data.drop (front.flatMap generate).length = more := by
    rw [hcut, List.drop_left]
  have hlen := congrArg List.length hcut
  rw [List.length_append] at hlen
  have hroom := hasRoom_of_empty hvalid hempty hread.2 (front.flatMap generate).length
  rw [handleRead_empty hvalid hempty hread.2]
  simp only
  rw [hprocessed]
  by_cases hleft : (front.flatMap generate).length < data.length
  · -- What is left is kept in the buffer.
    rw [hdrop] at hroom
    rw [if_pos hleft, hdrop]
    have hne : more ≠ [] := List.ne_nil_of_length_pos (by omega)
    refine ⟨⟨⟨hvalid.buffer.append hne, ?_⟩, hsteady.appended, ?_, hproc, hwrit⟩, hexec, ?_⟩
    · rw [TcpBuffer.append_length hvalid.buffer]
      exact hvalid.capacity
    · rw [(TcpBuffer.append_endPos hroom).1]
      exact hsteady.start_le
    · rw [TcpBuffer.view_append hvalid.buffer hroom, hempty, List.nil_append]
  · -- Nothing is left, and the buffer is not touched.
    rw [if_neg hleft]
    have hnil : more = [] := List.eq_nil_of_length_eq_zero (by omega)
    refine ⟨⟨⟨hvalid.buffer, hvalid.capacity⟩, hsteady.appended, hsteady.start_le, hproc, hwrit⟩,
      hexec, ?_⟩
    rw [hempty, hnil]

/-- A read of a stream of messages while the beginning of one is pending. -/
theorem handleRead_stream_pending (process : Process σ) {processor : σ} {c : Connection σ}
    {data : List Byte} {front back : List RespType} {more : List Byte}
    (hsteady : c.Steady process processor) (hread : IsRead data)
    (hframes : ∀ v ∈ front ++ back, IsFrame v) (hmore : Pending generate more back)
    (hne : c.inputBuffer.view ≠ []) (hshort : c.inputBuffer.view.length < readSize)
    (hcut : c.inputBuffer.view ++ data = front.flatMap generate ++ more) :
    (handleRead (onReadDone process) c data none).Steady process processor ∧
      (handleRead (onReadDone process) c data none).executed = c.executed ++ front ∧
      (handleRead (onReadDone process) c data none).inputBuffer.view = more := by
  have hvalid := hsteady.valid
  have hcapacity := hvalid.capacity
  have hread' := hread.2
  -- The start is in the first half, and neither the pending bytes nor the read
  -- are longer than a quarter.
  have hroom : c.inputBuffer.HasRoom data.length := by
    have hlen := hvalid.buffer.length_view
    have hstart := hsteady.start_le
    have hle := hvalid.buffer.start_le
    unfold TcpBuffer.size at hlen
    unfold TcpBuffer.HasRoom
    unfold readSize at hshort hread'
    unfold bufferCapacity at hstart hcapacity
    omega
  have hview := TcpBuffer.view_append hvalid.buffer hroom
  have hvalid' : (c.inputBuffer.append data).2.Valid := hvalid.buffer.append hread.1
  have hlength : (c.inputBuffer.append data).2.buffer.length = c.inputBuffer.buffer.length :=
    TcpBuffer.append_length hvalid.buffer
  rw [← hview] at hcut
  have hne' : (c.inputBuffer.append data).2.view ≠ [] := by
    rw [hview]
    exact List.append_ne_nil_of_left_ne_nil hne data
  have hsize : (c.inputBuffer.append data).2.view.length < sizeBound := by
    rw [hview, List.length_append]
    unfold readSize at hshort hread'
    unfold sizeBound
    omega
  rcases onReadDone_cut process c.processor hframes hmore hcut hne' hsize data.length
    with ⟨hexecuted, hprocessor, hwritten, hprocessed⟩
  rcases hsteady.record (c.inputBuffer.append data).2.view hexecuted hprocessor hwritten
    with ⟨hexec, hproc, hwrit⟩
  have hbound : (front.flatMap generate).length ≤ (c.inputBuffer.append data).2.size := by
    rw [← hvalid'.length_view, hcut, List.length_append]
    exact Nat.le_add_right _ _
  rw [handleRead_pending hvalid hne hroom]
  simp only
  rw [hprocessed]
  refine ⟨⟨⟨hvalid'.consume hbound, ?_⟩, hsteady.appended, ?_, hproc, hwrit⟩, hexec, ?_⟩
  · rw [TcpBuffer.consume_length hvalid', hlength]
    exact hcapacity
  · -- `consume` moves the contents to the front before the start leaves the first half.
    have hmiddle : ((c.inputBuffer.append data).2.consume
        (front.flatMap generate).length).startPos
          ≤ (c.inputBuffer.append data).2.buffer.length / 2 := TcpBuffer.consume_startPos
    rw [hlength, hcapacity] at hmiddle
    exact hmiddle
  · rw [TcpBuffer.view_consume hvalid', hcut, List.drop_left]

/-- A read of a stream of messages: the messages that are complete now are
    executed and answered, the beginning of the next one is kept, and there will
    be room for the next read. -/
theorem handleRead_stream (process : Process σ) (processor : σ) (c : Connection σ)
    (data : List Byte) (front back : List RespType) (more : List Byte)
    (hsteady : c.Steady process processor) (hread : IsRead data)
    (hframes : ∀ v ∈ front ++ back, IsFrame v)
    (hpending : Pending generate c.inputBuffer.view (front ++ back))
    (hmore : Pending generate more back)
    (hcut : c.inputBuffer.view ++ data = front.flatMap generate ++ more) :
    (handleRead (onReadDone process) c data none).Steady process processor ∧
      (handleRead (onReadDone process) c data none).executed = c.executed ++ front ∧
      (handleRead (onReadDone process) c data none).inputBuffer.view = more := by
  by_cases hempty : c.inputBuffer.view = []
  · rw [hempty, List.nil_append] at hcut
    exact handleRead_stream_empty process hsteady hread hframes hmore hempty hcut
  · exact handleRead_stream_pending process hsteady hread hframes hmore hempty
      (length_pending hframes hpending) hcut

/-- All messages of a stream are executed and answered, however it is cut into
    reads. -/
theorem runReads_stream (process : Process σ) (processor : σ) (values : List RespType)
    (hframes : ∀ v ∈ values, IsFrame v) (reads : List (List Byte))
    (hreads : ∀ data ∈ reads, IsRead data) (hstream : reads.flatten = values.flatMap generate) :
    (runReads (onReadDone process) (Connection.new processor) reads).Steady process processor ∧
      (runReads (onReadDone process) (Connection.new processor) reads).executed = values ∧
      (runReads (onReadDone process) (Connection.new processor) reads).inputBuffer.view = [] :=
  foldl_delivers generate (fun c data => handleRead (onReadDone process) c data none)
    (Connection.Steady process processor) IsRead IsFrame (fun c => c.inputBuffer.view)
    Connection.executed (fun v => List.ne_nil_of_length_pos (generate_pos v))
    (handleRead_stream process processor) reads (Connection.new processor) values
    (Connection.Steady.new process processor) hreads hframes (Or.inl rfl) hstream

/-- How a stream of messages is cut into reads makes no difference: the commands
    and the replies are those of the messages delivered one by one, no append
    fails, and nothing is left in the buffer. -/
theorem runReads_chunks (process : Process σ) (processor : σ) (values : List RespType)
    (hframes : ∀ v ∈ values, IsFrame v) (reads : List (List Byte))
    (hreads : ∀ data ∈ reads, IsRead data) (hstream : reads.flatten = values.flatMap generate) :
    let chunked := runReads (onReadDone process) (Connection.new processor) reads
    let whole := runReads (onReadDone process) (Connection.new processor) (values.map generate)
    chunked.executed = values ∧ whole.executed = values ∧
      chunked.written.flatten = whole.written.flatten ∧ chunked.processor = whole.processor ∧
      chunked.appended = true ∧ chunked.inputBuffer.view = [] := by
  have hwhole : ∀ data ∈ values.map generate, IsRead data := by
    intro data hdata
    rcases List.mem_map.mp hdata with ⟨v, hv, rfl⟩
    exact ⟨List.ne_nil_of_length_pos (generate_pos v), (hframes v hv).2.2⟩
  rcases runReads_stream process processor values hframes reads hreads hstream
    with ⟨hsteady, hexecuted, hview⟩
  rcases runReads_stream process processor values hframes (values.map generate) hwhole
    List.flatMap_def.symm with ⟨hsteady', hexecuted', -⟩
  refine ⟨hexecuted, hexecuted', ?_, ?_, hsteady.appended, hview⟩
  · rw [hsteady.written_eq, hsteady'.written_eq, hexecuted, hexecuted']
  · rw [hsteady.processor_eq, hsteady'.processor_eq, hexecuted, hexecuted']

/-- A command that is cut inside its first line. -/
theorem runReads_chunks_ping :
    (runReads (onReadDone fun (n : Nat) _ => (n + 1, some (.int 1))) (Connection.new 0)
      [bytes "*1\r", bytes "\n$4\r\nPING\r\n"]).executed = [commandOf [bytes "PING"]] := by
  have hping : ¬ crlf <:+: bytes "PING" := Delimiter.find_eq_none_iff.mp (by decide)
  have hframe : IsFrame (commandOf [bytes "PING"]) :=
    ⟨commandOf_noNull _, (commandOf_delimited_iff _).mpr (List.forall_mem_singleton.mpr hping),
      by decide⟩
  have hfirst : IsRead (bytes "*1\r") := ⟨List.cons_ne_nil _ _, by decide⟩
  have hsecond : IsRead (bytes "\n$4\r\nPING\r\n") := ⟨List.cons_ne_nil _ _, by decide⟩
  exact (runReads_chunks (fun n _ => (n + 1, some (.int 1))) 0 [commandOf [bytes "PING"]]
    (List.forall_mem_singleton.mpr hframe) [bytes "*1\r", bytes "\n$4\r\nPING\r\n"]
    (List.forall_mem_cons.mpr ⟨hfirst, List.forall_mem_singleton.mpr hsecond⟩) rfl).1

end Streams

end Redis

end CodingChallenges
