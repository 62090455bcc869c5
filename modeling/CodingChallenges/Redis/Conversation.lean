import CodingChallenges.Redis.Client
import CodingChallenges.Redis.WriteQueue

/-!
# A Conversation

A client that sends commands and gets the answers.

The bytes of the commands arrive in reads of any size, and each read may complete any number of
commands. What is answered to them goes through the queue of writes. Reads and writes complete in
any order. So at any time some of the commands are executed, and the beginning of what is answered
to these has been handed to the socket.

The processor may be any function of its own state. The state may tell in advance how each of the
commands will be answered, so it does not matter what other clients do in between.

## Main definitions

* `Conversation`: The two directions of a connection.
* `Conversation.Step`: A read or a write completes.
* `Conversation.Answering`: What has become of the commands so far.

## Theorems

* `written_prefix`: A read takes back nothing that was written.
* `Conversation.Answering.step`: Every step goes on with the answers.
* `Conversation.executes_and_answers`: What the client gets, in every run.
-/

namespace CodingChallenges

namespace Redis

open Framing

variable {σ : Type}

/-- The two directions of a connection. -/
structure Conversation (σ : Type) where
  connection : Connection σ
  writer : Writer
  /-- What was read so far. -/
  received : List Byte

namespace Conversation

/-- What the loop hands to a connection. -/
inductive Event where
  | read (data : List Byte)
  | completed (payload : List Byte) (error : Bool)

/-- A connection on which nothing has happened yet. -/
def new (processor : σ) : Conversation σ :=
  ⟨Connection.new processor, Writer.new, []⟩

/-- A read has completed. What the callback has written goes to the queue. -/
def afterRead (process : Process σ) (c : Conversation σ) (data : List Byte) : Conversation σ :=
  let connection := handleRead (onReadDone process) c.connection data none
  ⟨connection, (connection.written.drop c.connection.written.length).foldl Writer.write c.writer,
    c.received ++ data⟩

/-- A read of some more bytes of the stream completes, or a write does. -/
inductive Step (process : Process σ) (stream : List Byte) :
    Conversation σ → Event → Conversation σ → Prop where
  | read (c : Conversation σ) (data : List Byte) (hread : IsRead data)
      (hsent : c.received ++ data <+: stream) :
      Step process stream c (.read data) (c.afterRead process data)
  | completed (c : Conversation σ) (payload : List Byte) (error : Bool) (writer : Writer)
      (hwriter : Writer.Step c.writer (.completed payload error) writer) :
      Step process stream c (.completed payload error) { c with writer := writer }

end Conversation

section Writing

/-- A read takes back nothing that was written. -/
theorem written_prefix (onReadDone : ReadCallback σ) (c : Connection σ) (data : List Byte) :
    c.written <+: (handleRead onReadDone c data none).written := by
  unfold handleRead
  simp only
  split_ifs
  · exact List.prefix_append _ _
  · exact List.prefix_rfl
  · exact List.prefix_append _ _
  · exact List.prefix_append _ _

/-- Writing several messages is adding them to the queue. -/
theorem Writer.Follows.foldl_write {w : Writer} {q : Fifo (List Byte)} (h : w.Follows q)
    (messages : List (List Byte)) :
    (∃ q', (messages.foldl Writer.write w).Follows q') ∧
      (messages.foldl Writer.write w).passed = w.passed ++ messages := by
  induction messages generalizing w q with
  | nil => exact ⟨⟨q, h⟩, (List.append_nil _).symm⟩
  | cons message messages ih =>
      have hnext := h.write message
      rcases ih hnext with ⟨hfollows, hpassed⟩
      refine ⟨hfollows, ?_⟩
      rw [List.foldl_cons, hpassed, hnext.added, h.added]
      exact List.append_assoc _ _ _

/-- Without a write under way everything has been handed over. -/
theorem Writer.Follows.handed_eq {w : Writer} {q : Fifo (List Byte)} (h : w.Follows q)
    (hidle : w.outstanding = []) : w.handed = w.passed := by
  have hnone : q.contents = [] := by
    have houtstanding := h.outstanding
    rw [hidle] at houtstanding
    cases hcontents : q.contents with
    | nil => rfl
    | cons first rest =>
        rw [hcontents] at houtstanding
        cases houtstanding
  have hall := List.take_append_drop q.taken q.added
  change q.added.take q.taken ++ q.contents = q.added at hall
  rw [hnone] at hall
  rw [h.handed, h.added, hnone, List.take_nil]
  exact hall

end Writing

namespace Conversation

/-- What has become of the commands: some are executed, and what is left of the stream so far is
    nothing or the beginning of the next one. What was written answers those that are executed. -/
structure Answering (process : Process σ) (processor : σ) (commands : List RespType)
    (c : Conversation σ) : Prop where
  steady : c.connection.Steady process processor
  executed : ∃ others, commands = c.connection.executed ++ others ∧
    c.received = c.connection.executed.flatMap generate ++ c.connection.inputBuffer.view ∧
      Pending generate c.connection.inputBuffer.view others
  passed : c.writer.passed = c.connection.written
  follows : ∃ q, c.writer.Follows q

variable {process : Process σ} {processor : σ} {commands : List RespType}

theorem answering_new : Answering process processor commands (new processor) :=
  ⟨Connection.Steady.new process processor, ⟨commands, rfl, rfl, Or.inl rfl⟩, rfl,
    ⟨Fifo.empty, Writer.follows_new⟩⟩

theorem Answering.step (hframes : ∀ v ∈ commands, IsFrame v) (c : Conversation σ) (event : Event)
    (c' : Conversation σ) (h : Answering process processor commands c)
    (hstep : Step process (commands.flatMap generate) c event c') :
    Answering process processor commands c' := by
  cases hstep with
  | read data hread hsent =>
      rcases h.executed with ⟨others, hcommands, hreceived, hpending⟩
      rcases h.follows with ⟨q, hfollows⟩
      -- What is pending and what was read is cut behind the last whole command.
      have hcutAt : c.connection.inputBuffer.view ++ data <+: others.flatMap generate := by
        rw [hreceived, List.append_assoc, hcommands, List.flatMap_append,
          List.prefix_append_right_inj] at hsent
        exact hsent
      rcases exists_cut generate others _ hcutAt with ⟨front, back, more, rfl, hcut, hmore⟩
      have hothers : ∀ v ∈ front ++ back, IsFrame v := by
        intro v hv
        rw [hcommands] at hframes
        exact hframes v (List.mem_append_right _ hv)
      rcases handleRead_stream process processor c.connection data front back more h.steady hread
        hothers hpending hmore hcut with ⟨hsteady, hexecuted, hview⟩
      rcases written_prefix (onReadDone process) c.connection data with ⟨messages, hmessages⟩
      have hnew : (handleRead (onReadDone process) c.connection data none).written.drop
          c.connection.written.length = messages := by
        rw [← hmessages, List.drop_left]
      rcases hfollows.foldl_write messages with ⟨hfollows', hpassed⟩
      refine ⟨hsteady, ⟨back, ?_, ?_, ?_⟩, ?_, ?_⟩
      · change _ = (handleRead (onReadDone process) c.connection data none).executed ++ back
        rw [hexecuted, hcommands, List.append_assoc]
      · change c.received ++ data =
          (handleRead (onReadDone process) c.connection data none).executed.flatMap generate ++
            (handleRead (onReadDone process) c.connection data none).inputBuffer.view
        rw [hexecuted, hview, hreceived, List.flatMap_append, List.append_assoc, hcut,
          List.append_assoc]
      · change Pending generate
          (handleRead (onReadDone process) c.connection data none).inputBuffer.view back
        rw [hview]
        exact hmore
      · unfold afterRead
        simp only [hnew]
        rw [hpassed, h.passed, hmessages]
      · unfold afterRead
        simp only [hnew]
        exact hfollows'
  | completed payload error writer hwriter =>
      refine ⟨h.steady, h.executed, ?_, ?_⟩
      · rw [hwriter.passed, Writer.Event.passes, Option.toList_none, List.append_nil]
        exact h.passed
      · exact hwriter.follows h.follows

/-- In every run, the commands that have arrived as a whole are executed in order, and no others.
    The bytes that were handed to the socket are the beginning of what is answered to them, and all
    of it if no write is under way. When the whole stream has arrived, all commands are executed. -/
theorem executes_and_answers (hframes : ∀ v ∈ commands, IsFrame v) {c : Conversation σ}
    {t : List (Conversation σ × Event)}
    (hrun : Trace (Step process (commands.flatMap generate)) (new processor) t c) :
    (∃ others, commands = c.connection.executed ++ others ∧ ∃ more,
      c.received = c.connection.executed.flatMap generate ++ more ∧
        Pending generate more others) ∧
      c.writer.handed.flatten <+: repliesTo process processor c.connection.executed ∧
      (c.writer.outstanding = [] →
        c.writer.handed.flatten = repliesTo process processor c.connection.executed) ∧
      (c.received = commands.flatMap generate → c.connection.executed = commands) := by
  have h := (hrun.preserved (Answering.step hframes) answering_new).2
  rcases h.executed with ⟨others, hcommands, hreceived, hpending⟩
  rcases h.follows with ⟨q, hfollows⟩
  refine ⟨⟨others, hcommands, _, hreceived, hpending⟩, ?_, fun hidle => ?_, fun hwhole => ?_⟩
  · rcases hfollows.inOrder.handed_prefix with ⟨messages, hmessages⟩
    rw [← h.steady.written_eq, ← h.passed, ← hmessages, List.flatten_append]
    exact List.prefix_append _ _
  · rw [hfollows.handed_eq hidle, h.passed]
    exact h.steady.written_eq
  · -- The beginning of a command is not all that is left of the stream.
    rw [hreceived, hcommands, List.flatMap_append, List.append_right_inj] at hwhole
    have hnone : others = [] := by
      rcases hpending with hnil | ⟨v, rest, rfl, -, -, hlt⟩
      · rw [hnil, eq_comm] at hwhole
        by_contra hne
        exact flatMap_generate_ne_nil hne hwhole
      · have hlength := congrArg List.length hwhole
        rw [List.flatMap_cons, List.length_append] at hlength
        omega
    rw [hcommands, hnone, List.append_nil]

/-- A command that arrives in two reads, answered by a processor that says 1 to everything. -/
theorem executes_and_answers_ping :
    let process : Process Nat := fun n _ => (n + 1, some (.int 1))
    let c := ((new 0).afterRead process (bytes "*1\r")).afterRead process (bytes "\n$4\r\nPING\r\n")
    c.connection.executed = [commandOf [bytes "PING"]] ∧
      c.writer.handed.flatten <+: repliesTo process 0 c.connection.executed := by
  intro process c
  have hping : ¬ crlf <:+: bytes "PING" := Delimiter.find_eq_none_iff.mp (by decide)
  have hframe : IsFrame (commandOf [bytes "PING"]) :=
    ⟨commandOf_noNull _, (commandOf_delimited_iff _).mpr (List.forall_mem_singleton.mpr hping),
      by decide⟩
  have hfirst : IsRead (bytes "*1\r") := ⟨List.cons_ne_nil _ _, by decide⟩
  have hsecond : IsRead (bytes "\n$4\r\nPING\r\n") := ⟨List.cons_ne_nil _ _, by decide⟩
  have hrun : Trace (Step process ([commandOf [bytes "PING"]].flatMap generate)) (new 0) _ c :=
    Trace.cons _ _ _ _ _ (Step.read (new 0) (bytes "*1\r") hfirst (by decide))
      (Trace.single (Step.read _ (bytes "\n$4\r\nPING\r\n") hsecond (by decide)))
  have hanswers := executes_and_answers (List.forall_mem_singleton.mpr hframe) hrun
  exact ⟨hanswers.2.2.2 (by decide), hanswers.2.1⟩

end Conversation

end Redis

end CodingChallenges
