import CodingChallenges.Redis.RoundTrip

/-!
# Answering a Message

What the server does with the bytes a client sent: `Server.cpp`.

The message is parsed as a whole. Then the results are gone through in order: a
command that is complete is processed and answered, an invalid one is answered
with an error, and at an incomplete one the server waits for more. It reports how
much of the message it is done with.

If the parser gives up on the message, nothing of it is processed, whatever was
found complete before. So a command is executed whatever follows it, unless a
byte follows that no message begins with (`onReadDone_iff`).

The command processor is a parameter here: a function of its own state and the
command.

## Main definitions

* `parseMessage`: The parser, which always ends.
* `handleResults`: The loop over the results.
* `onReadDone`: The callback of a client.
* `runCommands`, `repliesTo`: Several commands, one after the other.

## Theorems

* `handleResults_frames`: Complete commands are executed and answered in order.
* `onReadDone_iff`: When complete commands are executed whatever follows them.
-/

namespace CodingChallenges

namespace Redis

/-- What `asio` reports about a read. -/
inductive ReadError where
  | connectionReset
  | eof
  | other
deriving DecidableEq, Repr

theorem parse_isSome (input : List Byte) : (parse input).isSome = true := by
  rcases parse_total input with ⟨ok, results, h⟩
  rw [h]
  rfl

/-- What the parser returns and the results it leaves. -/
def parseMessage (input : List Byte) : Bool × List RespParserResult :=
  (parse input).get (parse_isSome input)

theorem parseMessage_eq_iff {input : List Byte} {ok : Bool} {results : List RespParserResult} :
    parseMessage input = (ok, results) ↔ parse input = some (ok, results) := by
  rw [Option.eq_some_iff_get_eq, exists_prop_of_true (parse_isSome input)]
  exact Iff.rfl

/-- Processing a command: the new state, and the reply unless it is refused. -/
abbrev Process (σ : Type) := σ → RespType → σ × Option RespType

/-- What the loop over the results of a message has done. -/
structure Handled (σ : Type) where
  processor : σ
  /-- The commands that were handed to the processor. -/
  executed : List RespType
  responseMessage : List Byte
  waitForNextRead : Bool
  lastProcessedIndex : Nat

variable {σ : Type}

/-- What is answered to a command. -/
def replyTo : Option RespType → List Byte
  | some response => generate response
  | none => generate (.error invalidInputFormat)

/-- The loop over the results of a message. -/
def handleResults (process : Process σ) : List RespParserResult → Handled σ → Handled σ
  | [], h => h
  | result :: results, h =>
    match result.state with
    | .invalid =>
      handleResults process results
        { h with
          responseMessage := h.responseMessage ++ generate (.error invalidInputFormat)
          lastProcessedIndex := result.parseEndPos }
    -- The loop breaks here: whatever comes behind is read again with the next bytes.
    | .incomplete => { h with waitForNextRead := true }
    | .complete =>
      match result.type with
      | none =>
        handleResults process results
          { h with
            -- The only branch that throws away the replies so far.
            responseMessage := generate (.error internalError)
            lastProcessedIndex := result.parseEndPos }
      | some command =>
        handleResults process results
          { h with
            processor := (process h.processor command).1
            executed := h.executed ++ [command]
            responseMessage := h.responseMessage ++ replyTo (process h.processor command).2
            lastProcessedIndex := result.parseEndPos }

/-- What a read callback does and returns. -/
structure ReadDone (σ : Type) where
  processor : σ
  executed : List RespType
  /-- The messages that are written to the client. -/
  written : List (List Byte)
  /-- Whether the client is removed. -/
  removed : Bool
  allDone : Bool
  processedBytes : Nat

/-- The callback of the server parses the message and runs each command that is complete. -/
def onReadDone (process : Process σ) (processor : σ) (message : List Byte)
    (error : Option ReadError) (bytesTransferred : Nat) : ReadDone σ :=
  match error with
  | some error =>
    ⟨processor, [], [], error = .connectionReset ∨ error = .eof, true, bytesTransferred⟩
  | none =>
    -- One byte that no value begins with, and no result of the message is handled.
    let (ok, parseResults) := parseMessage message
    if ok then
      let h := handleResults process parseResults ⟨processor, [], [], false, 0⟩
      ⟨h.processor, h.executed, if h.responseMessage = [] then [] else [h.responseMessage], false,
        !h.waitForNextRead, h.lastProcessedIndex⟩
    else
      ⟨processor, [], [generate (.error invalidInputFormat)], false, true,
        if parseResults = [] then 0 else 1⟩

/-- The state of the processor after several commands. -/
def runCommands (process : Process σ) : σ → List RespType → σ
  | processor, [] => processor
  | processor, command :: commands =>
    runCommands process (process processor command).1 commands

/-- What is answered to several commands. -/
def repliesTo (process : Process σ) : σ → List RespType → List Byte
  | _, [] => []
  | processor, command :: commands =>
    replyTo (process processor command).2 ++
      repliesTo process (process processor command).1 commands

theorem runCommands_append (process : Process σ) (processor : σ) (commands others : List RespType) :
    runCommands process processor (commands ++ others) =
      runCommands process (runCommands process processor commands) others := by
  induction commands generalizing processor with
  | nil => rfl
  | cons command commands ih => exact ih _

theorem repliesTo_append (process : Process σ) (processor : σ) (commands others : List RespType) :
    repliesTo process processor (commands ++ others) =
      repliesTo process processor commands ++
        repliesTo process (runCommands process processor commands) others := by
  induction commands generalizing processor with
  | nil => rfl
  | cons command commands ih =>
      rw [List.cons_append, repliesTo, repliesTo, runCommands, ih, List.append_assoc]

theorem replyTo_pos (response : Option RespType) : 0 < (replyTo response).length := by
  cases response with
  | none => exact generate_pos (.error invalidInputFormat)
  | some response => exact generate_pos response

/-- Complete commands are executed and answered in order, and the loop goes on
    behind them. -/
theorem handleResults_frames (process : Process σ) (values : List RespType) (start : Nat)
    (results : List RespParserResult) (h : Handled σ) (hstart : h.lastProcessedIndex = start) :
    handleResults process (framesOf start values ++ results) h =
      handleResults process results
        { h with
          processor := runCommands process h.processor values
          executed := h.executed ++ values
          responseMessage := h.responseMessage ++ repliesTo process h.processor values
          lastProcessedIndex := start + (values.flatMap generate).length } := by
  induction values generalizing start h with
  | nil =>
      subst hstart
      simp only [framesOf, List.nil_append, runCommands, repliesTo, List.append_nil,
        List.flatMap_nil, List.length_nil, Nat.add_zero]
  | cons v values ih =>
      rw [framesOf, List.cons_append, handleResults]
      simp only
      rw [ih (start + (generate v).length) _ rfl]
      simp only [runCommands, repliesTo, List.append_assoc, List.singleton_append,
        List.flatMap_cons, List.length_append, Nat.add_assoc]

/-- What the loop has done it does not undo, and it does not go back. -/
theorem handleResults_extends (process : Process σ) (processed : Nat)
    (results : List RespParserResult) (h : Handled σ) (hlast : processed ≤ h.lastProcessedIndex)
    (hresults : ∀ result ∈ results, processed ≤ result.parseEndPos ∧
      (result.state = .complete → result.type ≠ none)) :
    h.executed <+: (handleResults process results h).executed ∧
      h.responseMessage <+: (handleResults process results h).responseMessage ∧
      processed ≤ (handleResults process results h).lastProcessedIndex := by
  induction results generalizing h with
  | nil => exact ⟨List.prefix_rfl, List.prefix_rfl, hlast⟩
  | cons result results ih =>
      rcases List.forall_mem_cons.mp hresults with ⟨⟨hend, htype⟩, hothers⟩
      rw [handleResults]
      cases hstate : result.state with
      | incomplete => exact ⟨List.prefix_rfl, List.prefix_rfl, hlast⟩
      -- An input that is invalid is answered, and the loop goes on behind it.
      | invalid =>
          simp only
          rcases ih { h with
            responseMessage := h.responseMessage ++ generate (.error invalidInputFormat)
            lastProcessedIndex := result.parseEndPos } hend hothers with ⟨hexec, hmessage, hindex⟩
          exact ⟨hexec, (List.prefix_append _ _).trans hmessage, hindex⟩
      | complete =>
          simp only
          cases hv : result.type with
          | none => exact absurd hv (htype hstate)
          | some command =>
              simp only
              rcases ih { h with
                processor := (process h.processor command).1
                executed := h.executed ++ [command]
                responseMessage := h.responseMessage ++ replyTo (process h.processor command).2
                lastProcessedIndex := result.parseEndPos } hend hothers
                with ⟨hexec, hmessage, hindex⟩
              exact ⟨(List.prefix_append _ _).trans hexec,
                (List.prefix_append _ _).trans hmessage, hindex⟩

/-- At a result that is incomplete the loop stops, and changes nothing else. -/
theorem handleResults_incomplete (process : Process σ) (results : List RespParserResult)
    (h : Handled σ) (hresults : ∀ result ∈ results, result.state = .incomplete) :
    ∃ wait, handleResults process results h = { h with waitForNextRead := wait } := by
  rcases results with _ | ⟨result, others⟩
  · exact ⟨h.waitForNextRead, rfl⟩
  · rw [handleResults, hresults result List.mem_cons_self]
    exact ⟨true, rfl⟩

section AnyRest

/-- The commands are handed to the processor in order, their replies are written,
    and the bytes they came in are reported as processed. -/
def Executes (process : Process σ) (processor : σ) (commands : List RespType)
    (done : ReadDone σ) : Prop :=
  commands <+: done.executed ∧
    (∃ message ∈ done.written, repliesTo process processor commands <+: message) ∧
    (commands.flatMap generate).length ≤ done.processedBytes

/-- Wherever a value would begin in the text there is a byte that one begins
    with. -/
def NoStrayByte (text : List Byte) : Prop :=
  text = [] ∨ (parseMessage text).1 = true

theorem Reads.noStrayByte_iff {text : List Byte} {start : Nat} {ok : Bool}
    {results : List RespParserResult} (h : Reads text start ok results) :
    NoStrayByte text ↔ ok = true := by
  unfold NoStrayByte
  by_cases hne : text = []
  · subst hne
    cases h
    exact iff_of_true (Or.inl rfl) rfl
  · rcases h.move 0 with ⟨results', hreads⟩
    rw [parseMessage_eq_iff.mpr ((parse_eq_some_iff hne).mpr hreads), or_iff_right hne]

/-- A message that is read, answered. -/
theorem onReadDone_of_reads (process : Process σ) (processor : σ) {message : List Byte}
    (hne : message ≠ []) {ok : Bool} {results : List RespParserResult}
    (h : Reads message 0 ok results) (bytesTransferred : Nat) :
    onReadDone process processor message none bytesTransferred =
      if ok then
        let h := handleResults process results ⟨processor, [], [], false, 0⟩
        ⟨h.processor, h.executed, if h.responseMessage = [] then [] else [h.responseMessage],
          false, !h.waitForNextRead, h.lastProcessedIndex⟩
      else
        ⟨processor, [], [generate (.error invalidInputFormat)], false, true,
          if results = [] then 0 else 1⟩ := by
  unfold onReadDone
  rw [parseMessage_eq_iff.mpr ((parse_eq_some_iff hne).mpr h)]

theorem flatMap_generate_ne_nil {values : List RespType} (hne : values ≠ []) :
    values.flatMap generate ≠ [] := by
  rcases List.exists_cons_of_ne_nil hne with ⟨v, others, rfl⟩
  have hpos := generate_pos v
  refine List.ne_nil_of_length_pos ?_
  rw [List.flatMap_cons, List.length_append]
  omega

/-- Complete commands are executed, whatever follows them, exactly if no byte
    follows that no value begins with. -/
theorem onReadDone_iff (process : Process σ) (processor : σ) (commands : List (List (List Byte)))
    (rest : List Byte) (bytesTransferred : Nat) (hne : commands ≠ [])
    (hfree : ∀ command ∈ commands, ∀ str ∈ command, ¬ crlf <:+: str)
    (hsize : ((commands.map commandOf).flatMap generate).length < sizeBound) :
    Executes process processor (commands.map commandOf)
        (onReadDone process processor ((commands.map commandOf).flatMap generate ++ rest) none
          bytesTransferred) ↔
      NoStrayByte rest := by
  have hvalues : commands.map commandOf ≠ [] := mt List.map_eq_nil_iff.mp hne
  have hnull : ∀ v ∈ commands.map commandOf, v.NoNull := by
    intro v hv
    rcases List.mem_map.mp hv with ⟨command, -, rfl⟩
    exact commandOf_noNull command
  have hdelimited : ∀ v ∈ commands.map commandOf, v.Delimited := by
    intro v hv
    rcases List.mem_map.mp hv with ⟨command, hcommand, rfl⟩
    exact (commandOf_delimited_iff command).mpr (hfree command hcommand)
  generalize commands.map commandOf = values at hvalues hnull hdelimited hsize ⊢
  have hmessage : values.flatMap generate ++ rest ≠ [] :=
    List.append_ne_nil_of_left_ne_nil (flatMap_generate_ne_nil hvalues) rest
  -- What is read behind the commands decides whether the parser gives up.
  rcases exists_reads rest.length rest (0 + (values.flatMap generate).length) (Nat.le_refl _)
    with ⟨ok, results, hrest⟩
  rw [hrest.noStrayByte_iff,
    onReadDone_of_reads process processor hmessage
      (reads_frames values hnull hdelimited hsize hrest) bytesTransferred]
  cases ok with
  | false =>
      -- Nothing was executed, so there would have to be no commands.
      refine iff_of_false (fun h => hvalues ?_) Bool.false_ne_true
      exact List.prefix_nil.mp h.1
  | true =>
      refine iff_of_true ?_ rfl
      -- The commands come first. What is read behind them may add to what the loop has
      -- done, but does not undo it.
      rw [if_pos rfl, handleResults_frames process values 0 results _ rfl]
      simp only [List.nil_append]
      rcases handleResults_extends process (0 + (values.flatMap generate).length) results
        ⟨runCommands process processor values, values, repliesTo process processor values, false,
          0 + (values.flatMap generate).length⟩ (Nat.le_refl _) hrest.behind
        with ⟨hexec, hreplies, hindex⟩
      refine ⟨hexec, ?_, ?_⟩
      · -- There is a reply, so a message is written.
        have hreply : repliesTo process processor values ≠ [] := by
          rcases List.exists_cons_of_ne_nil hvalues with ⟨v, others, rfl⟩
          have hpos := replyTo_pos (process processor v).2
          refine List.ne_nil_of_length_pos ?_
          rw [repliesTo, List.length_append]
          omega
        have hwritten : ∀ {message : List Byte},
            repliesTo process processor values <+: message → message ≠ [] := by
          intro message hprefixed hnil
          rw [hnil, List.prefix_nil] at hprefixed
          exact hreply hprefixed
        refine ⟨_, ?_, hreplies⟩
        rw [if_neg (hwritten hreplies)]
        exact List.mem_singleton_self _
      · rw [Nat.zero_add] at hindex
        simp only [Nat.zero_add]
        exact hindex

/-- A processor that answers everything with the same reply. -/
theorem onReadDone_iff_partial :
    Executes (fun (n : Nat) _ => (n + 1, some (.int 1))) 0 [commandOf [bytes "PING"]]
      (onReadDone (fun (n : Nat) _ => (n + 1, some (.int 1))) 0
        ([commandOf [bytes "PING"]].flatMap generate ++ bytes "*1\r\n") none 0) := by
  have hping : ¬ crlf <:+: bytes "PING" := Delimiter.find_eq_none_iff.mp (by decide)
  have hrest : NoStrayByte (bytes "*1\r\n") := Or.inr (by decide)
  exact (onReadDone_iff _ 0 [[bytes "PING"]] (bytes "*1\r\n") 0 (List.cons_ne_nil _ _)
    (List.forall_mem_singleton.mpr (List.forall_mem_singleton.mpr hping)) (by decide)).mpr hrest

/-- A stray byte behind a command, and the command is not executed. -/
theorem onReadDone_discards :
    ¬ ∀ rest : List Byte, Executes (fun (n : Nat) _ => (n + 1, some (.int 1))) 0
      [commandOf [bytes "PING"]]
      (onReadDone (fun (n : Nat) _ => (n + 1, some (.int 1))) 0
        ([commandOf [bytes "PING"]].flatMap generate ++ rest) none 0) := by
  intro h
  have hexecuted := (h (bytes "x")).1
  have hnone : (onReadDone (fun (n : Nat) _ => (n + 1, some (.int 1))) 0
      ([commandOf [bytes "PING"]].flatMap generate ++ bytes "x") none 0).executed = [] := rfl
  rw [hnone, List.prefix_nil] at hexecuted
  cases hexecuted

end AnyRest

end Redis

end CodingChallenges
