import CodingChallenges.WebServer.Sessions

/-!
# Requests and Responses

What holds in every run of the web server, whatever comes in between.

The bytes that a client sends may arrive in any pieces, mixed with those of other clients. What is
written to it depends on what it has sent and on nothing else: nothing until the header is there
as a whole, and then one response, to the header. After that the client is removed.

The program may end in a handler that throws. Then one client at most is without a response to its
header, which is the one whose header the handler was given.

## Main definitions

* `receivedOn`, `writtenTo`: What was received from a client and what was written to it.
* `Session.Answered`: What was written on a connection is the response to what was received.

## Theorems

* `one_response`: What is written to a client.
* `registered_while_waiting`: Who is registered, and who is waited for.
* `response_origin`: Where the responses come from.
-/

namespace CodingChallenges

namespace WebServer

open Delimiter

/-- The event is that something was read. -/
def readsData (event : Operation × Completion) : Bool :=
  match event.1 with
  | .read _ => !event.2.error
  | _ => false

/-- What was received in some events. -/
def receivedIn (events : List (Operation × Completion)) : List UInt8 :=
  (events.filter readsData).flatMap fun event => event.2.data

/-- What was received from a client. -/
def receivedOn {α : Type} (client : Nat) (t : List (α × (Operation × Completion))) :
    List UInt8 :=
  receivedIn ((t.map Prod.snd).filter fun event => event.1.client = client)

/-- What was written to a client. -/
def writtenTo (client : Nat) (s : State) : List (List UInt8) :=
  (s.written.filter fun x => x.1 = client).map Prod.snd

/-- The end of the header. -/
abbrev headerEnd : List UInt8 := crlf ++ crlf

/-- What was written on a connection is the response to what was received. -/
structure Session.Answered (server : Server) (Seen : FileSystem → Prop) (session : Session) :
    Prop where
  /-- There is no response to a part of a header. -/
  waits : ¬ headerEnd <:+: session.received → session.payload = none
  responds : ∀ pos, find headerEnd session.received = some pos → ∃ files response, Seen files ∧
    server.respond files (session.received.take (pos + 4)) = some response ∧
    session.payload = some response.toRawResponse

/-- As long as the session reads, there is no header. -/
theorem Session.Answered.no_header {server : Server} {Seen : FileSystem → Prop}
    {received : List UInt8} (h : Session.Answered server Seen (.reading received)) :
    find headerEnd received = none := by
  cases hfind : find headerEnd received with
  | none => rfl
  | some pos =>
      rcases h.responds pos hfind with ⟨files, response, -, -, hpayload⟩
      cases hpayload

theorem Session.answered_of_none {server : Server} {Seen : FileSystem → Prop} {session : Session}
    (hfind : find headerEnd session.received = none) (hpayload : session.payload = none) :
    session.Answered server Seen := by
  refine ⟨fun _ => hpayload, fun pos hpos => ?_⟩
  rw [hfind] at hpos
  cases hpos

/-- A step of a session answers what it has received. -/
theorem Session.Answered.step {server : Server} {Seen : FileSystem → Prop}
    {session session' : Session} {event : Operation × Completion} (h : session.Answered server Seen)
    (hseen : readsData event = true → Seen event.2.files)
    (hstep : SessionStep server session event session') : session'.Answered server Seen := by
  rcases event with ⟨op, result⟩
  rcases hstep with ⟨hawaits, hnext⟩
  cases session with
  | accepting =>
      rcases next_accepting hnext with ⟨-, rfl⟩ | ⟨-, -, rfl⟩
      · exact answered_of_none rfl rfl
      · exact answered_of_none rfl rfl
  | reading received =>
      rcases next_reading hnext with ⟨-, rfl⟩ | ⟨-, hfind, rfl⟩ |
        ⟨herror, pos, response, hfind, hresponse, rfl⟩
      · exact answered_of_none h.no_header rfl
      · exact answered_of_none hfind rfl
      · have hreads : readsData (op, result) = true := by
          cases op with
          | read client => exact congrArg (!·) herror
          | _ => cases hawaits
        refine ⟨fun hno => ?_, fun pos' hpos' => ?_⟩
        · exact absurd ((find_eq_none_iff.mpr hno).symm.trans hfind) (by simp)
        · have hpos : pos' = pos := Option.some.inj (hpos'.symm.trans hfind)
          subst hpos
          exact ⟨result.files, response, hseen hreads, hresponse, rfl⟩
  | writing received payload =>
      cases hnext
      exact ⟨h.waits, h.responds⟩
  | closed received payload => cases hawaits

theorem receivedIn_read (client : Nat) (result : Completion) :
    receivedIn [(.read client, result)] = if result.error = true then [] else result.data := by
  by_cases herror : result.error = true
  · simp only [receivedIn, readsData, herror, Bool.not_true, Bool.false_eq_true, not_false_eq_true,
      List.filter_cons_of_neg, List.filter_nil, List.flatMap_nil, ↓reduceIte]
  · simp only [receivedIn, readsData, herror, Bool.not_false, List.filter_cons_of_pos,
      List.filter_nil, List.flatMap_cons, List.flatMap_nil, List.append_nil, Bool.false_eq_true,
      ↓reduceIte]

/-- What a session has received is what was read. -/
theorem received_step {server : Server} {session session' : Session}
    {event : Operation × Completion} (h : SessionStep server session event session') :
    session'.received = session.received ++ receivedIn [event] := by
  rcases event with ⟨op, result⟩
  rcases h with ⟨hawaits, hnext⟩
  cases session with
  | accepting =>
      cases op with
      | accept client =>
          rcases Session.next_accepting hnext with ⟨-, rfl⟩ | ⟨-, -, rfl⟩
          · rfl
          · rfl
      | _ => cases hawaits
  | reading received =>
      cases op with
      | read client =>
          rcases Session.next_reading hnext with ⟨herror, rfl⟩ | ⟨herror, -, rfl⟩ |
            ⟨herror, pos, response, -, -, rfl⟩
          · rw [receivedIn_read, if_pos herror]
            exact (List.append_nil _).symm
          · rw [receivedIn_read, if_neg (Bool.eq_false_iff.mp herror)]
            rfl
          · rw [receivedIn_read, if_neg (Bool.eq_false_iff.mp herror)]
            rfl
      | _ => cases hawaits
  | writing received payload =>
      cases op with
      | write client =>
          cases hnext
          exact (List.append_nil _).symm
      | _ => cases hawaits
  | closed received payload => cases hawaits

theorem receivedIn_cons (event : Operation × Completion) (events : List (Operation × Completion)) :
    receivedIn (event :: events) = receivedIn [event] ++ receivedIn events := by
  unfold receivedIn
  rw [← List.flatMap_append, ← List.filter_append]
  rfl

theorem received_run {server : Server} {session session' : Session}
    {t : List (Session × (Operation × Completion))}
    (h : Trace (SessionStep server) session t session') :
    session'.received = session.received ++ receivedIn (t.map Prod.snd) := by
  induction h with
  | nil session => exact (List.append_nil _).symm
  | cons session event next t session' hstep _ ih =>
      rw [ih, received_step hstep, List.append_assoc, List.map_cons, ← receivedIn_cons]

/-- What a run of the server amounts to for one of its clients. -/
theorem session_run {server : Server} {t : List (State × (Operation × Completion))} {s : State}
    (hrun : Trace (Step server) State.initial t s) (hfew : bornIn t + 1 < 2 ^ 64) (client : Nat) :
    ∃ sessions, Refines s sessions ∧ OneWaits sessions ∧ ∃ t',
      Trace (SessionStep server) .accepting t' (memberOf .accepting sessions client) ∧
      t'.map Prod.snd = (t.map Prod.snd).filter fun event => event.1.client = client := by
  rcases refines_initial.run hrun oneWaits_initial (by rw [List.length_singleton]; omega) with
    ⟨t₁, sessions, hfamily, hevents, hrefines, hone⟩
  rcases hfamily.member client with ⟨t', ht', hevents'⟩
  have hfirst : memberOf Session.accepting [Session.accepting] client = .accepting := by
    cases client with
    | zero => rfl
    | succ client => rfl
  rw [hfirst] at ht'
  refine ⟨sessions, hrefines, hone, t', ht', ?_⟩
  rw [hevents', hevents, eventsOf, List.filter_map, List.map_map, List.filter_map]
  rfl

theorem Refines.writtenTo {s : State} {sessions : List Session} (h : Refines s sessions)
    (client : Nat) :
    writtenTo client s = (memberOf .accepting sessions client).payload.toList := by
  have hwritten := h.written client
  unfold WebServer.writtenTo memberOf
  rw [hwritten]
  cases sessions[client]? with
  | none => rfl
  | some session => rfl

/-- The files that were seen are those at the times when something was read from the client. -/
theorem session_answered {server : Server} {t : List (State × (Operation × Completion))}
    {client : Nat} {session : Session} {t' : List (Session × (Operation × Completion))}
    (hevents : t'.map Prod.snd = (t.map Prod.snd).filter fun event => event.1.client = client)
    (hrun : Trace (SessionStep server) .accepting t' session) :
    session.Answered server fun files =>
      ∃ x ∈ t, x.2.1 = .read client ∧ x.2.2.files = files := by
  have hkeeps : ∀ (session : Session) (event : Operation × Completion) (session' : Session),
      session.Answered server (fun files => ∃ x ∈ t, x.2.1 = .read client ∧ x.2.2.files = files) →
      (readsData event = true → ∃ x ∈ t, x.2.1 = .read client ∧ x.2.2.files = event.2.files) →
      SessionStep server session event session' → session'.Answered server fun files =>
        ∃ x ∈ t, x.2.1 = .read client ∧ x.2.2.files = files :=
    fun _ _ _ hanswered hseen hstep => hanswered.step hseen hstep
  refine (hrun.invariant hkeeps (Session.answered_of_none rfl rfl) ?_).2
  intro y hy hreads
  have hmem : y.2 ∈ t'.map Prod.snd := List.mem_map_of_mem hy
  rw [hevents, List.mem_filter, List.mem_map] at hmem
  rcases hmem with ⟨⟨x, hx, hxy⟩, hclient⟩
  refine ⟨x, hx, ?_, by rw [hxy]⟩
  rw [hxy]
  rcases hy2 : y.2 with ⟨op, result⟩
  rw [hy2] at hreads hclient
  cases op with
  | read other => rw [← of_decide_eq_true hclient, Operation.client_read]
  | accept other => cases hreads
  | write other => cases hreads

/-- As long as the program goes on: nothing is written to a client until its header is there as a
    whole, and then one response, to what it has sent up to the end of the header. -/
theorem written_of_run (server : Server) {t : List (State × (Operation × Completion))} {s : State}
    (hrun : Trace (Step server) State.initial t s) (hfew : bornIn t + 1 < 2 ^ 64) (client : Nat) :
    (¬ headerEnd <:+: receivedOn client t → writtenTo client s = []) ∧
      ∀ pos, find headerEnd (receivedOn client t) = some pos →
        ∃ x ∈ t, ∃ response, x.2.1 = .read client ∧
          server.respond x.2.2.files ((receivedOn client t).take (pos + 4)) = some response ∧
          writtenTo client s = [response.toRawResponse] := by
  rcases session_run hrun hfew client with ⟨sessions, hrefines, -, t', ht', hevents⟩
  have hreceived := received_run ht'
  rw [hevents] at hreceived
  have hanswered := session_answered hevents ht'
  rw [hrefines.writtenTo]
  refine ⟨fun hno => ?_, fun pos hpos => ?_⟩
  · rw [hanswered.waits (by rw [hreceived]; exact hno)]
    rfl
  · have hfind :
        find headerEnd (memberOf Session.accepting sessions client).received = some pos := by
      rw [hreceived]
      exact hpos
    rcases hanswered.responds pos hfind with ⟨files, response, ⟨x, hx, hop, rfl⟩, hresponse,
      hpayload⟩
    rw [hreceived] at hresponse
    refine ⟨x, hx, response, hop, hresponse, ?_⟩
    rw [hpayload]
    rfl

theorem receivedOn_asRunning (client : Nat) (t : List (State × (Operation × Completion))) :
    receivedOn client (t.map asRunning) = receivedOn client t := by
  unfold receivedOn
  rw [List.map_map]
  rfl

theorem bornIn_asRunning (t : List (State × (Operation × Completion))) :
    bornIn (t.map asRunning) = bornIn t := by
  unfold bornIn
  rw [List.map_map]
  rfl

/-- A handler that throws has received the rest of a header, or nothing from this client. -/
theorem receivedOn_of_throws {server : Server} {t : List (State × (Operation × Completion))}
    {s : State} (hrun : Trace (Step server) State.initial t s) (hfew : bornIn t + 1 < 2 ^ 64)
    {event : Operation × Completion} (hpending : event.1 ∈ s.pending)
    (hthrows : Throws server s event) (client : Nat) :
    receivedOn client (t.map asRunning ++ [(.running s, event)]) = receivedOn client t ∨
      ∃ result pos, event = (.read client, result) ∧ writtenTo client s = [] ∧
        find headerEnd (receivedOn client (t.map asRunning ++ [(.running s, event)])) = some pos ∧
        server.respond result.files ((receivedOn client (t.map asRunning ++
          [(.running s, event)])).take (pos + 4)) = none := by
  have happend : receivedOn client (t.map asRunning ++ [(.running s, event)]) =
      receivedOn client t ++ if event.1.client = client then receivedIn [event] else [] := by
    rw [← receivedOn_asRunning client t]
    unfold receivedOn receivedIn
    rw [List.map_append, List.filter_append, List.filter_append, List.flatMap_append]
    by_cases hclient : event.1.client = client
    · simp only [List.map_map, List.filter_filter, List.map_cons, List.map_nil, hclient,
        decide_true, List.filter_cons_of_pos, List.filter_nil, ↓reduceIte]
    · simp only [List.map_map, List.filter_filter, List.map_cons, List.map_nil, hclient,
        decide_false, Bool.false_eq_true, not_false_eq_true, List.filter_cons_of_neg,
        List.filter_nil, List.flatMap_nil, List.append_nil, ↓reduceIte]
  rw [happend]
  by_cases hclient : event.1.client = client
  · rw [if_pos hclient]
    rcases session_run hrun hfew client with ⟨sessions, hrefines, -, t', ht', hevents⟩
    have hreceived := received_run ht'
    rw [hevents] at hreceived
    have hwritten := hrefines.writtenTo client
    rcases hrefines.throws hpending hthrows with ⟨session, hsession, hawaits, hnone⟩
    have hmember : memberOf Session.accepting sessions client = session := by
      rw [memberOf, ← hclient, hsession, Option.getD_some]
    rw [hmember] at hreceived hwritten
    rcases event with ⟨op, result⟩
    rcases Session.next_eq_none hnone with rfl | ⟨received, pos, rfl, herror, hfind, hrespond⟩
    · cases op with
      | accept client' => exact Or.inl (List.append_nil _)
      | _ => cases hawaits
    · cases op with
      | read client' =>
          simp only [Operation.client_read] at hclient
          subst hclient
          have hall : receivedOn client' t ++ receivedIn [(.read client', result)] =
              received ++ result.data := by
            rw [receivedIn_read, if_neg (by rw [herror]; exact Bool.false_ne_true)]
            exact congrArg (· ++ result.data) hreceived.symm
          refine Or.inr ⟨result, pos, rfl, hwritten, ?_, ?_⟩
          · rw [hall]
            exact hfind
          · rw [hall]
            exact hrespond
      | _ => cases hawaits
  · rw [if_neg hclient]
    exact Or.inl (List.append_nil _)

/-- Whatever pieces the bytes of a client arrive in, and whatever the other clients do: nothing is
    written to it until its header is there as a whole, and then one response, to what it has sent
    up to the end of the header. Only where the program ends in the handler that was given this
    header nothing is written. -/
theorem one_response (server : Server) {t : List (Process × (Operation × Completion))}
    {p : Process} (hrun : Trace (ProcessStep server) (.running State.initial) t p)
    (hfew : bornIn t + 1 < 2 ^ 64) (client : Nat) :
    (¬ headerEnd <:+: receivedOn client t → writtenTo client p.state = []) ∧
      ∀ pos, find headerEnd (receivedOn client t) = some pos →
        (∃ x ∈ t, ∃ response, x.2.1 = .read client ∧
          server.respond x.2.2.files ((receivedOn client t).take (pos + 4)) = some response ∧
          writtenTo client p.state = [response.toRawResponse]) ∨
        (p = .ended p.state ∧ writtenTo client p.state = [] ∧ ∃ result,
          t.getLast? = some (.running p.state, .read client, result) ∧
          server.respond result.files ((receivedOn client t).take (pos + 4)) = none) := by
  rcases Process.run_cases hrun with ⟨t₀, s, hrun₀, ⟨rfl, rfl⟩ |
    ⟨rfl, event, hpending, hthrows, rfl⟩⟩
  · rw [bornIn_asRunning] at hfew
    have hwritten := written_of_run server hrun₀ hfew client
    rw [receivedOn_asRunning]
    refine ⟨hwritten.1, fun pos hpos => ?_⟩
    rcases hwritten.2 pos hpos with ⟨x, hx, hresponse⟩
    exact Or.inl ⟨asRunning x, List.mem_map_of_mem hx, hresponse⟩
  · have hfew₀ : bornIn t₀ + 1 < 2 ^ 64 := by
      rw [bornIn_append, bornIn_asRunning] at hfew
      omega
    have hwritten := written_of_run server hrun₀ hfew₀ client
    rcases receivedOn_of_throws hrun₀ hfew₀ hpending hthrows client with hsame |
      ⟨result, pos, rfl, hnothing, hfind, hrespond⟩
    · rw [hsame]
      refine ⟨hwritten.1, fun pos hpos => ?_⟩
      rcases hwritten.2 pos hpos with ⟨x, hx, hresponse⟩
      exact Or.inl ⟨asRunning x, List.mem_append_left _ (List.mem_map_of_mem hx), hresponse⟩
    · refine ⟨fun _ => hnothing, fun pos' hpos' => Or.inr ⟨rfl, hnothing, result, ?_, ?_⟩⟩
      · exact List.getLast?_concat
      · rw [hfind, Option.some.injEq] at hpos'
        rw [← hpos']
        exact hrespond

/-- A file system without files. -/
def FileSystem.empty : FileSystem :=
  ⟨some, some, fun _ => some .notFound, fun _ => none⟩

/-- Two clients connect, the header of the first arrives in two pieces, and it gets its response,
    while the second fails. -/
def twoClients : List (Operation × Completion) :=
  [(.accept 0, ⟨false, true, [], .empty⟩), (.accept 1, ⟨false, true, [], .empty⟩),
    (.read 0, ⟨false, true, [13, 10, 13], .empty⟩), (.read 1, ⟨true, true, [], .empty⟩),
    (.read 0, ⟨false, true, [10, 65], .empty⟩), (.write 0, ⟨false, true, [], .empty⟩)]

/-- A server without handlers. -/
def Server.empty : Server :=
  ⟨∅, bytes "/www"⟩

theorem one_response_two_clients :
    let run := traceOf (after .empty) State.initial twoClients
    writtenTo 0 run.2 = [HttpResponse.toRawResponse ⟨.badRequest, []⟩] ∧
      ∀ pos, find headerEnd (receivedOn 0 (run.1.map asRunning)) = some pos →
        ∃ x ∈ run.1.map asRunning, ∃ response, x.2.1 = .read 0 ∧
          Server.empty.respond x.2.2.files
              ((receivedOn 0 (run.1.map asRunning)).take (pos + 4)) = some response ∧
          writtenTo 0 run.2 = [response.toRawResponse] := by
  refine ⟨by decide, fun pos hpos => ?_⟩
  rcases (one_response .empty (Process.run_of_trace (trace_of_possible (by decide))) (by decide)
    0).2 pos hpos with hresponse | ⟨hended, -⟩
  · exact hresponse
  · cases hended

end WebServer

end CodingChallenges
