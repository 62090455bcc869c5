import CodingChallenges.Library.Traces
import CodingChallenges.WebServer.Normalize
import CodingChallenges.WebServer.StaticFiles
import Mathlib.Data.List.AList

/-!
# The Web Server

`WebServer.cpp`, `Client.cpp` and `ClientManager.cpp`: how connections are accepted, what is
read on them and what is written.

Everything is done in the handlers of asynchronous operations. A handler changes the client and
the manager and starts the next operations; an operation completes at some time after it was
started, in any order with the others, with an error or without. So a state is what the manager
holds together with the operations that are pending, and a step is the completion of one of
these.

An exception that is thrown in a handler, by a function of the file system or by setting an
option of a socket, is caught in none. The program ends with it.

The state also remembers what the program does not: what was written on which connection.

## Main definitions

* `Server`, `Server.registerHandler`: The handlers and the root of the files.
* `Server.respond`: The response to a request.
* `State`, `Operation`, `Completion`: The program between two completions, and how one turns out.
* `handleClientRead`, `onReadSome`, `handleClientWrite`, `handleAccept`: The handlers.
* `Step`: One operation completes.
* `Process`, `ProcessStep`: The program as long as it runs, and when it has ended.

## Theorems

* `exists_processStep`: Whatever completes, the program goes on or ends.
* `Process.run_cases`: The runs of the program.
* `respond_cases`: Where a response comes from.
* `throws_cases`: What may throw.
-/

namespace CodingChallenges

namespace WebServer

open Delimiter

/-- The handlers by their requests, and `m_www_root`. -/
structure Server where
  handlers : AList fun _ : HttpRequest => HttpRequest → HttpResponse
  wwwRoot : Path

/-- `register_handler`. A handler that was there before is replaced. -/
def Server.registerHandler (server : Server) (method : HttpMethod) (path : List UInt8)
    (handler : HttpRequest → HttpResponse) : Server :=
  { server with handlers := server.handlers.insert ⟨method, path⟩ handler }

/-- The response of `handle_client_read` to what was received. -/
def Server.respond (server : Server) (files : FileSystem) (readBuffer : List UInt8) :
    Option HttpResponse :=
  match parse readBuffer with
  | none => some ⟨.badRequest, []⟩
  | some request =>
    match normalizeRequest request with
    | none => some ⟨.badRequest, []⟩
    | some normalizedRequest =>
      match server.handlers.lookup normalizedRequest with
      | some handler => some (handler normalizedRequest)
      | none =>
        match tryHandleStaticFileRequest files normalizedRequest server.wwwRoot with
        | none => none
        | some none => some ⟨.notFound, []⟩
        | some (some staticFileResponse) => some staticFileResponse

/-- Clients are registered under a text. -/
abbrev ClientId := List UInt8

/-- A connection with both of its buffers. -/
structure Client where
  clientId : ClientId
  requestBuffer : List UInt8
  writeBuffer : List UInt8
deriving DecidableEq, Repr

/-- What was read is added to `m_request_buffer`. -/
def Client.receive (data : List UInt8) (c : Client) : Client :=
  { c with requestBuffer := c.requestBuffer ++ data }

/-- What was handled is erased from it. -/
def Client.consume (n : Nat) (c : Client) : Client :=
  { c with requestBuffer := c.requestBuffer.drop n }

/-- What is written is held in `m_write_buffer`. -/
def Client.hold (payload : List UInt8) (c : Client) : Client :=
  { c with writeBuffer := payload }

/-- An operation that was started. A client is a pointer in the source; here it is the place of
    the client among all that were ever made. -/
inductive Operation where
  | accept (client : Nat)
  | read (client : Nat)
  | write (client : Nat)
deriving DecidableEq, Repr

/-- The client that an operation belongs to. -/
def Operation.client : Operation → Nat
  | .accept client => client
  | .read client => client
  | .write client => client

@[simp]
theorem Operation.client_accept (client : Nat) : (Operation.accept client).client = client :=
  rfl

@[simp]
theorem Operation.client_read (client : Nat) : (Operation.read client).client = client :=
  rfl

@[simp]
theorem Operation.client_write (client : Nat) : (Operation.write client).client = client :=
  rfl

/-- The clients that come with the handler of an operation. -/
def Operation.born : Operation → Nat
  | .accept _ => 1
  | .read _ => 0
  | .write _ => 0

/-- How an operation turns out. -/
structure Completion where
  error : Bool
  /-- Whether the socket takes the option `no_delay`. -/
  takesOption : Bool
  /-- What was read into the buffer of 2048 bytes. -/
  data : List UInt8
  /-- The files at this time. -/
  files : FileSystem

/-- The clients, and what is pending. -/
structure State where
  /-- `m_client_counter`, which has 64 bits. -/
  clientCounter : Nat
  /-- All clients that were ever made. -/
  clients : List Client
  /-- `m_clients`. -/
  registered : AList fun _ : ClientId => Nat
  pending : List Operation
  /-- What was written, the latest first. -/
  written : List (Nat × List UInt8)

namespace State

/-- An operation is started. -/
def start (s : State) (op : Operation) : State :=
  { s with pending := op :: s.pending }

/-- The id of a client. -/
def idOf (s : State) (client : Nat) : ClientId :=
  match s.clients[client]? with
  | some c => c.clientId
  | none => []

/-- What is in the buffer of a client. -/
def requestBufferOf (s : State) (client : Nat) : List UInt8 :=
  ((s.clients[client]?).map Client.requestBuffer).getD []

/-- Something is changed in a client. -/
def modifyClient (s : State) (client : Nat) (f : Client → Client) : State :=
  { s with clients := s.clients.modify client f }

/-- `ClientManager::get_client`. -/
def getClient (s : State) (id : ClientId) : Option Nat :=
  s.registered.lookup id

/-- `ClientManager::remove_client`. -/
def removeClient (s : State) (id : ClientId) : State :=
  { s with registered := s.registered.erase id }

/-- `Client::write`. -/
def write (s : State) (client : Nat) (payload : List UInt8) : State :=
  { s.modifyClient client (Client.hold payload) with
    written := (client, payload) :: s.written }.start (.write client)

end State

/-- The id of the client with a number. -/
def clientIdOf (counter : Nat) : ClientId :=
  bytes "client_" ++ decimalDigits counter

/-- `ClientManager::create_new_client`. `insert` changes nothing if the id is taken, and it is
    the client under the id that is returned. -/
def createNewClient (s : State) : State × Nat :=
  let id := clientIdOf s.clientCounter
  let s' := { s with clientCounter := (s.clientCounter + 1) % 2 ^ 64 }
  match s.registered.lookup id with
  | some client => (s', client)
  | none =>
    ({ s' with
        clients := s.clients ++ [⟨id, [], []⟩]
        registered := s.registered.insert id s.clients.length }, s.clients.length)

/-- `WebServer::accept`: the next client is waited for. -/
def accept (s : State) : State :=
  (createNewClient s).1.start (.accept (createNewClient s).2)

/-- A client has connected, and the next one is waited for. There is no state if `set_option`
    throws. -/
def handleAccept (s : State) (result : Completion) (client : Nat) : Option State :=
  match s.getClient (s.idOf client) with
  | none => some (accept s)
  | some found =>
    if result.error then some (accept (s.removeClient (s.idOf client)))
    else if result.takesOption = false then none
    else some (accept (s.start (.read found)))

/-- `handle_client_read` without an error. There is no state if a function of the file system
    throws. -/
def handleClientRead (server : Server) (files : FileSystem) (s : State)
    (readBuffer : List UInt8) (id : ClientId) : Option State :=
  match s.getClient id with
  | none => some s
  | some client =>
    match server.respond files readBuffer with
    | none => none
    | some response => some (s.write client response.toRawResponse)

/-- What `Client::read` does when something was read. The handler gets what is there up to the
    end of the header, and the rest is kept. -/
def onReadSome (server : Server) (s : State) (result : Completion) (client : Nat) :
    Option State :=
  if result.error then some (s.removeClient (s.idOf client))
  else
    let s := s.modifyClient client (Client.receive result.data)
    let requestBuffer := s.requestBufferOf client
    match find (crlf ++ crlf) requestBuffer with
    -- The header is not there as a whole.
    | none => some (s.start (.read client))
    | some headerEnd =>
      (handleClientRead server result.files s (requestBuffer.take (headerEnd + 4))
        (s.idOf client)).map fun s => s.modifyClient client (Client.consume (headerEnd + 4))

/-- After its response a client is removed, whether it was sent or not. -/
def handleClientWrite (s : State) (client : Nat) : State :=
  s.removeClient (s.idOf client)

/-- The handler of an operation that has completed. -/
def complete (server : Server) (s : State) (op : Operation) (result : Completion) :
    Option State :=
  match op with
  | .accept client => handleAccept s result client
  | .read client => onReadSome server s result client
  | .write client => some (handleClientWrite s client)

/-- The server waits for its first client. -/
def State.initial : State :=
  accept ⟨0, [], ∅, [], []⟩

/-- One of the pending operations completes. -/
def Step (server : Server) (s : State) (event : Operation × Completion) (s' : State) : Prop :=
  event.1 ∈ s.pending ∧
    complete server { s with pending := s.pending.erase event.1 } event.1 event.2 = some s'

/-- The program as long as it runs, or when an exception has ended it: then it is left as it was
    before the handler that threw. -/
inductive Process where
  | running (s : State)
  | ended (s : State)

/-- What the program is at, or was last. -/
def Process.state : Process → State
  | .running s => s
  | .ended s => s

/-- The handler of this operation throws. -/
def Throws (server : Server) (s : State) (event : Operation × Completion) : Prop :=
  complete server { s with pending := s.pending.erase event.1 } event.1 event.2 = none

/-- One of the pending operations completes, and the program goes on or ends. -/
inductive ProcessStep (server : Server) : Process → Operation × Completion → Process → Prop where
  | goes (s : State) (event : Operation × Completion) (s' : State)
      (hstep : Step server s event s') :
      ProcessStep server (.running s) event (.running s')
  | ends (s : State) (event : Operation × Completion) (hpending : event.1 ∈ s.pending)
      (hthrows : Throws server s event) : ProcessStep server (.running s) event (.ended s)

/-- A step of a run, as one of the program. -/
def asRunning (x : State × (Operation × Completion)) : Process × (Operation × Completion) :=
  (.running x.1, x.2)

theorem Process.run_of_trace {server : Server} {t : List (State × (Operation × Completion))}
    {s s' : State} (h : Trace (Step server) s t s') :
    Trace (ProcessStep server) (.running s) (t.map asRunning) (.running s') := by
  induction h with
  | nil s => exact Trace.nil _
  | cons s event next t s' hstep _ ih =>
      exact Trace.cons _ event _ _ _ (.goes s event next hstep) ih

/-- A run of the program goes on all the time, or up to its last step, which throws. -/
theorem Process.run_cases {server : Server} {t : List (Process × (Operation × Completion))}
    {s : State} {p : Process} (h : Trace (ProcessStep server) (.running s) t p) :
    ∃ t₀ s', Trace (Step server) s t₀ s' ∧
      ((p = .running s' ∧ t = t₀.map asRunning) ∨
        (p = .ended s' ∧ ∃ event, event.1 ∈ s'.pending ∧ Throws server s' event ∧
          t = t₀.map asRunning ++ [(.running s', event)])) := by
  generalize hstart : Process.running s = start at h
  induction h generalizing s with
  | nil p =>
      subst hstart
      exact ⟨[], s, Trace.nil s, Or.inl ⟨rfl, rfl⟩⟩
  | cons p event next t p' hstep hrest ih =>
      subst hstart
      cases hstep with
      | goes _ _ s₁ hstep =>
          rcases ih rfl with ⟨t₀, s', hrun, hends⟩
          refine ⟨(s, event) :: t₀, s', Trace.cons s event s₁ t₀ s' hstep hrun, ?_⟩
          rcases hends with ⟨rfl, rfl⟩ | ⟨rfl, last, hpending, hthrows, rfl⟩
          · exact Or.inl ⟨rfl, rfl⟩
          · exact Or.inr ⟨rfl, last, hpending, hthrows, rfl⟩
      | ends _ _ hpending hthrows =>
          -- Nothing completes any more.
          cases hrest with
          | nil _ => exact ⟨[], s, Trace.nil s, Or.inr ⟨rfl, event, hpending, hthrows, rfl⟩⟩
          | cons _ _ _ _ _ hstep _ => cases hstep

/-- The state behind an event. If the program ends with it, there is none. -/
def after (server : Server) (s : State) (event : Operation × Completion) : State :=
  (complete server { s with pending := s.pending.erase event.1 } event.1 event.2).getD s

/-- In the run in which these operations complete in this order, they are all pending, and the
    program does not end. -/
def Possible (server : Server) (s : State) (events : List (Operation × Completion)) : Prop :=
  ∀ x ∈ (traceOf (after server) s events).1, x.2.1 ∈ x.1.pending ∧
    (complete server { x.1 with pending := x.1.pending.erase x.2.1 } x.2.1 x.2.2).isSome = true

instance (server : Server) (s : State) (events : List (Operation × Completion)) :
    Decidable (Possible server s events) := by
  unfold Possible
  infer_instance

theorem trace_of_possible {server : Server} {s : State} {events : List (Operation × Completion)}
    (h : Possible server s events) :
    Trace (Step server) s (traceOf (after server) s events).1
      (traceOf (after server) s events).2 := by
  refine trace_traceOf fun x hx => ⟨(h x hx).1, ?_⟩
  rcases Option.isSome_iff_exists.mp (h x hx).2 with ⟨s', hs'⟩
  rw [after, hs']
  rfl

end WebServer

end CodingChallenges
