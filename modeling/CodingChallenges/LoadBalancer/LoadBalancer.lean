import CodingChallenges.LoadBalancer.LbClientManager
import CodingChallenges.Library.Traces

/-!
# The Load Balancer

How requests travel from the users to the backends and the replies back:
`LoadBalancer.cpp`, `UserClientManager.cpp` and the operations of `LbClient.cpp` and
`UserClient.cpp`.

Everything is done in handlers of asynchronous operations. A handler does a few
things with the two managers and starts the next operations; an operation completes
at some time after it was started, in any order with the others, with an error or
without. So a state is what the managers hold together with the operations that are
pending, and a step is the completion of one of these.

Which backend a request goes to is chosen by the health checker. Any choice is
possible here, and so is that there is none.

The state also remembers what the program does not: which requests were written on
which connections, and what was written to the users. What is written to a user
shows where it comes from.

## Main definitions

* `Operation`: An asynchronous operation and what its handler has captured.
* `State`, `Result`: The program between two completions, and how one turns out.
* `onClientReadDone`, `onConnectDone`, `onServerWriteDone`, `onServerReadDone`,
  `onClientWriteDone`, `handleAccept`: The handlers.
* `Step`: One operation completes.
-/

namespace CodingChallenges

namespace LoadBalancer

/-- What fits into the arrays of 2048 bytes. -/
abbrev Buffer := List UInt8

/-- What is written to a user: the bytes that were read from a backend, on the connection
    that they were read from, or a message of the load balancer. -/
inductive Payload where
  | reply (client : Nat) (data : Buffer)
  | serviceUnavailable
  | internalServerError
  | errorMessage (text : Buffer)
deriving DecidableEq, Repr

/-- An operation that was started, with what its handler will use. -/
inductive Operation where
  | accept (user : Nat)
  | readUser (user : Nat)
  | connect (client : Nat) (readData : Buffer) (user : Nat)
  | writeClient (client : Nat) (data : Buffer) (user : Nat)
  | readClient (client user : Nat)
  | writeUser (user : Nat) (payload : Payload)
deriving DecidableEq, Repr

/-- A request that was written to a backend. -/
structure Request where
  client : Nat
  user : Nat
  data : Buffer
deriving DecidableEq, Repr

/-- The users, the connections to backends and what is pending. -/
structure State where
  /-- `m_user_client_counter`, which the ids of the users are made of. -/
  userClientCounter : Nat
  /-- The users that `m_user_clients` holds. -/
  userClients : List Nat
  /-- All connections to backends that were ever made. -/
  clients : List LbClient
  lbClients : LbClients
  pending : List Operation
  requested : List Request
  written : List (Nat × Payload)

/-- How an operation turns out. -/
structure Result where
  /-- The message of the error, if there is one. -/
  error : Option Buffer
  /-- What was read. -/
  data : Buffer
  /-- The backend that is chosen. -/
  server : Option Endpoint
deriving DecidableEq, Repr

namespace State

/-- An operation is started. -/
def start (s : State) (op : Operation) : State :=
  { s with pending := op :: s.pending }

/-- The id of a connection. One that was never made has none. -/
def idOf (s : State) (client : Nat) : ClientId :=
  match s.clients[client]? with
  | some lbClient => lbClient.getId
  | none => []

/-- `UserClient::write`, if the user is still there. -/
def writeUser (s : State) (user : Nat) (payload : Payload) : State :=
  if user ∈ s.userClients then
    { s with written := (user, payload) :: s.written }.start (.writeUser user payload)
  else
    s

/-- `LbClient::write`. -/
def writeClient (s : State) (client : Nat) (data : Buffer) (user : Nat) : State :=
  { s with requested := ⟨client, user, data⟩ :: s.requested }.start (.writeClient client data user)

/-- `LoadBalancer::accept`: the next user is waited for. -/
def accept (s : State) : State :=
  { s with
    userClientCounter := s.userClientCounter + 1
    userClients := s.userClientCounter :: s.userClients }.start (.accept s.userClientCounter)

/-- `UserClientManager::remove_user_client`. -/
def removeUserClient (s : State) (user : Nat) : State :=
  { s with userClients := s.userClients.filter (· ≠ user) }

end State

/-- A user has connected, and the next one is waited for. -/
def handleAccept (s : State) (error : Option Buffer) (user : Nat) : State :=
  let s' :=
    if user ∈ s.userClients then
      match error with
      | none => s.start (.readUser user)
      | some _ => s.removeUserClient user
    else
      s
  s'.accept

/-- A request is passed on to a backend, if there is one. -/
def onClientReadDone (s : State) (result : Result) (user : Nat) : State :=
  match result.error with
  | some _ => s.removeUserClient user
  | none =>
    match result.server with
    | none => s.writeUser user .serviceUnavailable
    | some endpoint =>
      let s' : State := { s with clients := s.clients ++ [⟨endpoint, false⟩] }
      s'.start (.connect s.clients.length result.data user)

/-- What `on_client_read_done` has done when the connection is made. -/
def onConnectDone (s : State) (error : Option Buffer) (client : Nat) (readData : Buffer)
    (user : Nat) : State :=
  match error with
  | some _ => s.writeUser user .serviceUnavailable
  | none =>
    { s with lbClients := addLbClient (s.idOf client) client s.lbClients }.writeClient
      client readData user

/-- The connection is looked up under its id, and the reply is read from the one found. -/
def readReply (s : State) (client user : Nat) : State :=
  match getLbClient (s.idOf client) s.lbClients with
  | none => s
  | some found => s.start (.readClient found user)

/-- The reply is read, also behind an error. -/
def onServerWriteDone (s : State) (error : Option Buffer) (client user : Nat) : State :=
  match error with
  | none => readReply s client user
  | some text =>
    -- After an error the reply is read all the same.
    if user ∈ s.userClients then readReply (s.writeUser user (.errorMessage text)) client user
    else s

/-- The reply is written to the user, unless the user is gone. -/
def onServerReadDone (s : State) (result : Result) (client user : Nat) : State :=
  if user ∈ s.userClients then
    let payload :=
      match result.error with
      | none => .reply client result.data
      | some _ => .internalServerError
    let s' := s.writeUser user payload
    { s' with lbClients := removeLbClient (s.idOf client) s'.lbClients }
  else
    s

/-- A user is removed once it is answered. -/
def onClientWriteDone (s : State) (user : Nat) : State :=
  s.removeUserClient user

/-- The handler of an operation that has completed. -/
def complete (s : State) (op : Operation) (result : Result) : State :=
  match op with
  | .accept user => handleAccept s result.error user
  | .readUser user => onClientReadDone s result user
  | .connect client readData user => onConnectDone s result.error client readData user
  | .writeClient client _ user => onServerWriteDone s result.error client user
  | .readClient client user => onServerReadDone s result client user
  | .writeUser user _ => onClientWriteDone s user

/-- The load balancer waits for its first user. -/
def State.initial : State :=
  State.accept ⟨0, [], [], ∅, [], [], []⟩

/-- One of the pending operations completes. -/
def Step (s : State) (event : Operation × Result) (s' : State) : Prop :=
  event.1 ∈ s.pending ∧ s' = complete { s with pending := s.pending.erase event.1 } event.1 event.2

/-- The run in which these operations complete in this order. -/
def runFrom (s : State) : List (Operation × Result) → List (State × (Operation × Result)) × State
  | [] => ([], s)
  | event :: events =>
    let rest :=
      runFrom (complete { s with pending := s.pending.erase event.1 } event.1 event.2) events
    ((s, event) :: rest.1, rest.2)

/-- In the run only pending operations complete. -/
def Possible (s : State) (events : List (Operation × Result)) : Prop :=
  ∀ x ∈ (runFrom s events).1, x.2.1 ∈ x.1.pending

instance (s : State) (events : List (Operation × Result)) : Decidable (Possible s events) := by
  unfold Possible
  infer_instance

theorem trace_runFrom (s : State) (events : List (Operation × Result)) (h : Possible s events) :
    Trace Step s (runFrom s events).1 (runFrom s events).2 := by
  induction events generalizing s with
  | nil => exact Trace.nil s
  | cons event events ih =>
      rw [Possible, runFrom, List.forall_mem_cons] at h
      exact Trace.cons s event _ _ _ ⟨h.1, rfl⟩ (ih _ h.2)

end LoadBalancer

end CodingChallenges
