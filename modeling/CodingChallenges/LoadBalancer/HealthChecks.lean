import CodingChallenges.LoadBalancer.HealthChecker
import CodingChallenges.Library.Outcomes

/-!
# The Health Checks

How the servers are checked: of `HealthChecker.cpp` the rounds and their handlers, with the
operations of `LbClient.cpp` and `LbClientManager.cpp` that they use.

A round connects to every server. A connection that was made is registered under its id,
unless the id is taken, and a message is written on it. When the write has completed, the
connection is looked up under its id and read from, and when the read has completed, the
registration is removed. All of this is asynchronous, and the timer starts the next round
whether the last one is finished or not.

The connections of successive rounds to one server have one id. So the second one is not
registered while the first one is, and the end of the first one leaves it without a
registration. The handler of its write then finds nothing, and goes on to look for the
server with the address of the connection that it has not found.

What matters for a connection is the order of events: whether a connection with its id was
made since a read on one with its id has completed (`never_null_iff`).

## Main definitions

* `Operation`, `State`: What is pending, and the program between two completions.
* `Event`: The timer, or an operation that completes.
* `performHealthCheck`, `onConnectDone`, `onServerWriteDone`, `onServerReadDone`: The handlers.
* `Step`: One event.
* `Makes`, `EndsRead`: The events that register an id, and those that remove it.

## Theorems

* `registered_iff`: What is registered at the end of a run.
* `never_null_iff`: When no handler of a run uses a connection that was not found.
* `dereferences_null`: Two rounds that overlap.
-/

namespace CodingChallenges

namespace LoadBalancer

/-- `LbClient::get_ip_port`. -/
def LbClient.getIpPort (client : LbClient) : List UInt8 :=
  client.endpoint.ip ++ bytes ":" ++ decimalDigits client.endpoint.port.toNat

namespace HealthCheck

/-- An operation that was started. A connection has no number before it is made. -/
inductive Operation where
  | connect (serverIndex : Nat)
  | write (client : Nat)
  | read (client : Nat)
deriving DecidableEq, Repr

/-- The checker, its connections and what it waits for. -/
structure State where
  checker : HealthChecker
  /-- All connections that were made by health checks. -/
  clients : List LbClient
  lbClients : LbClients
  pending : List Operation

/-- How a handler can go wrong. -/
inductive Fault where
  | nullDereference
deriving DecidableEq, Repr

namespace State

/-- Nothing was started yet. -/
def initial (checker : HealthChecker) : State :=
  ⟨checker, [], ∅, []⟩

/-- The operation is under way from now on. -/
def start (s : State) (op : Operation) : State :=
  { s with pending := op :: s.pending }

/-- The id of a connection. One that was never made has none. -/
def idOf (s : State) (client : Nat) : ClientId :=
  match s.clients[client]? with
  | some lbClient => lbClient.getId
  | none => []

end State

/-- A round: all servers are connected to. -/
def performHealthCheck (s : State) : State :=
  { s with pending := (List.range s.checker.servers.length).map .connect ++ s.pending }

/-- What is done when the connection to a server is made, or when that has failed. -/
def onConnectDone (s : State) (serverIndex : Nat) (endpoint : Option Endpoint) : State :=
  if s.checker.servers.length ≤ serverIndex then
    s
  else
    match endpoint with
    | none => { s with checker := s.checker.setAvailable serverIndex false }
    | some endpoint =>
      let client := s.clients.length
      let lbClient : LbClient := ⟨endpoint, true⟩
      { s with
        clients := s.clients ++ [lbClient]
        lbClients := addLbClient lbClient.getId client s.lbClients }.start (.write client)

/-- The error of the write is not looked at. -/
def onServerWriteDone (s : State) (client : Nat) : Except Fault State :=
  match getLbClient (s.idOf client) s.lbClients with
  | some found => .ok (s.start (.read found))
  | none =>
    -- The search compares the first server with the address of nothing.
    match s.checker.servers with
    | [] => .ok s
    | _ :: _ => .error .nullDereference

/-- The server with the address of a connection is available from now on, or is not. -/
def setAvailableAt (s : State) (found : Nat) (status : Bool) : State :=
  match s.clients[found]? with
  | none => s
  | some lbClient =>
    match s.checker.servers.findIdx? fun server => server.getEndpoint = lbClient.getIpPort with
    | none => s
    | some serverIndex => { s with checker := s.checker.setAvailable serverIndex status }

/-- The reply tells whether the server is there. The connection is given up. -/
def onServerReadDone (s : State) (client : Nat) (error : Bool) : State :=
  match getLbClient (s.idOf client) s.lbClients with
  | none => s
  | some found =>
    let s' := setAvailableAt s found !error
    { s' with lbClients := removeLbClient (s.idOf client) s'.lbClients }

/-- The timer, or an operation that completes: a connection with the endpoint that it leads
    to, if there is no error. -/
inductive Event where
  | timer
  | connectDone (serverIndex : Nat) (endpoint : Option Endpoint)
  | writeDone (client : Nat)
  | readDone (client : Nat) (error : Bool)
deriving DecidableEq, Repr

/-- The operation that an event completes. -/
def Event.operation : Event → Option Operation
  | .timer => none
  | .connectDone serverIndex _ => some (.connect serverIndex)
  | .writeDone client => some (.write client)
  | .readDone client _ => some (.read client)

/-- The operation of the event is not pending any longer. -/
def finish (s : State) (event : Event) : State :=
  match event.operation with
  | none => s
  | some op => { s with pending := s.pending.erase op }

/-- The handler of an event. -/
def handle (s : State) : Event → Except Fault State
  | .timer => .ok (performHealthCheck s)
  | .connectDone serverIndex endpoint => .ok (onConnectDone s serverIndex endpoint)
  | .writeDone client => onServerWriteDone s client
  | .readDone client error => .ok (onServerReadDone s client error)

/-- An event that can happen. After a fault there is none. -/
def Possible (outcome : Except Fault State) (event : Event) : Prop :=
  match outcome with
  | .ok s => ∀ op ∈ event.operation, op ∈ s.pending
  | .error _ => False

instance (outcome : Except Fault State) (event : Event) : Decidable (Possible outcome event) := by
  unfold Possible
  split <;> infer_instance

/-- What an event leads to. -/
def next (outcome : Except Fault State) (event : Event) : Except Fault State :=
  outcome >>= fun s => handle (finish s event) event

/-- One event is handled. -/
def Step (outcome : Except Fault State) (event : Event) (outcome' : Except Fault State) : Prop :=
  Possible outcome event ∧ outcome' = next outcome event

/-- A connection with the id is made. -/
def Makes (id : ClientId) (_ : Except Fault State) (event : Event) : Prop :=
  match event with
  | .connectDone _ (some endpoint) => (LbClient.mk endpoint true).getId = id
  | _ => False

/-- A read on a connection with the id completes. -/
def EndsRead (id : ClientId) (outcome : Except Fault State) (event : Event) : Prop :=
  match outcome, event with
  | .ok s, .readDone client _ => s.idOf client = id
  | _, _ => False

/-- An operation that a round over that many servers may have started. -/
def Operation.Fits (servers : Nat) : Operation → Prop
  | .connect serverIndex => serverIndex < servers
  | .write _ | .read _ => 0 < servers

/-- Whatever is pending has been started for one of the servers. -/
def Sound (s : State) : Prop :=
  ∀ op ∈ s.pending, op.Fits s.checker.servers.length

/-- A connection is registered under the id. -/
def Registered (id : ClientId) (s : State) : Prop :=
  (getLbClient id s.lbClients).isSome

section Managers

variable {id other : ClientId} {client : Nat} {lbClients : LbClients}

theorem isSome_addLbClient : (getLbClient id (addLbClient other client lbClients)).isSome ↔
    other = id ∨ (getLbClient id lbClients).isSome := by
  rw [addLbClient]
  cases hother : lbClients.lookup other with
  | some found =>
      refine (or_iff_right_of_imp ?_).symm
      rintro rfl
      rw [getLbClient, hother, Option.isSome_some]
  | none =>
      simp only [getLbClient]
      by_cases hid : other = id
      · rw [hid, AList.lookup_insert, Option.isSome_some]
        exact iff_of_true rfl (Or.inl rfl)
      · rw [AList.lookup_insert_ne (Ne.symm hid), or_iff_right hid]

theorem isSome_removeLbClient : (getLbClient id (removeLbClient other lbClients)).isSome ↔
    (getLbClient id lbClients).isSome ∧ ¬ other = id := by
  rw [getLbClient, getLbClient, removeLbClient]
  by_cases hid : other = id
  · rw [hid, AList.lookup_erase]
    exact iff_of_false Bool.false_ne_true fun h => h.2 rfl
  · rw [AList.lookup_erase_ne (Ne.symm hid), and_iff_left hid]

end Managers

/-- What an event without a fault leaves behind: the servers, perhaps with another
    availability, operations that were pending or fit the servers, and the registrations. -/
structure Effect (s : State) (event : Event) (s' : State) : Prop where
  length_servers : s'.checker.servers.length = s.checker.servers.length
  pending : ∀ op ∈ s'.pending, op ∈ s.pending ∨ op.Fits s.checker.servers.length
  registered : ∀ id, Registered id s' ↔
    Makes id (.ok s) event ∨ (Registered id s ∧ ¬ EndsRead id (.ok s) event)

section Handlers

variable {s s' : State}

theorem length_setAvailable (checker : HealthChecker) (serverIndex : Nat) (status : Bool) :
    (checker.setAvailable serverIndex status).servers.length = checker.servers.length := by
  rw [HealthChecker.setAvailable, List.length_modify]

theorem effect_onConnectDone {serverIndex : Nat} (hindex : serverIndex < s.checker.servers.length)
    (endpoint : Option Endpoint) :
    Effect s (.connectDone serverIndex endpoint) (onConnectDone s serverIndex endpoint) := by
  unfold onConnectDone
  rw [if_neg (Nat.not_le.mpr hindex)]
  cases endpoint with
  | none =>
      refine ⟨length_setAvailable _ _ _, fun op hop => Or.inl hop, fun id => ?_⟩
      simp only [Makes, EndsRead, Registered, false_or, not_false_eq_true, and_true]
  | some endpoint =>
      refine ⟨rfl, fun op hop => ?_, fun id => ?_⟩
      · rcases List.mem_cons.mp hop with rfl | hop
        · exact Or.inr (Nat.zero_lt_of_lt hindex)
        · exact Or.inl hop
      · simp only [Makes, EndsRead, Registered, State.start, isSome_addLbClient,
          not_false_eq_true, and_true]

/-- Everything else is left as it is when the availability of a server is set. -/
theorem setAvailableAt_same (s : State) (found : Nat) (status : Bool) :
    (setAvailableAt s found status).checker.servers.length = s.checker.servers.length ∧
      (setAvailableAt s found status).pending = s.pending ∧
        (setAvailableAt s found status).lbClients = s.lbClients := by
  rw [setAvailableAt]
  cases s.clients[found]? with
  | none => exact ⟨rfl, rfl, rfl⟩
  | some lbClient =>
      simp only []
      cases s.checker.servers.findIdx? (fun server => server.getEndpoint = lbClient.getIpPort) with
      | none => exact ⟨rfl, rfl, rfl⟩
      | some serverIndex => exact ⟨length_setAvailable _ _ _, rfl, rfl⟩

theorem effect_onServerReadDone (client : Nat) (error : Bool) :
    Effect s (.readDone client error) (onServerReadDone s client error) := by
  rw [onServerReadDone]
  cases hfound : getLbClient (s.idOf client) s.lbClients with
  | none =>
      -- Nothing is removed, but nothing was registered under the id.
      refine ⟨rfl, fun op hop => Or.inl hop, fun id => ?_⟩
      simp only [Makes, EndsRead, false_or]
      refine (and_iff_left_of_imp ?_).symm
      rintro hregistered rfl
      rw [Registered, hfound] at hregistered
      cases hregistered
  | some found =>
      rcases setAvailableAt_same s found (!error) with ⟨hlength, hpending, hregistered⟩
      refine ⟨hlength, fun op hop => Or.inl ?_, fun id => ?_⟩
      · rwa [← hpending]
      · simp only [Makes, EndsRead, Registered, false_or, hregistered, isSome_removeLbClient]

theorem effect_read (h : 0 < s.checker.servers.length) (client found : Nat) :
    Effect s (.writeDone client) (s.start (.read found)) := by
  refine ⟨rfl, fun op hop => ?_, fun id => ?_⟩
  · rcases List.mem_cons.mp hop with rfl | hop
    · exact Or.inr h
    · exact Or.inl hop
  · simp only [Makes, EndsRead, false_or, not_false_eq_true, and_true]
    rfl

theorem effect_performHealthCheck : Effect s .timer (performHealthCheck s) := by
  refine ⟨rfl, fun op hop => ?_, fun id => ?_⟩
  · rcases List.mem_append.mp hop with hop | hop
    · rcases List.mem_map.mp hop with ⟨serverIndex, hmem, rfl⟩
      exact Or.inr (List.mem_range.mp hmem)
    · exact Or.inl hop
  · simp only [Makes, EndsRead, false_or, not_false_eq_true, and_true]
    rfl

end Handlers

section Events

variable {s s' : State} {event : Event}

/-- An event that is possible is one for a server. -/
theorem Sound.fits (h : Sound s) (hpossible : Possible (.ok s) event) :
    ∀ op ∈ event.operation, op.Fits s.checker.servers.length :=
  fun op hop => h op (hpossible op hop)

/-- That the operation is not pending any longer is part of the effect. -/
theorem Effect.of_finish (h : Effect (finish s event) event s') : Effect s event s' := by
  rw [finish] at h
  cases hop : event.operation with
  | none =>
      rw [hop] at h
      exact h
  | some op =>
      rw [hop] at h
      refine ⟨h.length_servers, fun op' hop' => ?_, fun id => ?_⟩
      · exact (h.pending op' hop').imp_left List.mem_of_mem_erase
      · rw [h.registered id]
        cases event with
        | timer => cases hop
        | connectDone serverIndex endpoint => rfl
        | writeDone client => rfl
        | readDone client error => rfl

/-- What any event does: it has its effect, or the connection whose write has completed is
    not registered. -/
theorem handle_cases (h : Sound s) (hpossible : Possible (.ok s) event) :
    (∃ s', handle (finish s event) event = .ok s' ∧ Effect s event s' ∧
        ∀ client, event = .writeDone client → Registered (s.idOf client) s) ∨
      (handle (finish s event) event = .error .nullDereference ∧
        ∃ client, event = .writeDone client ∧ ¬ Registered (s.idOf client) s) := by
  have hfits := h.fits hpossible
  cases event with
  | timer =>
      refine Or.inl ⟨_, rfl, effect_performHealthCheck.of_finish, fun client hclient => ?_⟩
      cases hclient
  | connectDone serverIndex endpoint =>
      -- The round that has started the operation had a server with this index.
      have hindex : serverIndex <
          (finish s (.connectDone serverIndex endpoint)).checker.servers.length := hfits _ rfl
      refine Or.inl ⟨_, rfl, (effect_onConnectDone hindex endpoint).of_finish, ?_⟩
      intro client hclient
      cases hclient
  | readDone client error =>
      refine Or.inl ⟨_, rfl, (effect_onServerReadDone client error).of_finish, ?_⟩
      intro client' hclient
      cases hclient
  | writeDone client =>
      have hservers : 0 < s.checker.servers.length := hfits _ rfl
      have hid : (finish s (.writeDone client)).idOf client = s.idOf client := rfl
      have hlb : (finish s (.writeDone client)).lbClients = s.lbClients := rfl
      have hchecker : (finish s (.writeDone client)).checker = s.checker := rfl
      rw [handle, onServerWriteDone, hid, hlb, hchecker]
      cases hfound : getLbClient (s.idOf client) s.lbClients with
      | some found =>
          have hpos : 0 < (finish s (.writeDone client)).checker.servers.length := hservers
          refine Or.inl ⟨_, rfl, (effect_read hpos client found).of_finish, ?_⟩
          intro client' hclient
          cases hclient
          rw [Registered, hfound, Option.isSome_some]
      | none =>
          -- There are servers, so that the address of the missing connection is asked for.
          refine Or.inr ⟨?_, client, rfl, ?_⟩
          · cases hcons : s.checker.servers with
            | nil =>
                rw [hcons] at hservers
                exact absurd hservers (Nat.lt_irrefl 0)
            | cons server servers => rfl
          · rw [Registered, hfound]
            exact Bool.false_ne_true

theorem Effect.sound (h : Effect s event s') (hsound : Sound s) : Sound s' := by
  intro op hop
  rw [h.length_servers]
  rcases h.pending op hop with hop | hop
  · exact hsound op hop
  · exact hop

end Events

section Runs

variable {checker : HealthChecker} {t : List (Except Fault State × Event)}

/-- The outcome of a run without a fault. -/
def Alive : Except Fault State → Prop
  | .ok s => Sound s
  | .error _ => False

/-- If a write completes, its connection is registered. -/
def FindsOne (outcome : Except Fault State) (event : Event) : Prop :=
  ∀ s client, outcome = .ok s → event = .writeDone client → Registered (s.idOf client) s

/-- One event leads on, unless the connection whose write has completed is not registered. -/
theorem Alive.step {outcome outcome' : Except Fault State} {event : Event} (h : Alive outcome)
    (hstep : Step outcome event outcome') :
    (Alive outcome' ∧ FindsOne outcome event) ∨
      (outcome' = .error .nullDereference ∧ ¬ FindsOne outcome event) := by
  cases outcome with
  | error fault => exact h.elim
  | ok s =>
      rcases hstep with ⟨hpossible, rfl⟩
      rw [next, ok_bind]
      rcases handle_cases h hpossible with
        ⟨s', hhandle, heffect, hfinds⟩ | ⟨hhandle, client, rfl, hnot⟩
      · rw [hhandle]
        refine Or.inl ⟨heffect.sound h, fun s client hs hevent => ?_⟩
        cases hs
        exact hfinds client hevent
      · exact Or.inr ⟨hhandle, fun hfinds => hnot (hfinds s client rfl rfl)⟩

/-- In the beginning nothing is pending. -/
theorem alive_initial (checker : HealthChecker) : Alive (.ok (.initial checker)) :=
  fun _ hop => absurd hop List.not_mem_nil

theorem not_alive_error {outcome : Except Fault State} (h : Alive outcome) :
    outcome ≠ .error .nullDereference := by
  rintro rfl
  exact h

/-- After a fault nothing happens, so that only the end of a run can be one. -/
theorem alive_run {outcome : Except Fault State}
    (h : Trace Step (.ok (.initial checker)) t outcome) :
    (∀ x ∈ t, Alive x.1) ∧ (Alive outcome ∨ outcome = .error .nullDereference) := by
  have hkeeps : ∀ outcome event outcome', Alive outcome ∨ outcome = .error .nullDereference →
      Step outcome event outcome' → Alive outcome' ∨ outcome' = .error .nullDereference := by
    intro outcome event outcome' halive hstep
    rcases halive with halive | rfl
    · exact (halive.step hstep).imp And.left And.left
    · exact hstep.1.elim
  have hall := h.preserved hkeeps (Or.inl (alive_initial checker))
  refine ⟨fun x hx => (hall.1 x hx).resolve_right fun herror => ?_, hall.2⟩
  rcases h.split hx with ⟨t₁, t₂, outcome', -, -, hstep, -⟩
  have hpossible := hstep.1
  rw [herror] at hpossible
  exact hpossible

/-- What is registered at the end of a run: the ids with which a connection was made since a
    read on such a connection has completed. -/
theorem registered_iff {s : State} (h : Trace Step (.ok (.initial checker)) t (.ok s))
    (id : ClientId) : Registered id s ↔ Since (Makes id) (EndsRead id) t := by
  have hkeeps : ∀ outcome event outcome', Alive outcome → Alive outcome' →
      Step outcome event outcome' →
      ((∃ s, outcome' = .ok s ∧ Registered id s) ↔ Makes id outcome event ∨
        (∃ s, outcome = .ok s ∧ Registered id s) ∧ ¬ EndsRead id outcome event) := by
    intro outcome event outcome' halive halive' hstep
    cases outcome with
    | error fault => exact halive.elim
    | ok s =>
        rcases hstep with ⟨hpossible, rfl⟩
        rw [next, ok_bind] at halive' ⊢
        rcases handle_cases halive hpossible with ⟨s', hhandle, heffect, -⟩ | ⟨hhandle, -⟩
        · have hregistered := heffect.registered id
          simpa only [hhandle, Except.ok.injEq, exists_eq_left'] using hregistered
        · exact absurd hhandle (not_alive_error halive')
  have halive := alive_run h
  have hend : Alive (.ok s) := halive.2.resolve_right nofun
  have hsince := h.holds_iff_since hkeeps halive.1 hend
  -- In the beginning nothing is registered.
  have hinitial : ¬ ∃ s, (Except.ok (State.initial checker) : Except Fault State) = .ok s ∧
      Registered id s := by
    rintro ⟨s, hs, hregistered⟩
    cases hs
    cases hregistered
  rw [or_iff_left fun h => hinitial h.1] at hsince
  simpa only [Except.ok.injEq, exists_eq_left'] using hsince

/-- In a run no connection is used that was not found exactly if, whenever a write completes,
    a connection with the id was made since a read on one with this id has completed. -/
theorem never_null_iff {outcome : Except Fault State}
    (h : Trace Step (.ok (.initial checker)) t outcome) :
    outcome ≠ .error .nullDereference ↔
      ∀ t₁ s client t₂, t = t₁ ++ (.ok s, .writeDone client) :: t₂ →
        Since (Makes (s.idOf client)) (EndsRead (s.idOf client)) t₁ := by
  have halive := alive_run h
  have hkeeps : ∀ outcome event outcome', Alive outcome → Step outcome event outcome' →
      (Alive outcome' ↔ FindsOne outcome event) := by
    intro outcome event outcome' halive hstep
    rcases halive.step hstep with ⟨halive', hfinds⟩ | ⟨rfl, hnot⟩
    · exact iff_of_true halive' hfinds
    · exact iff_of_false (fun halive' => not_alive_error halive' rfl) hnot
  have hfinds := h.invariant_iff hkeeps (alive_initial checker)
  constructor
  · rintro hne t₁ s client t₂ rfl
    have hmeets := hfinds.mp ⟨halive.1, halive.2.resolve_right hne⟩
    have hregistered : Registered (s.idOf client) s :=
      hmeets _ (List.mem_append_right _ List.mem_cons_self) s client rfl rfl
    -- What is registered when the write completes was decided by the run up to there.
    rcases h.of_append with ⟨outcome', hfirst, hrest⟩
    cases hrest with
    | cons => exact (registered_iff hfirst _).mp hregistered
  · intro hsince
    refine not_alive_error (hfinds.mpr fun x hx => ?_).2
    intro s client hs hevent
    rcases h.split hx with ⟨t₁, t₂, outcome', hsplit, hfirst, -, -⟩
    rw [hs] at hfirst
    rw [show x = (.ok s, .writeDone client) from Prod.ext hs hevent] at hsplit
    exact (registered_iff hfirst _).mpr (hsince t₁ s client t₂ hsplit)

end Runs

section Rounds

/-- The run in which these events happen one after the other. -/
def runOf (checker : HealthChecker) (events : List Event) :
    List (Except Fault State × Event) × Except Fault State :=
  traceOf next (.ok (.initial checker)) events

theorem trace_runOf (checker : HealthChecker) (events : List Event)
    (h : ∀ x ∈ (runOf checker events).1, Possible x.1 x.2) :
    Trace Step (.ok (.initial checker)) (runOf checker events).1 (runOf checker events).2 :=
  trace_traceOf fun x hx => ⟨h x hx, rfl⟩

/-- A checker with a single server. -/
def oneServer : HealthChecker :=
  .create [(bytes "127.0.0.1", bytes "8080")]

/-- The connection to its server is made. -/
def connected : Event :=
  .connectDone 0 (some ⟨bytes "127.0.0.1", 8080⟩)

/-- Two rounds one after the other. -/
theorem never_null_iff_twoRounds :
    let run := runOf oneServer [.timer, connected, .writeDone 0, .readDone 0 false,
      .timer, connected, .writeDone 1, .readDone 1 false]
    run.2 ≠ .error .nullDereference ↔
      ∀ t₁ s client t₂, run.1 = t₁ ++ (.ok s, .writeDone client) :: t₂ →
        Since (Makes (s.idOf client)) (EndsRead (s.idOf client)) t₁ :=
  never_null_iff (trace_runOf _ _ (by decide))

/-- Of two rounds that overlap the first one ends between the connection and the write of the
    second. -/
theorem dereferences_null :
    ¬ ∀ (checker : HealthChecker) (t : List (Except Fault State × Event))
      (outcome : Except Fault State), Trace Step (.ok (.initial checker)) t outcome →
        outcome ≠ .error .nullDereference := by
  intro hall
  have hrun := trace_runOf oneServer [.timer, connected, .timer, connected, .writeDone 0,
    .readDone 0 false, .writeDone 1] (by decide)
  exact hall oneServer _ _ hrun rfl

end Rounds

end HealthCheck

end LoadBalancer

end CodingChallenges
