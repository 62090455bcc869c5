import CodingChallenges.LoadBalancer.LoadBalancer

/-!
# Whose Reply It Is

Whether what is written to a user comes from the connection on which the request of
this user was written.

Each request gets a connection of its own, and the handlers pass on whose request it
is. The weak spot is between the write and the read: the handler of the write looks
the connection up again under its id, and all connections to one backend share the
id. What it finds is the connection of whoever connected first and was not answered
yet, and the reply to him goes to the wrong user.

So the replies are right in every run in which a connection whose write has completed
finds itself under its id, or nothing (`replies_own`). In that case the user gets no
reply, but no wrong one either.

## Main definitions

* `Requested`: Whose request was written on a connection.
* `OwnReplies`: What is written to a user comes from the connection of his request.
* `FindsItself`: A connection whose write has completed is not taken for another.
* `Effect`: What the handler of an operation does to the operations and the histories.
* `Orderly`: The invariant of the runs in which connections find themselves.

## Theorems

* `complete_effect`: What the handlers do, once and for all.
* `Orderly.step`: The invariant is kept by a connection that finds itself.
* `replies_own`: In such runs every reply goes to its user.
* `mixes_replies`: Two requests to one backend can get each other's reply.
-/

namespace CodingChallenges

namespace LoadBalancer

/-- The request of the user was written on the connection. -/
def Requested (s : State) (client user : Nat) : Prop :=
  ∃ data, ⟨client, user, data⟩ ∈ s.requested

/-- What was read from a backend and written to a user comes from a connection on which
    his request was written, and nobody else's. -/
def OwnReplies (s : State) : Prop :=
  ∀ user client data, (user, Payload.reply client data) ∈ s.written →
    Requested s client user ∧ ∀ other, Requested s client other → other = user

/-- If a write to a backend completes, then what is found under the id of the connection
    is the connection itself, or nothing. -/
def FindsItself (s : State) : Operation × Result → Prop
  | (.writeClient client _ _, _) =>
    ∀ found ∈ getLbClient (s.idOf client) s.lbClients, found = client
  | _ => True

instance (s : State) (event : Operation × Result) : Decidable (FindsItself s event) := by
  unfold FindsItself
  split <;> infer_instance

/-- The connection that is being made. -/
def Operation.connecting : Operation → Option Nat
  | .connect client _ _ => some client
  | _ => none

/-- An operation that has nothing to do with a backend. -/
def Operation.Quiet : Operation → Prop
  | .accept _ | .readUser _ | .writeUser _ _ => True
  | _ => False

/-- What was not read from a backend. -/
def Payload.Local : Payload → Prop
  | .reply _ _ => False
  | _ => True

/-- What the handler of an operation does: the operations it starts, the requests it writes
    and what it writes to users. -/
inductive Effect (s : State) :
    Operation → List Operation → List Request → List (Nat × Payload) → Prop
  | quiet (op : Operation) {ops : List Operation} {writes : List (Nat × Payload)} :
      (∀ op' ∈ ops, op'.Quiet) → (∀ w ∈ writes, w.2.Local) → Effect s op ops [] writes
  | connect (user : Nat) (data : Buffer) :
      Effect s (.readUser user) [.connect s.clients.length data user] [] []
  | request (client : Nat) (data : Buffer) (user : Nat) :
      Effect s (.connect client data user) [.writeClient client data user] [⟨client, user, data⟩] []
  | read (client : Nat) (data : Buffer) (user found : Nat) {ops : List Operation}
      {writes : List (Nat × Payload)} :
      getLbClient (s.idOf client) s.lbClients = some found → (∀ op' ∈ ops, op'.Quiet) →
      (∀ w ∈ writes, w.2.Local) →
      Effect s (.writeClient client data user) (.readClient found user :: ops) [] writes
  | reply (client user : Nat) (data : Buffer) {ops : List Operation} :
      (∀ op' ∈ ops, op'.Quiet) →
      Effect s (.readClient client user) ops [] [(user, .reply client data)]

/-- The state after a handler: what it has added, and no connection is forgotten. -/
structure Adds (s s' : State) (ops : List Operation) (requests : List Request)
    (writes : List (Nat × Payload)) : Prop where
  pending : s'.pending = ops ++ s.pending
  requested : s'.requested = requests ++ s.requested
  written : s'.written = writes ++ s.written
  clients : s.clients.length ≤ s'.clients.length
  made : ∀ client ∈ ops.filterMap Operation.connecting, client < s'.clients.length

theorem connecting_of_quiet {ops : List Operation} (h : ∀ op ∈ ops, op.Quiet) :
    ops.filterMap Operation.connecting = [] := by
  rw [List.filterMap_eq_nil_iff]
  intro op hop
  have hquiet := h op hop
  cases op with
  | connect client data user => cases hquiet
  | _ => rfl

namespace Adds

variable {s s' s'' : State} {ops ops' : List Operation} {requests requests' : List Request}
  {writes writes' : List (Nat × Payload)}

theorem refl (s : State) : Adds s s [] [] [] :=
  ⟨rfl, rfl, rfl, Nat.le_refl _, fun _ h => absurd h List.not_mem_nil⟩

/-- What one part of a handler adds comes on top of what the part before it added. -/
theorem trans (h : Adds s s' ops requests writes) (h' : Adds s' s'' ops' requests' writes') :
    Adds s s'' (ops' ++ ops) (requests' ++ requests) (writes' ++ writes) := by
  refine ⟨?_, ?_, ?_, Nat.le_trans h.clients h'.clients, ?_⟩
  · rw [h'.pending, h.pending, List.append_assoc]
  · rw [h'.requested, h.requested, List.append_assoc]
  · rw [h'.written, h.written, List.append_assoc]
  · intro client hclient
    rw [List.filterMap_append, List.mem_append] at hclient
    rcases hclient with hclient | hclient
    · exact h'.made client hclient
    · exact Nat.lt_of_lt_of_le (h.made client hclient) h'.clients

/-- An operation that makes no connection is started. -/
theorem start (s : State) {op : Operation} (h : op.connecting = none) :
    Adds s (s.start op) [op] [] [] := by
  refine ⟨rfl, rfl, rfl, Nat.le_refl _, fun client hclient => ?_⟩
  rw [List.filterMap_cons_none h] at hclient
  exact absurd hclient List.not_mem_nil

/-- Nothing is added by a change of the users or of the map. -/
theorem of_managers (s : State) (counter : Nat) (users : List Nat) (lbClients : LbClients) :
    Adds s { s with userClientCounter := counter, userClients := users, lbClients := lbClients }
      [] [] [] :=
  ⟨rfl, rfl, rfl, Nat.le_refl _, fun _ h => absurd h List.not_mem_nil⟩

end Adds

/-- The handler has done nothing with the backends. -/
def QuietlyAdds (s s' : State) : Prop :=
  ∃ ops writes, (∀ op ∈ ops, Operation.Quiet op) ∧ (∀ w ∈ writes, Payload.Local w.2) ∧
    Adds s s' ops [] writes

namespace QuietlyAdds

variable {s s' s'' : State}

theorem refl (s : State) : QuietlyAdds s s :=
  ⟨[], [], fun _ h => absurd h List.not_mem_nil, fun _ h => absurd h List.not_mem_nil, Adds.refl s⟩

theorem trans (h : QuietlyAdds s s') (h' : QuietlyAdds s' s'') : QuietlyAdds s s'' := by
  rcases h with ⟨ops, writes, hops, hwrites, hadds⟩
  rcases h' with ⟨ops', writes', hops', hwrites', hadds'⟩
  refine ⟨ops' ++ ops, writes' ++ writes, fun op hop => ?_, fun w hw => ?_, hadds.trans hadds'⟩
  · rcases List.mem_append.mp hop with hop | hop
    · exact hops' op hop
    · exact hops op hop
  · rcases List.mem_append.mp hw with hw | hw
    · exact hwrites' w hw
    · exact hwrites w hw

theorem start (s : State) {op : Operation} (h : op.Quiet) : QuietlyAdds s (s.start op) := by
  refine ⟨[op], [], fun op' hop' => ?_, fun _ h => absurd h List.not_mem_nil, Adds.start s ?_⟩
  · rw [List.mem_singleton] at hop'
    rwa [hop']
  · cases op with
    | connect client data user => cases h
    | _ => rfl

theorem of_managers (s : State) (counter : Nat) (users : List Nat) (lbClients : LbClients) :
    QuietlyAdds s
      { s with userClientCounter := counter, userClients := users, lbClients := lbClients } :=
  ⟨[], [], fun _ h => absurd h List.not_mem_nil, fun _ h => absurd h List.not_mem_nil,
    Adds.of_managers s counter users lbClients⟩

theorem writeUser (s : State) (user : Nat) {payload : Payload} (h : payload.Local) :
    QuietlyAdds s (s.writeUser user payload) := by
  by_cases huser : user ∈ s.userClients
  · rw [State.writeUser, if_pos huser]
    refine ⟨[.writeUser user payload], [(user, payload)], fun op hop => ?_, fun w hw => ?_, ?_⟩
    · rw [List.mem_singleton] at hop
      rw [hop]
      trivial
    · rw [List.mem_singleton] at hw
      rwa [hw]
    · exact ⟨rfl, rfl, rfl, Nat.le_refl _, fun _ h => absurd h List.not_mem_nil⟩
  · rw [State.writeUser, if_neg huser]
    exact refl s

theorem accept (s : State) : QuietlyAdds s s.accept :=
  (of_managers s (s.userClientCounter + 1) (s.userClientCounter :: s.userClients)
    s.lbClients).trans (start _ trivial)

/-- What is added quietly is the effect of any operation. -/
theorem effect {op : Operation} (h : QuietlyAdds s s') :
    ∃ ops requests writes, Effect s op ops requests writes ∧ Adds s s' ops requests writes := by
  rcases h with ⟨ops, writes, hops, hwrites, hadds⟩
  exact ⟨ops, [], writes, Effect.quiet op hops hwrites, hadds⟩

end QuietlyAdds

theorem quietlyAdds_handleAccept (s : State) (error : Option Buffer) (user : Nat) :
    QuietlyAdds s (handleAccept s error user) := by
  unfold handleAccept
  refine QuietlyAdds.trans ?_ (QuietlyAdds.accept _)
  by_cases huser : user ∈ s.userClients
  · rw [if_pos huser]
    cases error with
    | none => exact QuietlyAdds.start s trivial
    | some text => exact QuietlyAdds.of_managers s _ _ _
  · rw [if_neg huser]
    exact QuietlyAdds.refl s

/-- The handler of a write, once the user has been told of an error or not: it starts a
    read on what it finds. -/
theorem readReply_effect {s s' : State} (client : Nat) (data : Buffer) (user : Nat)
    (hquiet : QuietlyAdds s s') (hlb : s'.lbClients = s.lbClients)
    (hclients : s'.clients = s.clients) :
    ∃ ops requests writes, Effect s (.writeClient client data user) ops requests writes ∧
      Adds s (readReply s' client user) ops requests writes := by
  have hid : s'.idOf client = s.idOf client := by rw [State.idOf, hclients, State.idOf]
  rw [readReply, hid, hlb]
  cases hfound : getLbClient (s.idOf client) s.lbClients with
  | none => exact hquiet.effect
  | some found =>
      rcases hquiet with ⟨ops, writes, hops, hwrites, hadds⟩
      exact ⟨.readClient found user :: ops, [], writes,
        Effect.read client data user found hfound hops hwrites, hadds.trans (Adds.start s' rfl)⟩

theorem onServerWriteDone_effect (s : State) (error : Option Buffer) (client : Nat)
    (data : Buffer) (user : Nat) :
    ∃ ops requests writes, Effect s (.writeClient client data user) ops requests writes ∧
      Adds s (onServerWriteDone s error client user) ops requests writes := by
  cases error with
  | none => exact readReply_effect client data user (QuietlyAdds.refl s) rfl rfl
  | some text =>
      by_cases huser : user ∈ s.userClients
      · have hlocal : (Payload.errorMessage text).Local := trivial
        rw [onServerWriteDone, if_pos huser]
        refine readReply_effect client data user (QuietlyAdds.writeUser s user hlocal) ?_ ?_
        · rw [State.writeUser, if_pos huser]
          rfl
        · rw [State.writeUser, if_pos huser]
          rfl
      · rw [onServerWriteDone, if_neg huser]
        exact (QuietlyAdds.refl s).effect

theorem onServerReadDone_effect (s : State) (result : Result) (client user : Nat) :
    ∃ ops requests writes, Effect s (.readClient client user) ops requests writes ∧
      Adds s (onServerReadDone s result client user) ops requests writes := by
  by_cases huser : user ∈ s.userClients
  · rw [onServerReadDone, if_pos huser]
    cases herror : result.error with
    | none =>
        refine ⟨[.writeUser user (.reply client result.data)], [],
          [(user, .reply client result.data)],
          Effect.reply client user result.data fun op hop => ?_, ?_⟩
        · rw [List.mem_singleton] at hop
          rw [hop]
          trivial
        · simp only [State.writeUser, if_pos huser]
          exact ⟨rfl, rfl, rfl, Nat.le_refl _, fun _ h => absurd h List.not_mem_nil⟩
    | some text =>
        have hlocal : Payload.internalServerError.Local := trivial
        exact ((QuietlyAdds.writeUser s user hlocal).trans (QuietlyAdds.of_managers _ _ _ _)).effect
  · rw [onServerReadDone, if_neg huser]
    exact (QuietlyAdds.refl s).effect

/-- What the handler of an operation does. -/
theorem complete_effect (s : State) (op : Operation) (result : Result) :
    ∃ ops requests writes, Effect s op ops requests writes ∧
      Adds s (complete s op result) ops requests writes := by
  have hlocal : Payload.serviceUnavailable.Local := trivial
  cases op with
  | accept user => exact (quietlyAdds_handleAccept s result.error user).effect
  | readUser user =>
      rw [complete, onClientReadDone]
      cases result.error with
      | some text => exact (QuietlyAdds.of_managers s _ _ _).effect
      | none =>
          cases result.server with
          | none => exact (QuietlyAdds.writeUser s user hlocal).effect
          | some endpoint =>
              -- The new client gets the next number, which no connection has had before.
              have hlength : (s.clients ++ [LbClient.mk endpoint false]).length =
                  s.clients.length + 1 := List.length_append
              refine ⟨[.connect s.clients.length result.data user], [], [],
                Effect.connect user result.data, rfl, rfl, rfl, ?_, fun client hclient => ?_⟩
              · exact (Nat.le_succ _).trans_eq hlength.symm
              · rw [List.mem_singleton.mp hclient]
                exact Nat.lt_of_lt_of_eq (Nat.lt_succ_self _) hlength.symm
  | connect client data user =>
      rw [complete]
      unfold onConnectDone
      cases result.error with
      | some text => exact (QuietlyAdds.writeUser s user hlocal).effect
      | none =>
          refine ⟨[.writeClient client data user], [⟨client, user, data⟩], [],
            Effect.request client data user, rfl, rfl, rfl, Nat.le_refl _, ?_⟩
          exact fun _ h => absurd h List.not_mem_nil
  | writeClient client data user => exact onServerWriteDone_effect s result.error client data user
  | readClient client user => exact onServerReadDone_effect s result client user
  | writeUser user payload => exact (QuietlyAdds.of_managers s _ _ _).effect

/-- The connections that are being made or on which a request was written. -/
def State.handled (s : State) : List Nat :=
  s.pending.filterMap Operation.connecting ++ s.requested.map Request.client

/-- Each request has a connection of its own, and whatever is done on a connection is
    done for the user whose request it has. -/
structure Orderly (s : State) : Prop where
  distinct : s.handled.Nodup
  made : ∀ client ∈ s.handled, client < s.clients.length
  writes : ∀ client data user, .writeClient client data user ∈ s.pending → Requested s client user
  reads : ∀ client user, .readClient client user ∈ s.pending → Requested s client user
  replies : ∀ user client data, (user, .reply client data) ∈ s.written → Requested s client user

theorem orderly_initial : Orderly State.initial := by
  refine ⟨List.nodup_nil, fun _ h => absurd h List.not_mem_nil, ?_, ?_, ?_⟩
  · intro client data user h
    cases List.mem_singleton.mp h
  · intro client user h
    cases List.mem_singleton.mp h
  · intro user client data h
    exact absurd h List.not_mem_nil

/-- On a connection there is the request of one user only. -/
theorem Orderly.ownReplies {s : State} (h : Orderly s) : OwnReplies s := by
  intro user client data hwritten
  have hown := h.replies user client data hwritten
  refine ⟨hown, fun other hother => ?_⟩
  rcases hown with ⟨request, hrequest⟩
  rcases hother with ⟨request', hrequest'⟩
  have hnodup : (s.requested.map Request.client).Nodup :=
    h.distinct.sublist (List.sublist_append_right _ _)
  have hsame := List.inj_on_of_nodup_map hnodup hrequest' hrequest rfl
  rw [Request.mk.injEq] at hsame
  exact hsame.2.1

theorem Adds.requested_mono {s s' : State} {ops : List Operation} {requests : List Request}
    {writes : List (Nat × Payload)} (h : Adds s s' ops requests writes) {client user : Nat}
    (hrequested : Requested s client user) : Requested s' client user := by
  rcases hrequested with ⟨data, hmem⟩
  refine ⟨data, ?_⟩
  rw [h.requested]
  exact List.mem_append_right requests hmem

/-- The operations that are pending after a step are those that its handler started and
    those that were pending before. -/
theorem Adds.mem_pending {s s' : State} {op op' : Operation} {ops : List Operation}
    {requests : List Request} {writes : List (Nat × Payload)}
    (h : Adds { s with pending := s.pending.erase op } s' ops requests writes)
    (hmem : op' ∈ s'.pending) : op' ∈ ops ∨ op' ∈ s.pending := by
  rw [h.pending, List.mem_append] at hmem
  exact hmem.imp_right List.mem_of_mem_erase

theorem Adds.handled_eq {s s' : State} {ops : List Operation} {requests : List Request}
    {writes : List (Nat × Payload)} (h : Adds s s' ops requests writes) :
    s'.handled = ops.filterMap Operation.connecting ++ s.pending.filterMap Operation.connecting ++
      (requests.map Request.client ++ s.requested.map Request.client) := by
  rw [State.handled, h.pending, h.requested, List.filterMap_append, List.map_append]

/-- The connections that are handled after a step: those from before, perhaps without one,
    and perhaps one that was not there yet. -/
theorem Orderly.handled_step {s s' : State} {op : Operation} {ops : List Operation}
    {requests : List Request} {writes : List (Nat × Payload)} (h : Orderly s)
    (hop : op ∈ s.pending)
    (heffect : Effect { s with pending := s.pending.erase op } op ops requests writes)
    (hadds : Adds { s with pending := s.pending.erase op } s' ops requests writes) :
    s'.handled.Nodup ∧ ∀ client ∈ s'.handled, client < s'.clients.length := by
  have hperm : (s.pending.filterMap Operation.connecting).Perm
      ((op :: s.pending.erase op).filterMap Operation.connecting) :=
    (List.perm_cons_erase hop).filterMap _
  have hsub : ((s.pending.erase op).filterMap Operation.connecting ++
      s.requested.map Request.client).Sublist s.handled :=
    ((List.erase_sublist).filterMap _).append (List.Sublist.refl _)
  have hbound : ∀ client ∈ s.handled, client < s'.clients.length :=
    fun client hclient => Nat.lt_of_lt_of_le (h.made client hclient) hadds.clients
  -- Most handlers do not touch the connections.
  have hsame : ops.filterMap Operation.connecting = [] → requests = [] →
      s'.handled.Nodup ∧ ∀ client ∈ s'.handled, client < s'.clients.length := by
    intro hops hrequests
    rw [hadds.handled_eq, hops, hrequests, List.nil_append, List.map_nil, List.nil_append]
    exact ⟨h.distinct.sublist hsub, fun client hclient => hbound client (hsub.subset hclient)⟩
  cases heffect with
  | quiet _ hops _ => exact hsame (connecting_of_quiet hops) rfl
  | read client data user found _ hops _ => exact hsame (connecting_of_quiet hops :) rfl
  | reply client user data hops => exact hsame (connecting_of_quiet hops) rfl
  | connect user data =>
      -- The new connection is behind all that were made.
      rw [hadds.handled_eq]
      have hfresh : s.clients.length ∉ s.handled :=
        fun hmem => absurd (h.made _ hmem) (Nat.lt_irrefl _)
      refine ⟨List.nodup_cons.mpr
        ⟨fun hmem => hfresh (hsub.subset hmem), h.distinct.sublist hsub⟩, ?_⟩
      intro client hclient
      rcases List.mem_cons.mp hclient with rfl | hclient
      · exact hadds.made _ List.mem_cons_self
      · exact hbound client (hsub.subset hclient)
  | request client data user =>
      -- A connection that was being made is one with a request now.
      have hmoved : s'.handled.Perm s.handled := by
        rw [hadds.handled_eq]
        refine List.perm_middle.trans ?_
        exact hperm.symm.append_right _
      exact ⟨hmoved.nodup_iff.mpr h.distinct, fun c hc => hbound c (hmoved.subset hc)⟩

/-- The invariant is kept if a connection whose write has completed finds itself. -/
theorem Orderly.step (s : State) (event : Operation × Result) (s' : State) (h : Orderly s)
    (hfinds : FindsItself s event) (hstep : Step s event s') : Orderly s' := by
  rcases event with ⟨op, result⟩
  rcases hstep with ⟨hop, rfl⟩
  rcases complete_effect { s with pending := s.pending.erase op } op result with
    ⟨ops, requests, writes, heffect, hadds⟩
  rcases h.handled_step hop heffect hadds with ⟨hdistinct, hmade⟩
  have hmono : ∀ {client user}, Requested s client user → Requested _ client user :=
    fun hrequested => hadds.requested_mono hrequested
  refine ⟨hdistinct, hmade, fun client data user hmem => ?_, fun client user hmem => ?_,
    fun user client data hmem => ?_⟩
  · rcases hadds.mem_pending hmem with hnew | hold
    · -- A write is started together with its request.
      cases heffect with
      | request client' data' user' =>
          cases List.mem_singleton.mp hnew
          exact ⟨data, by rw [hadds.requested]; exact List.mem_cons_self⟩
      | connect user' data' => cases List.mem_singleton.mp hnew
      | quiet _ hops _ => exact absurd (hops _ hnew) id
      | read client' data' user' found _ hops _ =>
          rcases List.mem_cons.mp hnew with heq | hnew
          · cases heq
          · exact absurd (hops _ hnew) id
      | reply client' user' data' hops => exact absurd (hops _ hnew) id
    · exact hmono (h.writes client data user hold)
  · rcases hadds.mem_pending hmem with hnew | hold
    · cases heffect with
      | request client' data' user' => cases List.mem_singleton.mp hnew
      | connect user' data' => cases List.mem_singleton.mp hnew
      | quiet _ hops _ => exact absurd (hops _ hnew) id
      | read client' data' user' found hfound hops _ =>
          rcases List.mem_cons.mp hnew with heq | hnew
          · -- The read is on the connection of the write, because that was found.
            cases heq
            rw [hfinds _ hfound]
            exact hmono (h.writes client' data' _ hop)
          · exact absurd (hops _ hnew) id
      | reply client' user' data' hops => exact absurd (hops _ hnew) id
    · exact hmono (h.reads client user hold)
  · rw [hadds.written, List.mem_append] at hmem
    rcases hmem with hnew | hold
    · cases heffect with
      | request client' data' user' => exact absurd hnew List.not_mem_nil
      | connect user' data' => exact absurd hnew List.not_mem_nil
      | quiet _ _ hwrites => exact absurd (hwrites _ hnew) id
      | read client' data' user' found _ _ hwrites => exact absurd (hwrites _ hnew) id
      | reply client' user' data' _ =>
          cases List.mem_singleton.mp hnew
          exact hmono (h.reads client user hop)
    · exact hmono (h.replies user client data hold)

/-- In every run in which each connection finds itself, or nothing, when its write has
    completed, every user gets the reply to his own request. -/
theorem replies_own (s : State) (t : List (State × (Operation × Result)))
    (h : Trace Step State.initial t s) (hfinds : ∀ x ∈ t, FindsItself x.1 x.2) :
    (∀ x ∈ t, OwnReplies x.1) ∧ OwnReplies s := by
  have hinv := h.invariant Orderly.step orderly_initial hfinds
  exact ⟨fun x hx => (hinv.1 x hx).ownReplies, hinv.2.ownReplies⟩

/-- No error. The bytes are what was read, and the port is that of the backend. -/
def Result.ok (data : Buffer) (port : UInt16) : Result :=
  ⟨none, data, some ⟨bytes "127.0.0.1", port⟩⟩

/-- Two users whose requests go to backends at the two ports, up to the writes of both. -/
def twoRequests (port port' : UInt16) : List (Operation × Result) :=
  [(.accept 0, .ok [] 0), (.accept 1, .ok [] 0), (.readUser 0, .ok [10] port),
    (.readUser 1, .ok [11] port'), (.connect 0 [10] 0, .ok [] 0), (.connect 1 [11] 1, .ok [] 0)]

/-- Two users with a backend each get their replies, in the other order. -/
theorem replies_own_two :
    let run := runFrom State.initial (twoRequests 8080 8081 ++
      [(.writeClient 1 [11] 1, .ok [] 0), (.readClient 1 1, .ok [21] 0),
        (.writeClient 0 [10] 0, .ok [] 0), (.readClient 0 0, .ok [20] 0)])
    run.2.written = [(0, .reply 0 [20]), (1, .reply 1 [21])] ∧
      (∀ x ∈ run.1, OwnReplies x.1) ∧ OwnReplies run.2 := by
  intro run
  exact ⟨by decide, replies_own run.2 run.1 (trace_runFrom _ _ (by decide)) (by decide)⟩

/-- Of two users whose requests go to one backend the second can get the reply to the
    first. -/
theorem mixes_replies :
    ¬ ∀ (s : State) (t : List (State × (Operation × Result))), Trace Step State.initial t s →
      (∀ x ∈ t, x.2.2.error = none) → (∀ x ∈ t, OwnReplies x.1) ∧ OwnReplies s := by
  intro hall
  have hmixed := (hall _ _ (trace_runFrom State.initial (twoRequests 8080 8080 ++
    [(.writeClient 1 [11] 1, .ok [] 0), (.writeClient 0 [10] 0, .ok [] 0),
      (.readClient 0 1, .ok [20] 0)]) (by decide)) (by decide)).2
  rcases (hmixed 1 0 [20] (by decide)).1 with ⟨data, hrequest⟩
  have hrequests : (runFrom State.initial (twoRequests 8080 8080 ++
      [(.writeClient 1 [11] 1, .ok [] 0), (.writeClient 0 [10] 0, .ok [] 0),
        (.readClient 0 1, .ok [20] 0)])).2.requested =
      [⟨1, 1, [11]⟩, ⟨0, 0, [10]⟩] := by decide
  rw [hrequests] at hrequest
  rcases List.mem_pair.mp hrequest with h | h <;> cases h

end LoadBalancer

end CodingChallenges
