import CodingChallenges.Library.Families
import CodingChallenges.WebServer.WebServer

/-!
# Sessions

What the web server is for: each connection is a session of its own. A session waits for its
client, reads until the header is there, writes one response and is over. The server is a family
of such sessions, one of which is waiting for a client.

The server finds its clients by their ids, which are numbered. As long as the numbers do not
repeat, every client finds itself, and a client is registered exactly as long as it waits for
something.

## Main definitions

* `Session`: A connection and what was received on it.
* `SessionStep`: What a session does when its operation completes.
* `Refines`: A state of the server shows a family of sessions.

## Theorems

* `Refines.step`: A step of the server is a step of one of the sessions.
* `Refines.run`: A run of the server is a run of the family.
-/

namespace CodingChallenges

namespace WebServer

open Delimiter

/-- A connection: what was received on it, and what was written. -/
inductive Session where
  | accepting
  | reading (received : List UInt8)
  | writing (received payload : List UInt8)
  | closed (received : List UInt8) (payload : Option (List UInt8))
deriving DecidableEq, Repr

namespace Session

/-- The session waits for this operation. -/
def Awaits : Session → Operation → Prop
  | .accepting, .accept _ => True
  | .reading _, .read _ => True
  | .writing _ _, .write _ => True
  | _, _ => False

/-- The operation that the session of a client waits for. -/
def operation (client : Nat) : Session → Option Operation
  | .accepting => some (.accept client)
  | .reading _ => some (.read client)
  | .writing _ _ => some (.write client)
  | .closed _ _ => none

/-- What the server has read of the request. -/
def received : Session → List UInt8
  | .accepting => []
  | .reading received => received
  | .writing received _ => received
  | .closed received _ => received

/-- What was written. -/
def payload : Session → Option (List UInt8)
  | .accepting => none
  | .reading _ => none
  | .writing _ payload => some payload
  | .closed _ payload => payload

/-- What the session has received when it may still receive something. -/
def unread : Session → Option (List UInt8)
  | .accepting => some []
  | .reading received => some received
  | _ => none

/-- What a session becomes when its operation completes. -/
def next (server : Server) (result : Completion) : Session → Option Session
  | .accepting =>
    if result.error then some (.closed [] none)
    else if result.takesOption = false then none
    else some (.reading [])
  | .reading received =>
    if result.error then some (.closed received none)
    else
      match find (crlf ++ crlf) (received ++ result.data) with
      | none => some (.reading (received ++ result.data))
      | some headerEnd =>
        (server.respond result.files ((received ++ result.data).take (headerEnd + 4))).map
          fun response => .writing (received ++ result.data) response.toRawResponse
  | .writing received payload => some (.closed received (some payload))
  | .closed received payload => some (.closed received payload)

end Session

/-- What becomes of a session that waits for its client. -/
theorem Session.next_accepting {server : Server} {result : Completion} {session' : Session}
    (h : Session.next server result .accepting = some session') :
    (result.error = true ∧ session' = .closed [] none) ∨
      (result.error = false ∧ result.takesOption = true ∧ session' = .reading []) := by
  simp only [Session.next] at h
  by_cases herror : result.error = true
  · rw [if_pos herror] at h
    cases h
    exact Or.inl ⟨herror, rfl⟩
  · rw [if_neg herror] at h
    by_cases hoption : result.takesOption = false
    · rw [if_pos hoption] at h
      cases h
    · rw [if_neg hoption] at h
      cases h
      exact Or.inr ⟨Bool.eq_false_iff.mpr herror, (Bool.not_eq_false _).mp hoption, rfl⟩

/-- What becomes of a session that reads. -/
theorem Session.next_reading {server : Server} {result : Completion} {received : List UInt8}
    {session' : Session} (h : Session.next server result (.reading received) = some session') :
    (result.error = true ∧ session' = .closed received none) ∨
      (result.error = false ∧ find (crlf ++ crlf) (received ++ result.data) = none ∧
        session' = .reading (received ++ result.data)) ∨
      (result.error = false ∧ ∃ headerEnd response,
        find (crlf ++ crlf) (received ++ result.data) = some headerEnd ∧
        server.respond result.files ((received ++ result.data).take (headerEnd + 4)) =
          some response ∧
        session' = .writing (received ++ result.data) response.toRawResponse) := by
  simp only [Session.next] at h
  by_cases herror : result.error = true
  · rw [if_pos herror] at h
    cases h
    exact Or.inl ⟨herror, rfl⟩
  · rw [if_neg herror] at h
    refine Or.inr ?_
    rw [Bool.not_eq_true] at herror
    cases hfind : find (crlf ++ crlf) (received ++ result.data) with
    | none =>
        simp only [hfind, Option.some.injEq] at h
        exact Or.inl ⟨herror, rfl, h.symm⟩
    | some headerEnd =>
        simp only [hfind, Option.map_eq_some_iff] at h
        rcases h with ⟨response, hresponse, rfl⟩
        exact Or.inr ⟨herror, headerEnd, response, rfl, hresponse, rfl⟩

/-- A session has nothing to become if it has no client yet, or no response to a whole header. -/
theorem Session.next_eq_none {server : Server} {result : Completion} {session : Session}
    (h : Session.next server result session = none) :
    session = .accepting ∨ ∃ received headerEnd, session = .reading received ∧
      result.error = false ∧ find (crlf ++ crlf) (received ++ result.data) = some headerEnd ∧
      server.respond result.files ((received ++ result.data).take (headerEnd + 4)) = none := by
  cases session with
  | accepting => exact Or.inl rfl
  | reading received =>
      simp only [next] at h
      by_cases herror : result.error = true
      · rw [if_pos herror] at h
        cases h
      · rw [if_neg herror] at h
        cases hfind : find (crlf ++ crlf) (received ++ result.data) with
        | none =>
            simp only [hfind] at h
            cases h
        | some headerEnd =>
            simp only [hfind, Option.map_eq_none_iff] at h
            exact Or.inr ⟨received, headerEnd, rfl, Bool.eq_false_iff.mpr herror, hfind, h⟩
  | writing received payload => cases h
  | closed received payload => cases h

/-- The operation of a session completes. -/
def SessionStep (server : Server) (session : Session) (event : Operation × Completion)
    (session' : Session) : Prop :=
  session.Awaits event.1 ∧ session.next server event.2 = some session'

/-- A family of sessions. Those that join wait for their clients. -/
abbrev SessionsStep (server : Server) :=
  FamilyStep Session.accepting (SessionStep server)

/-- The state of the server shows the sessions. -/
structure Refines (s : State) (sessions : List Session) : Prop where
  length : s.clients.length = sessions.length
  counter : s.clientCounter = sessions.length
  ids : ∀ client < sessions.length, s.idOf client = clientIdOf client
  /-- A client is found under its id as long as its session waits for something. -/
  lookup : ∀ client : Nat, s.registered.lookup (clientIdOf client) =
    ((sessions[client]?).bind (Session.operation client)).map Operation.client
  keys : ∀ id client, s.registered.lookup id = some client → id = clientIdOf client
  pending : ∀ client : Nat, s.pending.filter (fun op => op.client = client) =
    ((sessions[client]?).bind (Session.operation client)).toList
  buffer : ∀ (client : Nat) buffer, (sessions[client]?).bind Session.unread = some buffer →
    (s.clients[client]?).map Client.requestBuffer = some buffer
  written : ∀ client : Nat, (s.written.filter fun x => x.1 = client).map Prod.snd =
    ((sessions[client]?).bind Session.payload).toList

theorem clientIdOf_injective : Function.Injective clientIdOf := by
  intro counter counter' h
  exact decimalDigits_injective (List.append_cancel_left h)

theorem Session.awaits_iff (session : Session) (op : Operation) :
    session.Awaits op ↔ session.operation op.client = some op := by
  cases session <;> cases op <;> simp [Awaits, operation]

theorem Session.client_of_operation {session : Session} {client : Nat} {op : Operation}
    (h : session.operation client = some op) : op.client = client := by
  cases session with
  | closed received payload => cases h
  | _ =>
      cases h
      rfl

/-- The last of the sessions waits for its client, and no other does. -/
def OneWaits (sessions : List Session) : Prop :=
  ∀ client : Nat, sessions[client]? = some .accepting ↔ client + 1 = sessions.length

/-- No session waits for its client again. -/
theorem Session.next_ne_accepting {server : Server} {result : Completion}
    {session session' : Session} (h : session.next server result = some session') :
    session' ≠ .accepting := by
  rintro rfl
  cases session with
  | accepting =>
      rcases next_accepting h with ⟨-, h⟩ | ⟨-, -, h⟩ <;> cases h
  | reading received =>
      rcases next_reading h with ⟨-, h⟩ | ⟨-, -, h⟩ | ⟨-, pos, response, -, -, h⟩ <;> cases h
  | writing received payload => cases h
  | closed received payload => cases h

/-- Behind the session that has got its client another one waits. -/
theorem OneWaits.step {server : Server} {sessions sessions' : List Session}
    {event : Operation × Completion} (h : OneWaits sessions)
    (hstep : SessionsStep server sessions (event.1.client, event) sessions')
    (hlength : sessions'.length = sessions.length + event.1.born) : OneWaits sessions' := by
  rcases event with ⟨op, result⟩
  rcases hstep with ⟨session, session', born, hsession, ⟨hawaits, hnext⟩, rfl⟩
  have hborn : born = op.born := by
    simpa only [List.length_append, List.length_set, List.length_replicate,
      Nat.add_left_cancel_iff] using hlength
  subst hborn
  have hnot := Session.next_ne_accepting hnext
  rcases List.getElem?_eq_some_iff.mp hsession with ⟨hlt, -⟩
  intro client
  rw [hlength, List.getElem?_append, List.length_set]
  by_cases hbefore : client < sessions.length
  · rw [if_pos hbefore]
    by_cases hown : client = op.client
    · subst hown
      rw [List.getElem?_set_self hlt, Option.some.injEq]
      refine iff_of_false hnot fun hlast => ?_
      cases op with
      | accept client => exact absurd hlast (by simp only [Operation.born]; omega)
      | _ =>
          have hwaits := (h _).mpr hlast
          rw [hsession, Option.some.injEq] at hwaits
          rw [hwaits] at hawaits
          cases hawaits
    · rw [List.getElem?_set_ne (Ne.symm hown), h client]
      cases op with
      | accept other =>
          cases session with
          | accepting =>
              have hlast := (h other).mp hsession
              rw [Operation.client_accept] at hown
              simp only [Operation.born]
              omega
          | _ => cases hawaits
      | _ => exact Iff.rfl
  · rw [if_neg hbefore, List.getElem?_replicate]
    by_cases hin : client - sessions.length < op.born
    · rw [if_pos hin]
      refine iff_of_true rfl ?_
      cases op <;> simp only [Operation.born] at hin ⊢ <;> omega
    · rw [if_neg hin]
      refine iff_of_false (by simp only [reduceCtorEq, not_false_eq_true]) ?_
      cases op <;> simp only [Operation.born] at hin ⊢ <;> omega

/-- The clients that come in a run. -/
def bornIn {α : Type} (t : List (α × (Operation × Completion))) : Nat :=
  (t.map fun x => x.2.1.born).sum

theorem bornIn_cons {α : Type} (s : α) (event : Operation × Completion)
    (t : List (α × (Operation × Completion))) :
    bornIn ((s, event) :: t) = event.1.born + bornIn t :=
  rfl

theorem bornIn_append {α : Type} (t t' : List (α × (Operation × Completion))) :
    bornIn (t ++ t') = bornIn t + bornIn t' := by
  unfold bornIn
  rw [List.map_append, List.sum_append]

namespace Refines

variable {s s' : State} {sessions : List Session} {client : Nat} {session session' : Session}

/-- A session that has not begun has nothing. -/
theorem bind_getElem?_set {β : Type*} (f : Session → Option β)
    (hsession : sessions[client]? = some session) (other : Nat) :
    ((sessions.set client session')[other]?).bind f =
      if other = client then f session' else (sessions[other]?).bind f := by
  rcases List.getElem?_eq_some_iff.mp hsession with ⟨hlt, -⟩
  by_cases hother : other = client
  · simp only [hother, List.length_set, hlt, getElem?_pos, List.getElem_set_self, Option.bind_some,
      ↓reduceIte]
  · simp only [ne_eq, Ne.symm hother, not_false_eq_true, List.getElem?_set_ne, hother, ↓reduceIte]

/-- The client that an operation of a session belongs to is found. -/
theorem lookup_self (h : Refines s sessions) (hsession : sessions[client]? = some session)
    {op : Operation} (hop : session.operation client = some op) :
    s.registered.lookup (s.idOf client) = some client := by
  rcases List.getElem?_eq_some_iff.mp hsession with ⟨hlt, -⟩
  rw [h.ids client hlt, h.lookup, hsession, Option.bind_some, hop, Option.map_some,
    Session.client_of_operation hop]

/-- The operations of the other clients stay, and that of the session is gone. -/
theorem pending_erase (h : Refines s sessions) (hsession : sessions[client]? = some session)
    {op : Operation} (hop : session.operation client = some op) (other : Nat) :
    (s.pending.erase op).filter (fun op' => op'.client = other) =
      if other = client then []
      else ((sessions[other]?).bind (Session.operation other)).toList := by
  rw [← List.erase_filter, h.pending other]
  split_ifs with hother
  · subst hother
    rw [hsession, Option.bind_some, hop]
    simp only [Option.toList_some, List.erase_cons_head]
  · refine List.erase_of_not_mem fun hmem => hother ?_
    rw [Option.mem_toList, Option.bind_eq_some_iff] at hmem
    rcases hmem with ⟨session'', -, hop'⟩
    rw [← Session.client_of_operation hop', Session.client_of_operation hop]

/-- One session goes on, and its client with it. -/
theorem update (h : Refines s sessions) (hsession : sessions[client]? = some session)
    {op : Operation} (hop : session.operation client = some op) {f : Client → Client}
    (hid : ∀ c, (f c).clientId = c.clientId) (hclients : s'.clients = s.clients.modify client f)
    (hcounter : s'.clientCounter = s.clientCounter)
    (hregistered : s'.registered =
      if (session'.operation client).isSome then s.registered
      else s.registered.erase (s.idOf client))
    (hpending : s'.pending = (session'.operation client).toList ++ s.pending.erase op)
    (payloads : List (List UInt8))
    (hwritten : s'.written = payloads.map (client, ·) ++ s.written)
    (hpayload : session'.payload.toList = payloads ++ session.payload.toList)
    (hbuffer : ∀ buffer, session'.unread = some buffer →
      ((s.clients[client]?).map f).map Client.requestBuffer = some buffer) :
    Refines s' (sessions.set client session') := by
  rcases List.getElem?_eq_some_iff.mp hsession with ⟨hlt, -⟩
  have hown : s.idOf client = clientIdOf client := h.ids client hlt
  refine ⟨?_, ?_, ?_, ?_, ?_, ?_, ?_, ?_⟩
  · rw [hclients, List.length_modify, List.length_set, h.length]
  · rw [hcounter, List.length_set, h.counter]
  · intro other hother
    rw [List.length_set] at hother
    have hsame : s'.idOf other = s.idOf other := by
      unfold State.idOf
      rw [hclients, List.getElem?_modify]
      by_cases hcase : client = other
      · cases hat : s.clients[other]? with
        | none => simp only [Option.map_eq_map, Option.map_none]
        | some c => simp only [hcase, ↓reduceIte, Option.map_eq_map, Option.map_some, hid]
      · cases hat : s.clients[other]? with
        | none => simp only [Option.map_eq_map, Option.map_none]
        | some c => simp only [hcase, ↓reduceIte, id_map']
    rw [hsame, h.ids other hother]
  · intro other
    rw [hregistered, bind_getElem?_set _ hsession]
    by_cases hother : other = client
    · rw [if_pos hother, hother]
      cases hop' : session'.operation client with
      | none =>
          rw [hown]
          exact AList.lookup_erase _ _
      | some op' =>
          rw [← hown, Option.isSome_some, if_pos rfl, h.lookup_self hsession hop, Option.map_some,
            Session.client_of_operation hop']
    · have hne : clientIdOf other ≠ clientIdOf client := fun hsame =>
        hother (clientIdOf_injective hsame)
      rw [if_neg hother, ← h.lookup other]
      split_ifs
      · rfl
      · rw [hown]
        exact AList.lookup_erase_ne hne
  · intro id other hfound
    refine h.keys id other ?_
    rw [hregistered] at hfound
    split_ifs at hfound
    · exact hfound
    · by_cases hcase : id = s.idOf client
      · rw [hcase, AList.lookup_erase] at hfound
        cases hfound
      · rwa [AList.lookup_erase_ne hcase] at hfound
  · intro other
    rw [hpending, List.filter_append, h.pending_erase hsession hop, bind_getElem?_set _ hsession]
    by_cases hother : other = client
    · subst hother
      rw [if_pos rfl, if_pos rfl, List.append_nil]
      cases hop' : session'.operation other with
      | none => rfl
      | some op' => simp [Session.client_of_operation hop']
    · rw [if_neg hother, if_neg hother]
      cases hop' : session'.operation client with
      | none => rfl
      | some op' => simp [Session.client_of_operation hop', Ne.symm hother]
  · intro other buffer hunread
    rw [bind_getElem?_set _ hsession] at hunread
    rw [hclients, List.getElem?_modify]
    by_cases hother : other = client
    · subst hother
      rw [if_pos rfl] at hunread
      simpa only [↓reduceIte, Option.map_eq_map, Option.map_map, Option.map_eq_some_iff,
        Function.comp_apply] using hbuffer buffer hunread
    · rw [if_neg hother] at hunread
      simpa only [Ne.symm hother, ↓reduceIte, id_map',
        Option.map_eq_some_iff] using h.buffer other buffer hunread
  · intro other
    rw [hwritten, List.filter_append, List.map_append, h.written other,
      bind_getElem?_set _ hsession]
    by_cases hother : other = client
    · subst hother
      rw [if_pos rfl, hpayload, hsession, Option.bind_some]
      simp only [List.filter_map, Function.comp_def, decide_true, List.filter_true, List.map_map,
        List.map_id_fun', id_eq]
    · rw [if_neg hother]
      simp only [List.filter_map, Function.comp_def, Ne.symm hother, decide_false,
        List.filter_false, List.map_nil, List.nil_append]

/-- The next client is waited for. -/
theorem accept (h : Refines s sessions) (hfew : sessions.length + 1 < 2 ^ 64) :
    Refines (accept s) (sessions ++ [Session.accepting]) := by
  -- The number of the next client is not that of another.
  have hfree : s.registered.lookup (clientIdOf s.clientCounter) = none := by
    rw [h.lookup, h.counter, List.getElem?_eq_none (Nat.le_refl _)]
    rfl
  have hnew : createNewClient s =
      ({ s with
          clientCounter := sessions.length + 1
          clients := s.clients ++ [⟨clientIdOf sessions.length, [], []⟩]
          registered := s.registered.insert (clientIdOf sessions.length) sessions.length },
        sessions.length) := by
    simp only [createNewClient, hfree, h.counter, h.length, Nat.mod_eq_of_lt hfew]
  unfold WebServer.accept
  rw [hnew]
  have hbind : ∀ {β : Type} (g : Session → Option β) (other : Nat),
      ((sessions ++ [Session.accepting])[other]?).bind g =
        if other = sessions.length then g .accepting else (sessions[other]?).bind g := by
    intro β g other
    by_cases hother : other = sessions.length
    · simp only [hother, List.length_append, List.length_cons, List.length_nil, zero_add,
        Nat.lt_add_one, getElem?_pos, Std.le_refl, List.getElem_append_right, Nat.sub_self,
        List.getElem_cons_zero, Option.bind_some, ↓reduceIte]
    · by_cases hlt : other < sessions.length
      · simp only [List.getElem?_append_left hlt, hother, ↓reduceIte]
      · simp only [List.getElem?_append, hlt, ↓reduceIte, List.length_cons, List.length_nil,
          zero_add, Nat.lt_one_iff, Nat.sub_ne_zero_of_lt (Nat.lt_of_le_of_ne (Nat.le_of_not_lt hlt)
          (Ne.symm hother)), not_false_eq_true, getElem?_neg, Option.bind_none, hother]
  refine ⟨?_, ?_, ?_, ?_, ?_, ?_, ?_, ?_⟩
  · simp only [State.start, List.length_append, h.length, List.length_cons, List.length_nil,
      zero_add]
  · simp only [State.start, List.length_append, List.length_cons, List.length_nil, zero_add]
  · intro other hother
    rw [List.length_append, List.length_singleton] at hother
    by_cases hlast : other = sessions.length
    · simp only [State.idOf, State.start, ← h.length, hlast, List.length_append, List.length_cons,
        List.length_nil, zero_add, Nat.lt_add_one, getElem?_pos, Std.le_refl,
        List.getElem_append_right, Nat.sub_self, List.getElem_cons_zero]
    · have hlt : other < sessions.length := by omega
      have hids := h.ids other hlt
      rw [← h.length] at hlt
      simpa only [State.idOf, State.start, List.getElem?_append_left hlt] using hids
  · intro other
    rw [hbind]
    by_cases hlast : other = sessions.length
    · subst hlast
      simp only [State.start, AList.lookup_insert, ↓reduceIte, Session.operation, Option.map_some,
        Operation.client_accept]
    · have hne : clientIdOf other ≠ clientIdOf sessions.length := fun hsame =>
        hlast (clientIdOf_injective hsame)
      simp only [State.start, AList.lookup_insert_ne hne, h.lookup, Option.map_bind, hlast,
        ↓reduceIte]
  · intro id other hfound
    by_cases hid : id = clientIdOf sessions.length
    · subst hid
      rw [State.start, AList.lookup_insert, Option.some.injEq] at hfound
      rw [hfound]
    · refine h.keys id other ?_
      simpa only [State.start, AList.lookup_insert_ne hid] using hfound
  · intro other
    rw [hbind]
    by_cases hlast : other = sessions.length
    · subst hlast
      have hnone := h.pending sessions.length
      rw [List.getElem?_eq_none (Nat.le_refl _)] at hnone
      simp only [State.start, List.filter_cons, Operation.client_accept, decide_true, if_true,
        hnone]
      rfl
    · simp only [State.start, Operation.client_accept, Ne.symm hlast, decide_false,
        Bool.false_eq_true, not_false_eq_true, List.filter_cons_of_neg, h.pending, hlast,
        ↓reduceIte]
  · intro other buffer hunread
    rw [hbind] at hunread
    by_cases hlast : other = sessions.length
    · rw [if_pos hlast] at hunread
      cases hunread
      simp only [State.start, ← h.length, hlast, List.length_append, List.length_cons,
        List.length_nil, zero_add, Nat.lt_add_one, getElem?_pos, Std.le_refl,
        List.getElem_append_right, Nat.sub_self, List.getElem_cons_zero, Option.map_some]
    · rw [if_neg hlast] at hunread
      have hbuffer := h.buffer other buffer hunread
      have hlt : other < s.clients.length := by
        by_contra hle
        rw [List.getElem?_eq_none (Nat.le_of_not_lt hle)] at hbuffer
        cases hbuffer
      simpa only [State.start, List.getElem?_append_left hlt, Option.map_eq_some_iff] using hbuffer
  · intro other
    rw [hbind]
    by_cases hlast : other = sessions.length
    · have hnone := h.written sessions.length
      rw [List.getElem?_eq_none (Nat.le_refl _)] at hnone
      simpa only [hlast, State.start, ↓reduceIte, Session.payload, Option.toList_none,
        List.map_eq_nil_iff, List.filter_eq_nil_iff, decide_eq_true_eq, Prod.forall,
        Option.bind_none] using hnone
    · simp only [State.start, h.written, hlast, ↓reduceIte]

/-- A pending operation is that of a session. -/
theorem session_of_pending (h : Refines s sessions) {op : Operation} (hop : op ∈ s.pending) :
    ∃ session, sessions[op.client]? = some session ∧ session.operation op.client = some op := by
  have hmem : op ∈ s.pending.filter fun op' => op'.client = op.client := by
    simp only [List.mem_filter, hop, decide_true, and_self]
  rw [h.pending, Option.mem_toList, Option.bind_eq_some_iff] at hmem
  exact hmem

/-- The session is over. -/
theorem close (h : Refines s sessions) (hsession : sessions[client]? = some session)
    {op : Operation} (hop : session.operation client = some op) {received : List UInt8} :
    Refines ({ s with pending := s.pending.erase op }.removeClient (s.idOf client))
      (sessions.set client (.closed received session.payload)) :=
  h.update hsession hop (f := id) (fun _ => rfl) (by simp [State.removeClient]) rfl rfl rfl
    [] rfl rfl (fun _ hunread => by cases hunread)

/-- The client that has connected is found under its id. -/
theorem getClient_erase (h : Refines s sessions) (hsession : sessions[client]? = some session)
    {op : Operation} (hop : session.operation client = some op) :
    State.getClient { s with pending := s.pending.erase op }
      (State.idOf { s with pending := s.pending.erase op } client) = some client :=
  h.lookup_self hsession hop

/-- The header is awaited. -/
theorem handleAccept (h : Refines s sessions) (server : Server)
    (hsession : sessions[client]? = some .accepting) (hfew : sessions.length + 1 < 2 ^ 64)
    {result : Completion}
    (hstep : handleAccept { s with pending := s.pending.erase (.accept client) } result client =
      some s') :
    ∃ session', Session.next server result .accepting = some session' ∧
      Refines s' (sessions.set client session' ++ [Session.accepting]) := by
  have hop : Session.operation client .accepting = some (.accept client) := rfl
  unfold WebServer.handleAccept at hstep
  rw [h.getClient_erase hsession hop] at hstep
  simp only [Session.next] at hstep ⊢
  by_cases herror : result.error = true
  · rw [if_pos herror] at hstep ⊢
    cases hstep
    exact ⟨_, rfl, Refines.accept (h.close hsession hop) (by rwa [List.length_set])⟩
  · rw [if_neg herror] at hstep ⊢
    by_cases hoption : result.takesOption = false
    · rw [if_pos hoption] at hstep
      cases hstep
    · rw [if_neg hoption] at hstep ⊢
      cases hstep
      refine ⟨_, rfl, Refines.accept ?_ (by rwa [List.length_set])⟩
      refine h.update hsession hop (f := id) (fun _ => rfl) (by simp [State.start]) rfl rfl rfl
        [] rfl rfl ?_
      intro buffer hunread
      cases hunread
      simpa only [Option.map_id, id_eq,
        Option.map_eq_some_iff] using h.buffer client [] (by rw [hsession]; rfl)

theorem idOf_modifyClient (s : State) (client : Nat) {f : Client → Client}
    (hid : ∀ c, (f c).clientId = c.clientId) :
    (s.modifyClient client f).idOf client = s.idOf client := by
  unfold State.modifyClient State.idOf
  cases hat : s.clients[client]? with
  | none => simp only [List.getElem?_modify_eq, hat, Option.map_eq_map, Option.map_none]
  | some c => simp only [List.getElem?_modify_eq, hat, Option.map_eq_map, Option.map_some, hid]

/-- The buffer holds all that was received. -/
theorem receive (h : Refines s sessions) {received : List UInt8} (data : List UInt8)
    (hsession : sessions[client]? = some (.reading received)) :
    ((s.clients[client]?).map (Client.receive data)).map Client.requestBuffer =
      some (received ++ data) := by
  have hbuffer := h.buffer client received (by rw [hsession]; rfl)
  rw [Option.map_eq_some_iff] at hbuffer
  rcases hbuffer with ⟨c, hc, rfl⟩
  rw [hc]
  rfl

theorem requestBufferOf_receive (h : Refines s sessions) {received : List UInt8}
    (data : List UInt8) (hsession : sessions[client]? = some (.reading received)) (s₁ : State)
    (hclients : s₁.clients = s.clients) :
    (s₁.modifyClient client (Client.receive data)).requestBufferOf client = received ++ data := by
  have hreceive := h.receive data hsession
  unfold State.requestBufferOf State.modifyClient
  rw [hclients, List.getElem?_modify_eq]
  exact congrArg (Option.getD · []) hreceive

/-- The response is written. -/
theorem handleClientRead (h : Refines s sessions) {received : List UInt8} {server : Server}
    {result : Completion} {headerEnd : Nat}
    (hsession : sessions[client]? = some (.reading received)) {s₁ s₂ : State}
    (hs₁ : s₁ = State.modifyClient { s with pending := s.pending.erase (.read client) } client
      (Client.receive result.data))
    (hread : handleClientRead server result.files s₁
      ((received ++ result.data).take (headerEnd + 4)) (s₁.idOf client) = some s₂) :
    ∃ response, server.respond result.files ((received ++ result.data).take (headerEnd + 4)) =
        some response ∧
      Refines (s₂.modifyClient client (Client.consume (headerEnd + 4)))
        (sessions.set client (.writing (received ++ result.data) response.toRawResponse)) := by
  have hop : Session.operation client (.reading received) = some (.read client) := rfl
  have hfound : s₁.getClient (s₁.idOf client) = some client := by
    rw [hs₁, idOf_modifyClient _ client (f := Client.receive result.data) fun _ => rfl]
    exact h.lookup_self hsession hop
  unfold WebServer.handleClientRead at hread
  rw [hfound] at hread
  cases hresponse : server.respond result.files
      ((received ++ result.data).take (headerEnd + 4)) with
  | none =>
      simp only [hresponse] at hread
      cases hread
  | some response =>
      simp only [hresponse, Option.some.injEq] at hread
      subst hread hs₁
      refine ⟨response, rfl, ?_⟩
      refine h.update hsession hop (f := fun c => (Client.consume (headerEnd + 4)
        (Client.hold response.toRawResponse (Client.receive result.data c)))) (fun _ => rfl) ?_ rfl
        rfl rfl [response.toRawResponse] rfl rfl (fun _ hunread => by cases hunread)
      simp only [State.write, State.start, State.modifyClient, List.modify_modify_eq]
      rfl

/-- Something has been read, or the connection has failed. -/
theorem onReadSome (h : Refines s sessions) {received : List UInt8} {server : Server}
    {result : Completion} (hsession : sessions[client]? = some (.reading received))
    (hstep : onReadSome server { s with pending := s.pending.erase (.read client) } result client =
      some s') :
    ∃ session', Session.next server result (.reading received) = some session' ∧
      Refines s' (sessions.set client session') := by
  have hop : Session.operation client (.reading received) = some (.read client) := rfl
  unfold WebServer.onReadSome at hstep
  simp only [Session.next]
  by_cases herror : result.error = true
  · rw [if_pos herror] at hstep ⊢
    cases hstep
    exact ⟨_, rfl, h.close hsession hop⟩
  · rw [if_neg herror] at hstep ⊢
    have hbuffer := h.requestBufferOf_receive result.data hsession
      { s with pending := s.pending.erase (.read client) } rfl
    simp only [hbuffer] at hstep
    cases hfind : find (crlf ++ crlf) (received ++ result.data) with
    | none =>
        simp only [hfind, Option.some.injEq] at hstep
        subst hstep
        refine ⟨_, rfl, ?_⟩
        refine h.update hsession hop (f := Client.receive result.data) (fun _ => rfl) rfl rfl rfl
          rfl [] rfl rfl ?_
        intro buffer hunread
        cases hunread
        exact h.receive result.data hsession
    | some headerEnd =>
        simp only [hfind, Option.map_eq_some_iff] at hstep
        rcases hstep with ⟨s₂, hread, rfl⟩
        rcases h.handleClientRead hsession rfl hread with ⟨response, hresponse, hrefines⟩
        refine ⟨_, ?_, hrefines⟩
        simp only [hresponse, Option.map_some]

/-- A step of the server is a step of one of the sessions. -/
theorem step (h : Refines s sessions) {server : Server} {event : Operation × Completion}
    (hstep : Step server s event s') (hfew : sessions.length + event.1.born < 2 ^ 64) :
    ∃ sessions', SessionsStep server sessions (event.1.client, event) sessions' ∧
      Refines s' sessions' ∧ sessions'.length = sessions.length + event.1.born := by
  rcases event with ⟨op, result⟩
  rcases hstep with ⟨hpending, hcomplete⟩
  rcases h.session_of_pending hpending with ⟨session, hsession, hop⟩
  have hawaits : session.Awaits op := (session.awaits_iff op).mpr hop
  cases op with
  | accept client =>
      cases session with
      | accepting =>
          rcases h.handleAccept server hsession hfew hcomplete with
            ⟨session', hnext, hrefines⟩
          refine ⟨_, ⟨.accepting, session', 1, hsession, ⟨hawaits, hnext⟩, rfl⟩, hrefines, ?_⟩
          simp only [Operation.client_accept, List.replicate_one, List.length_append,
            List.length_set, List.length_cons, List.length_nil, zero_add, Operation.born]
      | _ => cases hop
  | read client =>
      cases session with
      | reading received =>
          rcases h.onReadSome hsession hcomplete with ⟨session', hnext, hrefines⟩
          refine ⟨_, ⟨_, session', 0, hsession, ⟨hawaits, hnext⟩, rfl⟩, ?_, ?_⟩
          · simpa only [Operation.client_read, List.replicate_zero, List.append_nil] using hrefines
          · simp only [Operation.client_read, List.replicate_zero, List.append_nil, List.length_set,
              Operation.born, add_zero]
      | _ => cases hop
  | write client =>
      cases session with
      | writing received payload =>
          cases hcomplete
          refine ⟨_, ⟨_, _, 0, hsession, ⟨hawaits, rfl⟩, rfl⟩, ?_, ?_⟩
          · rw [List.replicate_zero, List.append_nil]
            exact h.close hsession hop
          · simp only [Operation.client_write, List.replicate_zero, List.append_nil,
              List.length_set, Operation.born, add_zero]
      | _ => cases hop

/-- The option cannot be set. -/
theorem handleAccept_throws (h : Refines s sessions) {server : Server} {result : Completion}
    (hsession : sessions[client]? = some .accepting)
    (hthrows : WebServer.handleAccept { s with pending := s.pending.erase (.accept client) } result
      client = none) : Session.next server result .accepting = none := by
  have hop : Session.operation client .accepting = some (.accept client) := rfl
  unfold WebServer.handleAccept at hthrows
  rw [h.getClient_erase hsession hop] at hthrows
  simp only [Session.next] at hthrows ⊢
  by_cases herror : result.error = true
  · rw [if_pos herror] at hthrows
    cases hthrows
  · rw [if_neg herror] at hthrows ⊢
    by_cases hoption : result.takesOption = false
    · rw [if_pos hoption]
    · rw [if_neg hoption] at hthrows
      cases hthrows

/-- There is a whole header, and no response to it. -/
theorem onReadSome_throws (h : Refines s sessions) {server : Server} {result : Completion}
    {received : List UInt8} (hsession : sessions[client]? = some (.reading received))
    (hthrows : WebServer.onReadSome server { s with pending := s.pending.erase (.read client) }
      result client = none) : Session.next server result (.reading received) = none := by
  have hop : Session.operation client (.reading received) = some (.read client) := rfl
  unfold WebServer.onReadSome at hthrows
  simp only [Session.next]
  by_cases herror : result.error = true
  · rw [if_pos herror] at hthrows
    cases hthrows
  · rw [if_neg herror] at hthrows ⊢
    have hbuffer := h.requestBufferOf_receive result.data hsession
      { s with pending := s.pending.erase (.read client) } rfl
    simp only [hbuffer] at hthrows
    cases hfind : find (crlf ++ crlf) (received ++ result.data) with
    | none =>
        simp only [hfind] at hthrows
        cases hthrows
    | some headerEnd =>
        simp only [hfind, Option.map_eq_none_iff] at hthrows
        have hfound : State.getClient
            (State.modifyClient { s with pending := s.pending.erase (.read client) } client
              (Client.receive result.data))
            (State.idOf { s with pending := s.pending.erase (.read client) } client) =
              some client :=
          h.lookup_self hsession hop
        unfold WebServer.handleClientRead at hthrows
        rw [idOf_modifyClient _ client (f := Client.receive result.data) fun _ => rfl, hfound]
          at hthrows
        cases hresponse : server.respond result.files
            ((received ++ result.data).take (headerEnd + 4)) with
        | none => simp only [hresponse, Option.map_none]
        | some response =>
            simp only [hresponse] at hthrows
            cases hthrows

/-- A handler throws where its session has nothing to become. -/
theorem throws (h : Refines s sessions) {server : Server} {event : Operation × Completion}
    (hpending : event.1 ∈ s.pending) (hthrows : Throws server s event) :
    ∃ session, sessions[event.1.client]? = some session ∧ session.Awaits event.1 ∧
      session.next server event.2 = none := by
  rcases event with ⟨op, result⟩
  rcases h.session_of_pending hpending with ⟨session, hsession, hop⟩
  refine ⟨session, hsession, (session.awaits_iff op).mpr hop, ?_⟩
  cases op with
  | accept client =>
      cases session with
      | accepting => exact h.handleAccept_throws hsession hthrows
      | _ => cases hop
  | read client =>
      cases session with
      | reading received => exact h.onReadSome_throws hsession hthrows
      | _ => cases hop
  | write client => cases hthrows

/-- A run of the server is a run of the family of its sessions. -/
theorem run {server : Server} {t : List (State × (Operation × Completion))}
    (hrun : Trace (Step server) s t s') (h : Refines s sessions) (hone : OneWaits sessions)
    (hfew : sessions.length + bornIn t < 2 ^ 64) :
    ∃ t' sessions', Trace (SessionsStep server) sessions t' sessions' ∧
      t'.map Prod.snd = t.map (fun x => (x.2.1.client, x.2)) ∧ Refines s' sessions' ∧
      OneWaits sessions' := by
  induction hrun generalizing sessions with
  | nil s => exact ⟨[], sessions, Trace.nil sessions, rfl, h, hone⟩
  | cons s event next t s' hstep _ ih =>
      rw [bornIn_cons] at hfew
      rcases h.step hstep (by omega) with ⟨sessions₁, hfirst, hnext, hlength⟩
      rcases ih hnext (hone.step hfirst hlength) (by omega) with
        ⟨t', sessions', hrest, hevents, hrefines, hone'⟩
      refine ⟨_, sessions', Trace.cons sessions _ sessions₁ t' sessions' hfirst hrest, ?_, hrefines,
        hone'⟩
      rw [List.map_cons, List.map_cons, hevents]

end Refines

/-- In the beginning there is one session. -/
theorem refines_initial : Refines State.initial [Session.accepting] := by
  have hnone : Refines ⟨0, [], ∅, [], []⟩ [] := by
    refine ⟨rfl, rfl, ?_, ?_, ?_, ?_, ?_, ?_⟩
    · intro client hclient
      cases hclient
    · intro client
      rfl
    · intro id client hfound
      cases hfound
    · intro client
      rfl
    · intro client buffer hunread
      cases hunread
    · intro client
      rfl
  exact hnone.accept (by decide)

theorem oneWaits_initial : OneWaits [Session.accepting] := by
  intro client
  cases client with
  | zero => simp
  | succ client => simp

end WebServer

end CodingChallenges
