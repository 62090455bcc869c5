import CodingChallenges.LoadBalancer.LoadBalancer
import Mathlib.Data.List.Basic

/-!
# What Users Are Answered

How many times something is written to a user, and why.

For a user there is one operation at a time that goes on with his request: he is accepted, his
request is read, a connection to a backend is made, the request is written to it and the reply is
read. Writing to the user is started on the side, and nothing follows from it but that he is
removed. So a user is answered once, and with what the last operation for him has given.

The exception is a request that could not be written to its backend. Then the user is told the
error, and the reply is read all the same, so something else may be written to him after that.

## Main definitions

* `Operation.serving`, `State.serves`: The operation that goes on with the request of a user.
* `State.answersTo`: What was written to a user.
* `Opening`, `Answers`: What may have been written to a user.
* `Causes`: Why it was written.
* `Continues`: How a handler goes on with a request.
* `Standing`, `Served`: The operation for a user and what was written to him so far.

## Theorems

* `complete_continues`: What a handler does for its user and for the others.
* `Served.step`: A step keeps what is known about all users.
* `written_step`: What was written was caused by some step.
* `answered_once`: What users are answered, in every run.
-/

namespace CodingChallenges

namespace LoadBalancer

/-- The user whose request an operation goes on with. -/
def Operation.serving : Operation → Option Nat
  | .accept user => some user
  | .readUser user => some user
  | .connect _ _ user => some user
  | .writeClient _ _ user => some user
  | .readClient _ user => some user
  | .writeUser _ _ => none

/-- The pending operations that go on with the request of a user. -/
def State.serves (s : State) (user : Nat) : List Operation :=
  s.pending.filter fun op => op.serving = some user

/-- What was written to a user, in order. -/
def State.answersTo (s : State) (user : Nat) : List Payload :=
  ((s.written.filter fun w => w.1 = user).map Prod.snd).reverse

/-- Nothing, or that the request could not be written. -/
inductive Opening : List Payload → Prop where
  | nothing : Opening []
  | errorMessage (text : Buffer) : Opening [.errorMessage text]

/-- What a read from the backend leads to. -/
inductive Payload.Final : Payload → Prop where
  | reply (client : Nat) (data : Buffer) : Payload.Final (.reply client data)
  | internalServerError : Payload.Final .internalServerError

/-- What may have been written to a user. -/
inductive Answers : List Payload → Prop where
  | opening {payloads : List Payload} (h : Opening payloads) : Answers payloads
  | unavailable : Answers [.serviceUnavailable]
  | final {payloads : List Payload} {payload : Payload} (h : Opening payloads)
      (hfinal : payload.Final) : Answers (payloads ++ [payload])

/-- Why something is written to a user: the operation that has completed, and how. -/
inductive Causes (user : Nat) : Payload → Operation × Result → Prop where
  | noServer (result : Result) (herror : result.error = none) (hserver : result.server = none) :
      Causes user .serviceUnavailable (.readUser user, result)
  | notConnected (client : Nat) (data : Buffer) (result : Result)
      (herror : result.error.isSome = true) :
      Causes user .serviceUnavailable (.connect client data user, result)
  | notWritten (client : Nat) (data text : Buffer) (result : Result)
      (herror : result.error = some text) :
      Causes user (.errorMessage text) (.writeClient client data user, result)
  | read (client : Nat) (result : Result) (herror : result.error = none) :
      Causes user (.reply client result.data) (.readClient client user, result)
  | notRead (client : Nat) (result : Result) (herror : result.error.isSome = true) :
      Causes user .internalServerError (.readClient client user, result)

/-- How the handler of an operation goes on with the request of its user: the operation it starts,
    and what it writes to him. -/
inductive Continues (user : Nat) : Operation → List Operation → List Payload → Prop where
  | stops (op : Operation) : Continues user op [] []
  | accepted : Continues user (.accept user) [.readUser user] []
  | connecting (client : Nat) (data : Buffer) :
      Continues user (.readUser user) [.connect client data user] []
  | noServer : Continues user (.readUser user) [] [.serviceUnavailable]
  | connected (client : Nat) (data : Buffer) :
      Continues user (.connect client data user) [.writeClient client data user] []
  | notConnected (client : Nat) (data : Buffer) :
      Continues user (.connect client data user) [] [.serviceUnavailable]
  | written (client found : Nat) (data : Buffer) {payloads : List Payload}
      (h : Opening payloads) :
      Continues user (.writeClient client data user) [.readClient found user] payloads
  | lost (client : Nat) (data : Buffer) {payloads : List Payload} (h : Opening payloads) :
      Continues user (.writeClient client data user) [] payloads
  | read (client : Nat) {payload : Payload} (h : payload.Final) :
      Continues user (.readClient client user) [] [payload]

/-- The operation that waits for the next user. -/
def State.next (s : State) : Operation → List Operation
  | .accept _ => [.accept s.userClientCounter]
  | _ => []

/-- What a handler does for its user and for the others. -/
structure Handles (s s' : State) (op : Operation) (event : Operation × Result) (user : Nat)
    (ops : List Operation) (payloads : List Payload) : Prop where
  continues : Continues user op ops payloads
  serves : ∀ other, s'.serves other =
    (s.next op ++ ops).filter (fun op => op.serving = some other) ++ s.serves other
  written : s'.written = payloads.map (fun payload => (user, payload)) ++ s.written
  counter : s'.userClientCounter = s.userClientCounter + (s.next op).length
  causes : ∀ payload ∈ payloads, Causes user payload event

section Handlers

variable {s s' : State} {op : Operation} {result : Result} {user : Nat} {ops : List Operation}
  {payloads : List Payload}

/-- What was started, as far as it goes on with a request. -/
theorem Handles.of_pending (started : List Operation) (hcontinues : Continues user op ops payloads)
    (hpending : s'.pending = started ++ s.pending)
    (hstarted : ∀ other, started.filter (fun op => op.serving = some other) =
      (s.next op ++ ops).filter fun op => op.serving = some other)
    (hwritten : s'.written = payloads.map (fun payload => (user, payload)) ++ s.written)
    (hcounter : s'.userClientCounter = s.userClientCounter + (s.next op).length)
    (hcauses : ∀ payload ∈ payloads, Causes user payload (op, result)) :
    Handles s s' op (op, result) user ops payloads := by
  refine ⟨hcontinues, fun other => ?_, hwritten, hcounter, hcauses⟩
  unfold State.serves
  rw [hpending, List.filter_append, hstarted]

/-- A handler that neither starts nor writes anything. -/
theorem Handles.stops (hnext : s.next op = []) (hpending : s'.pending = s.pending)
    (hwritten : s'.written = s.written) (hcounter : s'.userClientCounter = s.userClientCounter) :
    Handles s s' op (op, result) user [] [] := by
  refine .of_pending [] (.stops op) hpending (fun other => ?_) hwritten ?_ ?_
  · rw [hnext]
    rfl
  · rw [hnext]
    exact hcounter
  · exact fun payload hpayload => absurd hpayload List.not_mem_nil

/-- A handler that writes to its user, if he is still there. -/
theorem Handles.writes {payload : Payload} (hnext : s.next op = [])
    (hcontinues : Continues user op [] [payload]) (hcauses : Causes user payload (op, result)) :
    ∃ ops payloads, Handles s (s.writeUser user payload) op (op, result) user ops payloads := by
  unfold State.writeUser
  by_cases huser : user ∈ s.userClients
  · rw [if_pos huser]
    refine ⟨[], [payload], .of_pending [.writeUser user payload] hcontinues rfl
      (fun other => ?_) rfl ?_ (List.forall_mem_singleton.mpr hcauses)⟩
    · rw [hnext]
      rfl
    · rw [hnext]
      rfl
  · rw [if_neg huser]
    exact ⟨[], [], .stops hnext rfl rfl rfl⟩

/-- A handler that reads the reply from what it finds, after it has written to its user or not. -/
theorem Handles.reads {client : Nat} {data : Buffer} (hopening : Opening payloads)
    (hcauses : ∀ payload ∈ payloads, Causes user payload (.writeClient client data user, result))
    (hpending : s'.pending =
      payloads.map (fun payload => .writeUser user payload) ++ s.pending)
    (hwritten : s'.written = payloads.map (fun payload => (user, payload)) ++ s.written)
    (hcounter : s'.userClientCounter = s.userClientCounter) :
    ∃ ops payloads, Handles s (readReply s' client user) (.writeClient client data user)
      (.writeClient client data user, result) user ops payloads := by
  have hside : ∀ other, (payloads.map fun payload => Operation.writeUser user payload).filter
      (fun op => op.serving = some other) = [] := by
    intro other
    rw [List.filter_eq_nil_iff]
    intro op hop
    rcases List.mem_map.mp hop with ⟨payload, -, rfl⟩
    exact of_decide_eq_false rfl
  unfold readReply
  cases getLbClient (s'.idOf client) s'.lbClients with
  | none =>
      refine ⟨[], payloads, .of_pending _ (.lost client data hopening) hpending (fun other => ?_)
        hwritten hcounter hcauses⟩
      rw [hside]
      rfl
  | some found =>
      refine ⟨[.readClient found user], payloads,
        .of_pending (.readClient found user ::
            payloads.map fun payload => Operation.writeUser user payload)
          (.written client found data hopening) ?_ (fun other => ?_) hwritten hcounter hcauses⟩
      · change Operation.readClient found user :: s'.pending = _
        rw [hpending]
        rfl
      · change _ = List.filter _ [Operation.readClient found user]
        rw [List.filter_cons, hside, List.filter_cons]
        rfl

theorem handles_accept : ∃ ops payloads, Handles s (handleAccept s result.error user)
    (.accept user) (.accept user, result) user ops payloads := by
  have hnone : ∀ payload ∈ ([] : List Payload), Causes user payload (.accept user, result) :=
    fun payload hpayload => absurd hpayload List.not_mem_nil
  unfold handleAccept
  by_cases huser : user ∈ s.userClients
  · rw [if_pos huser]
    cases result.error with
    | none =>
        exact ⟨[.readUser user], [], .of_pending [.accept s.userClientCounter, .readUser user]
          .accepted rfl (fun other => rfl) rfl rfl hnone⟩
    | some text =>
        exact ⟨[], [], .of_pending [.accept s.userClientCounter] (.stops _) rfl
          (fun other => rfl) rfl rfl hnone⟩
  · rw [if_neg huser]
    exact ⟨[], [], .of_pending [.accept s.userClientCounter] (.stops _) rfl
      (fun other => rfl) rfl rfl hnone⟩

/-- How a handler goes on with the request of its user. -/
theorem complete_continues (hserving : op.serving = some user) :
    ∃ ops payloads, Handles s (complete s op result) op (op, result) user ops payloads := by
  cases op with
  | accept other =>
      obtain rfl : other = user := Option.some.inj hserving
      exact handles_accept
  | readUser other =>
      obtain rfl : other = user := Option.some.inj hserving
      unfold complete onClientReadDone
      cases herror : result.error with
      | some text => exact ⟨[], [], .stops rfl rfl rfl rfl⟩
      | none =>
          cases hserver : result.server with
          | none => exact Handles.writes rfl .noServer (.noServer result herror hserver)
          | some endpoint =>
              exact ⟨[.connect s.clients.length result.data other], [],
                .of_pending [.connect s.clients.length result.data other] (.connecting _ _) rfl
                  (fun _ => rfl) rfl rfl fun payload hpayload =>
                    absurd hpayload List.not_mem_nil⟩
  | connect client data other =>
      obtain rfl : other = user := Option.some.inj hserving
      unfold complete onConnectDone
      cases herror : result.error with
      | some text =>
          refine Handles.writes rfl (.notConnected client data)
            (.notConnected client data result ?_)
          rw [herror]
          rfl
      | none =>
          exact ⟨[.writeClient client data other], [],
            .of_pending [.writeClient client data other] (.connected client data) rfl
              (fun _ => rfl) rfl rfl fun payload hpayload => absurd hpayload List.not_mem_nil⟩
  | writeClient client data other =>
      obtain rfl : other = user := Option.some.inj hserving
      unfold complete onServerWriteDone
      cases herror : result.error with
      | none =>
          exact Handles.reads .nothing (fun payload hpayload => absurd hpayload List.not_mem_nil)
            rfl rfl rfl
      | some text =>
          simp only
          by_cases huser : other ∈ s.userClients
          · rw [if_pos huser]
            have hcauses : Causes other (.errorMessage text)
                (.writeClient client data other, result) :=
              .notWritten client data text result herror
            refine Handles.reads (.errorMessage text) (List.forall_mem_singleton.mpr hcauses)
              ?_ ?_ ?_
            · rw [State.writeUser, if_pos huser]
              rfl
            · rw [State.writeUser, if_pos huser]
              rfl
            · rw [State.writeUser, if_pos huser]
              rfl
          · rw [if_neg huser]
            exact ⟨[], [], .stops rfl rfl rfl rfl⟩
  | readClient client other =>
      obtain rfl : other = user := Option.some.inj hserving
      rw [complete, onServerReadDone]
      by_cases huser : other ∈ s.userClients
      · rw [if_pos huser]
        simp only [State.writeUser, if_pos huser]
        cases herror : result.error with
        | none =>
            exact ⟨[], [.reply client result.data],
              .of_pending [.writeUser other (.reply client result.data)]
                (.read client (.reply client _)) rfl (fun _ => rfl) rfl rfl
                (List.forall_mem_singleton.mpr (.read client result herror))⟩
        | some text =>
            have hcauses : Causes other .internalServerError
                (.readClient client other, result) := by
              refine .notRead client result ?_
              rw [herror]
              rfl
            exact ⟨[], [.internalServerError],
              .of_pending [.writeUser other .internalServerError]
                (.read client .internalServerError) rfl (fun _ => rfl) rfl rfl
                (List.forall_mem_singleton.mpr hcauses)⟩
      · rw [if_neg huser]
        exact ⟨[], [], .stops rfl rfl rfl rfl⟩
  | writeUser other payload => cases hserving

end Handlers

/-- The operation that goes on with a request, and what was written to the user so far. -/
inductive Standing : List Operation → List Payload → Prop where
  | waiting {op : Operation} (h : ∀ client user, op ≠ .readClient client user) : Standing [op] []
  | reading {client user : Nat} {payloads : List Payload} (h : Opening payloads) :
      Standing [.readClient client user] payloads
  | ended {payloads : List Payload} (h : Answers payloads) : Standing [] payloads

theorem Standing.answers {ops : List Operation} {payloads : List Payload}
    (h : Standing ops payloads) : Answers payloads := by
  cases h with
  | waiting h => exact .opening .nothing
  | reading h => exact .opening h
  | ended h => exact h

/-- The handler of the operation leaves the user in one of these situations. -/
theorem Standing.continues {op : Operation} {ops : List Operation}
    {payloads payloads' : List Payload} {user : Nat} (h : Standing [op] payloads)
    (hcontinues : Continues user op ops payloads') : Standing ops (payloads ++ payloads') := by
  cases h with
  | waiting hop =>
      rw [List.nil_append]
      cases hcontinues with
      | stops => exact .ended (.opening .nothing)
      | accepted => exact .waiting fun _ _ h => by cases h
      | connecting client data => exact .waiting fun _ _ h => by cases h
      | noServer => exact .ended .unavailable
      | connected client data => exact .waiting fun _ _ h => by cases h
      | notConnected client data => exact .ended .unavailable
      | written client found data h => exact .reading h
      | lost client data h => exact .ended (.opening h)
      | read client h => exact absurd rfl (hop client user)
  | reading hopening =>
      cases hcontinues with
      | stops =>
          rw [List.append_nil]
          exact .ended (.opening hopening)
      | read client h => exact .ended (.final hopening h)

/-- All users are in one of these situations, and nothing is known of those to come. -/
structure Served (s : State) : Prop where
  standing : ∀ user, Standing (s.serves user) (s.answersTo user)
  unknown : ∀ user, s.userClientCounter ≤ user → s.serves user = [] ∧ s.answersTo user = []

section Runs

theorem served_initial : Served State.initial := by
  have hanswers : ∀ user, State.initial.answersTo user = [] := fun user => rfl
  have hserves : ∀ user, State.initial.serves user =
      if (Operation.accept 0).serving = some user then [.accept 0] else [] := by
    intro user
    unfold State.serves
    by_cases huser : (Operation.accept 0).serving = some user
    · simp only [State.initial, State.accept, State.start, Nat.zero_add, huser, decide_true,
        List.filter_cons_of_pos, List.filter_nil, ↓reduceIte]
    · simp only [State.initial, State.accept, State.start, Nat.zero_add, huser, decide_false,
        Bool.false_eq_true, not_false_eq_true, List.filter_cons_of_neg, List.filter_nil, ↓reduceIte]
  refine ⟨fun user => ?_, fun user huser => ⟨?_, hanswers user⟩⟩
  · rw [hserves, hanswers]
    split_ifs
    · exact .waiting fun _ _ h => by cases h
    · exact .ended (.opening .nothing)
  · have hpos : 1 ≤ user := huser
    rw [hserves, if_neg]
    intro h
    injection h with h
    omega

theorem serves_erase (s : State) (op : Operation) (user : Nat) :
    ({ s with pending := s.pending.erase op } : State).serves user = (s.serves user).erase op :=
  List.erase_filter.symm

/-- Taking away an operation is nothing to those that it does not serve. -/
theorem serves_erase_ne {s : State} {op : Operation} {user : Nat} (h : op.serving ≠ some user) :
    ({ s with pending := s.pending.erase op } : State).serves user = s.serves user := by
  rw [serves_erase]
  refine List.erase_of_not_mem fun hmem => h ?_
  exact of_decide_eq_true (List.mem_filter.mp hmem).2

theorem answersTo_of_written {s s' : State} {user : Nat} {payloads : List Payload}
    (h : s'.written = payloads.map (fun payload => (user, payload)) ++ s.written) (other : Nat) :
    s'.answersTo other =
      s.answersTo other ++ if user = other then payloads.reverse else [] := by
  have hnew : (((payloads.map fun payload => (user, payload)).filter
      fun w => w.1 = other).map Prod.snd) = if user = other then payloads else [] := by
    by_cases hother : user = other
    · simp only [hother, List.filter_map, Function.comp_def, decide_true, List.filter_true,
        List.map_map, List.map_id_fun', id_eq, ↓reduceIte]
    · simp only [List.filter_map, Function.comp_def, hother, decide_false, List.filter_false,
        List.map_nil, ↓reduceIte]
  unfold State.answersTo
  rw [h, List.filter_append, List.map_append, List.reverse_append, hnew]
  split_ifs <;> rfl

/-- No handler writes more than one thing to its user. -/
theorem Continues.reverse {user : Nat} {op : Operation} {ops : List Operation}
    {payloads : List Payload} (h : Continues user op ops payloads) :
    payloads.reverse = payloads := by
  have hopening : ∀ {payloads : List Payload}, Opening payloads → payloads.reverse = payloads := by
    intro payloads h
    cases h <;> rfl
  cases h with
  | written client found data h => exact hopening h
  | lost client data h => exact hopening h
  | _ => rfl

/-- What a handler starts for a user it serves, and for nobody else. -/
theorem Continues.serving {user other : Nat} {op : Operation} {ops : List Operation}
    {payloads : List Payload} (h : Continues user op ops payloads) :
    ops.filter (fun op => op.serving = some other) = if user = other then ops else [] := by
  by_cases hother : user = other
  · subst hother
    rw [if_pos rfl]
    cases h <;> simp [Operation.serving]
  · rw [if_neg hother]
    cases h <;> simp [Operation.serving, hother]

theorem next_serving (s : State) (op : Operation) (other : Nat) :
    (s.next op).filter (fun op => op.serving = some other) =
      if s.userClientCounter = other then s.next op else [] := by
  by_cases hother : s.userClientCounter = other
  · rw [if_pos hother]
    cases op <;> simp [State.next, Operation.serving, hother]
  · rw [if_neg hother]
    cases op <;> simp [State.next, Operation.serving, hother]

/-- The next user is waiting to be accepted, if he is waited for. -/
theorem standing_next (s : State) (op : Operation) : Standing (s.next op) [] := by
  cases op with
  | accept user => exact .waiting fun _ _ h => by cases h
  | _ => exact .ended (.opening .nothing)

theorem Served.step (s : State) (event : Operation × Result) (s' : State) (h : Served s)
    (hstep : Step s event s') : Served s' := by
  rcases event with ⟨op, result⟩
  rcases hstep with ⟨hop, rfl⟩
  simp only at hop ⊢
  cases hserving : op.serving with
  | none =>
      -- The user is removed, which is nothing to what is pending or written.
      cases op with
      | writeUser user payload =>
          have hsame : ∀ other, (complete { s with
              pending := s.pending.erase (.writeUser user payload) } (.writeUser user payload)
              result).serves other = s.serves other := fun other =>
            serves_erase_ne (by rw [hserving]; exact Option.some_ne_none other |>.symm)
          refine ⟨fun other => ?_, fun other hother => ?_⟩
          · rw [hsame]
            exact h.standing other
          · rw [hsame]
            exact h.unknown other hother
      | _ => cases hserving
  | some user =>
      rcases @complete_continues { s with pending := s.pending.erase op } op result user
        hserving with ⟨ops, payloads, hhandles⟩
      have hserved : s.serves user = [op] := by
        have hmem : op ∈ s.serves user :=
          List.mem_filter.mpr ⟨hop, decide_eq_true hserving⟩
        have hstanding := h.standing user
        generalize s.serves user = served at hmem hstanding
        generalize s.answersTo user = answers at hstanding
        cases hstanding with
        | ended => cases hmem
        | _ => rw [List.mem_singleton.mp hmem]
      have hknown : user < s.userClientCounter := by
        by_contra hlt
        rw [(h.unknown user (Nat.le_of_not_lt hlt)).1] at hserved
        cases hserved
      -- What is pending and what was written afterwards, for everybody.
      have hserves : ∀ other, (complete { s with pending := s.pending.erase op } op result).serves
          other = (if s.userClientCounter = other then s.next op else []) ++
            (if user = other then ops else s.serves other) := by
        intro other
        rw [hhandles.serves, List.filter_append, hhandles.continues.serving, List.append_assoc]
        refine congrArg₂ (· ++ ·) (next_serving s op other) ?_
        by_cases hother : user = other
        · subst hother
          rw [if_pos rfl, if_pos rfl, serves_erase, hserved, List.erase_cons_head, List.append_nil]
        · rw [if_neg hother, if_neg hother, List.nil_append]
          refine serves_erase_ne fun hsame => hother ?_
          exact Option.some.inj (hserving.symm.trans hsame)
      have hanswers : ∀ other, (complete { s with pending := s.pending.erase op } op
          result).answersTo other =
            s.answersTo other ++ if user = other then payloads else [] := by
        intro other
        rw [answersTo_of_written hhandles.written, hhandles.continues.reverse]
        rfl
      refine ⟨fun other => ?_, fun other hother => ?_⟩
      · rw [hserves, hanswers]
        by_cases hother : user = other
        · subst hother
          rw [if_neg (Nat.ne_of_gt hknown), if_pos rfl, if_pos rfl, List.nil_append]
          refine Standing.continues ?_ hhandles.continues
          rw [← hserved]
          exact h.standing user
        · rw [if_neg hother, if_neg hother, List.append_nil]
          by_cases hnext : s.userClientCounter = other
          · rcases h.unknown other (Nat.le_of_eq hnext) with ⟨hnone, hsilent⟩
            rw [if_pos hnext, hnone, hsilent, List.append_nil]
            exact standing_next s op
          · rw [if_neg hnext, List.nil_append]
            exact h.standing other
      · have hcounter : s.userClientCounter + (s.next op).length ≤ other := by
          have hle := hhandles.counter
          rw [hle] at hother
          exact hother
        rcases h.unknown other (by omega) with ⟨hnone, hsilent⟩
        have hne : ¬ user = other := by omega
        rw [hserves, hanswers, if_neg hne, if_neg hne, hnone, hsilent]
        refine ⟨?_, rfl⟩
        by_cases hnext : s.userClientCounter = other
        · have hnil : s.next op = [] := List.eq_nil_of_length_eq_zero (by omega)
          rw [if_pos hnext, hnil]
          rfl
        · rw [if_neg hnext]
          rfl

/-- What a step writes to a user has a cause. -/
theorem written_step {s s' : State} {event : Operation × Result} (hstep : Step s event s')
    {user : Nat} {payload : Payload} (hmem : (user, payload) ∈ s'.written) :
    (user, payload) ∈ s.written ∨ Causes user payload event := by
  rcases event with ⟨op, result⟩
  rcases hstep with ⟨-, rfl⟩
  simp only at hmem
  cases hserving : op.serving with
  | none =>
      cases op with
      | writeUser other payload' => exact Or.inl hmem
      | _ => cases hserving
  | some other =>
      rcases @complete_continues { s with pending := s.pending.erase op } op result other
        hserving with ⟨ops, payloads, hhandles⟩
      rw [hhandles.written, List.mem_append] at hmem
      rcases hmem with hmem | hmem
      · rcases List.mem_map.mp hmem with ⟨payload', hpayload', hsame⟩
        cases hsame
        exact Or.inr (hhandles.causes payload hpayload')
      · exact Or.inl hmem

/-- So has everything that is written in a run. -/
theorem written_run {s s' : State} {t : List (State × (Operation × Result))}
    (h : Trace Step s t s') {user : Nat} {payload : Payload}
    (hmem : (user, payload) ∈ s'.written) :
    (user, payload) ∈ s.written ∨ ∃ x ∈ t, Causes user payload x.2 := by
  induction h with
  | nil s => exact Or.inl hmem
  | cons s event next t s' hstep _ ih =>
      rcases ih hmem with hbefore | ⟨x, hx, hcauses⟩
      · rcases written_step hstep hbefore with hbefore | hcauses
        · exact Or.inl hbefore
        · exact Or.inr ⟨(s, event), List.mem_cons_self, hcauses⟩
      · exact Or.inr ⟨x, List.mem_cons_of_mem _ hx, hcauses⟩

theorem mem_answersTo {s : State} {user : Nat} {payload : Payload} :
    payload ∈ s.answersTo user ↔ (user, payload) ∈ s.written := by
  simp only [State.answersTo, List.mem_reverse, List.mem_map, List.mem_filter, decide_eq_true_eq,
    Prod.exists, exists_eq_right]

/-- In every run, a user is answered at most once, but for the message that his request could not
    be written, which may come in front of what is read all the same. Each answer has its cause in
    an operation that was done for this user. -/
theorem answered_once {s : State} {t : List (State × (Operation × Result))}
    (h : Trace Step State.initial t s) (user : Nat) :
    Answers (s.answersTo user) ∧
      ∀ payload ∈ s.answersTo user, ∃ x ∈ t, Causes user payload x.2 := by
  have hserved := (h.preserved Served.step served_initial).2
  refine ⟨(hserved.standing user).answers, fun payload hpayload => ?_⟩
  rcases written_run h (mem_answersTo.mp hpayload) with hnone | hsome
  · cases hnone
  · exact hsome

/-- The request cannot be written, and a reply is read after that. -/
abbrev lateReply : List (Operation × Result) :=
  [(.accept 0, ⟨none, [], none⟩), (.readUser 0, ⟨none, [10], some ⟨bytes "127.0.0.1", 80⟩⟩),
    (.connect 0 [10] 0, ⟨none, [], none⟩), (.writeClient 0 [10] 0, ⟨some [33], [], none⟩),
    (.readClient 0 0, ⟨none, [20], none⟩)]

theorem answered_once_late :
    (runFrom State.initial lateReply).2.answersTo 0 = [.errorMessage [33], .reply 0 [20]] ∧
      Answers ((runFrom State.initial lateReply).2.answersTo 0) ∧
        ∀ payload ∈ (runFrom State.initial lateReply).2.answersTo 0,
          ∃ x ∈ (runFrom State.initial lateReply).1, Causes 0 payload x.2 := by
  have hrun : Trace Step State.initial (runFrom State.initial lateReply).1
      (runFrom State.initial lateReply).2 := trace_runFrom _ _ (by decide)
  exact ⟨by decide, answered_once hrun 0⟩

end Runs

end LoadBalancer

end CodingChallenges
