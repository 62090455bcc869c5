import CodingChallenges.LoadBalancer.LbClientManager
import CodingChallenges.Library.Fuel
import CodingChallenges.Library.RoundRobin
import CodingChallenges.Library.Traces

/-!
# The Choice of a Backend

Which server the next request goes to: `ServerDetails.cpp`, and of `HealthChecker.cpp` the
list of servers and `get_next_available_server`.

The servers stand in a circle, and the checker remembers the last one it returned. It looks at
the others behind this one, and at last at this one again, until it finds one that is
available. What it finds may have been unavailable a moment ago, and the server that is
remembered may be unavailable by now.

So the servers that are available are returned in turn, as from a queue (`window_served`),
and each of them is returned equally often, up to one call (`round_robin`).

Indices are natural numbers: the size of a vector fits into `std::size_t`, and so does one
more than the index of an element.

## Main definitions

* `ServerDetails`: A server and whether it is available.
* `HealthChecker`: The servers, and the index of the last one that was returned.
* `findAvailable`, `getNextAvailableServer`: The search, and the call.
* `Event`, `Step`: Calls, and what happens to the servers in between.

## Theorems

* `findAvailable_eq`: The search finds the first server that is available.
* `getNextAvailableServer_returns_none`, `getNextAvailableServer_returns_some`: What a call
  returns.
* `Step.queue_getNext`: A call turns the queue of the servers that are available.
* `window_served`: Calls with the same servers available return them in turn.
* `round_robin`: The choice is complete and fair.
-/

namespace CodingChallenges

namespace LoadBalancer

/-- A server, and whether it answered the last check. -/
structure ServerDetails where
  ip : List UInt8
  port : List UInt8
  isAvailable : Bool
deriving DecidableEq, Repr

/-- A new server. It is not available before it was checked. -/
def ServerDetails.create (ip port : List UInt8) : ServerDetails :=
  ⟨ip, port, false⟩

/-- The address and the port, with a colon between them. -/
def ServerDetails.getEndpoint (server : ServerDetails) : List UInt8 :=
  server.ip ++ bytes ":" ++ server.port

/-- Only the flag changes. -/
def ServerDetails.setAvailable (status : Bool) (server : ServerDetails) : ServerDetails :=
  { server with isAvailable := status }

/-- The servers, and which of them was chosen last. -/
structure HealthChecker where
  servers : List ServerDetails
  lastServerIndex : Nat
deriving DecidableEq, Repr

namespace HealthChecker

/-- How the choice of a server can go wrong. -/
inductive Fault where
  | divisionByZero
  | outOfRange
  | outOfFuel
deriving DecidableEq, Repr

/-- A server is added behind the others. -/
def addServer (checker : HealthChecker) (ip port : List UInt8) : HealthChecker :=
  { checker with servers := checker.servers ++ [ServerDetails.create ip port] }

/-- The checker with these servers, before it has done anything. -/
def create (addresses : List (List UInt8 × List UInt8)) : HealthChecker :=
  addresses.foldl (fun checker address => checker.addServer address.1 address.2) ⟨[], 0⟩

/-- `set_available` for the server with the index, if there is one. -/
def setAvailable (checker : HealthChecker) (serverIndex : Nat) (status : Bool) : HealthChecker :=
  { checker with servers := checker.servers.modify serverIndex (ServerDetails.setAvailable status) }

/-- The search for a server that is available. It ends when it has seen as many unavailable
    ones as there are servers. -/
def findAvailable (servers : List ServerDetails) : Nat → Nat → Nat → Except Fault (Option Nat)
  | 0, _, _ => .error .outOfFuel
  | fuel + 1, index, unavailableCount =>
    match servers[index]? with
    | none => .error .outOfRange
    | some server =>
      if server.isAvailable then
        .ok (some index)
      else if unavailableCount + 1 = servers.length then
        .ok none
      else
        findAvailable servers fuel ((index + 1) % servers.length) (unavailableCount + 1)

/-- The search goes once around, from behind the server chosen last. -/
def getNextAvailableServer (checker : HealthChecker) (fuel : Nat) :
    Except Fault (Option ServerDetails × HealthChecker) := do
  -- The first index is a remainder by the number of servers.
  if checker.servers.length = 0 then
    throw .divisionByZero
  let found ← findAvailable checker.servers fuel
    ((checker.lastServerIndex + 1) % checker.servers.length) 0
  match found with
  | none => return (none, checker)
  | some index =>
    match checker.servers[index]? with
    | none => throw .outOfRange
    | some server => return (some server, { checker with lastServerIndex := index })

/-- A call, with the index of the server that it returns, or a change of the servers. -/
inductive Event where
  | getNext (returned : Option Nat)
  | setAvailable (serverIndex : Nat) (status : Bool)
  | addServer (ip port : List UInt8)
deriving DecidableEq, Repr

/-- One event. The server that a call returns is the one that is remembered. -/
def Step (checker : HealthChecker) (event : Event) (checker' : HealthChecker) : Prop :=
  match event with
  | .getNext returned =>
    ∃ server, Returns checker.getNextAvailableServer (server, checker') ∧
      returned = server.map fun _ => checker'.lastServerIndex
  | .setAvailable serverIndex status => checker' = checker.setAvailable serverIndex status
  | .addServer ip port => checker' = checker.addServer ip port

/-- The event asks for a server. -/
def Event.isCall : Event → Bool
  | .getNext _ => true
  | _ => false

/-- There is a server at the index, and it is available. -/
def isAvailableAt (servers : List ServerDetails) (index : Nat) : Bool :=
  servers[index]?.any (·.isAvailable)

section Search

variable {servers : List ServerDetails} {place : Nat}

/-- The search finds the first server that is available among those it has not seen yet. -/
theorem findAvailable_eq {seen rest : List Nat} {fuel : Nat}
    (hsplit : behind servers.length place = seen ++ rest) (hrest : rest ≠ [])
    (hfuel : rest.length ≤ fuel) :
    findAvailable servers fuel ((place + 1 + seen.length) % servers.length) seen.length =
      .ok (rest.find? (isAvailableAt servers)) := by
  induction rest generalizing seen fuel with
  | nil => exact absurd rfl hrest
  | cons index rest ih =>
      cases fuel with
      | zero => exact absurd hfuel (Nat.not_succ_le_zero _)
      | succ fuel =>
          have hlength : seen.length + (rest.length + 1) = servers.length := by
            rw [← length_behind servers.length place, hsplit, List.length_append,
              List.length_cons]
          have hindex : (place + 1 + seen.length) % servers.length = index := by
            have hget := getElem?_behind place (show seen.length < servers.length by omega)
            rw [hsplit, List.getElem?_append_right (Nat.le_refl _), Nat.sub_self,
              List.getElem?_cons_zero, Option.some.injEq] at hget
            exact hget.symm
          have hlt : index < servers.length := by
            rw [← hindex]
            exact Nat.mod_lt _ (by omega)
          rw [findAvailable, hindex, List.getElem?_eq_getElem hlt]
          simp only []
          have hat : isAvailableAt servers index = servers[index].isAvailable := by
            rw [isAvailableAt, List.getElem?_eq_getElem hlt, Option.any_some]
          rw [List.find?_cons, hat]
          cases servers[index].isAvailable with
          | true => rfl
          | false =>
              cases rest with
              | nil =>
                  -- All servers were seen, and the count says so.
                  rw [List.length_nil, Nat.zero_add] at hlength
                  rw [if_neg Bool.false_ne_true, if_pos hlength]
                  rfl
              | cons next rest =>
                  rw [List.length_cons] at hlength
                  rw [if_neg Bool.false_ne_true, if_neg (by omega)]
                  have hrest' : behind servers.length place =
                      (seen ++ [index]) ++ next :: rest := by
                    rw [hsplit, List.append_assoc, List.singleton_append]
                  have hnext := ih hrest' (List.cons_ne_nil _ _) (Nat.le_of_succ_le_succ hfuel)
                  rw [List.length_append, List.length_singleton, ← Nat.add_assoc,
                    ← Nat.mod_add_mod, hindex] at hnext
                  exact hnext

end Search

section Calls

/-- The index of the first server behind the last one that is available. -/
def nextIndex (checker : HealthChecker) : Option Nat :=
  (behind checker.servers.length checker.lastServerIndex).find? (isAvailableAt checker.servers)

/-- The servers that are available, by their indices, in the order in which it is their turn
    after the one with the given index. -/
def queue (servers : List ServerDetails) (index : Nat) : List Nat :=
  turns (isAvailableAt servers) servers.length index

variable {checker checker' : HealthChecker}

theorem findAvailable_nextIndex (hne : checker.servers ≠ []) {fuel : Nat}
    (hfuel : checker.servers.length ≤ fuel) :
    findAvailable checker.servers fuel ((checker.lastServerIndex + 1) % checker.servers.length) 0 =
      .ok checker.nextIndex := by
  have hbehind : behind checker.servers.length checker.lastServerIndex ≠ [] := by
    rwa [← List.length_pos_iff, length_behind, List.length_pos_iff]
  exact findAvailable_eq (List.nil_append _).symm hbehind (by rwa [length_behind])

theorem getNextAvailableServer_returns_none (hne : checker.servers ≠ [])
    (h : checker.nextIndex = none) : Returns checker.getNextAvailableServer (none, checker) := by
  refine ⟨checker.servers.length, fun fuel hfuel => ?_⟩
  rw [getNextAvailableServer, if_neg (by rwa [List.length_eq_zero_iff]),
    findAvailable_nextIndex hne hfuel, h]
  rfl

theorem getNextAvailableServer_returns_some (hne : checker.servers ≠ []) {index : Nat}
    (h : checker.nextIndex = some index) : ∃ server, checker.servers[index]? = some server ∧
      server.isAvailable = true ∧ Returns checker.getNextAvailableServer
        (some server, { checker with lastServerIndex := index }) := by
  have hat : isAvailableAt checker.servers index = true := List.find?_some h
  cases hget : checker.servers[index]? with
  | none => simp only [isAvailableAt, hget, Option.any_none, Bool.false_eq_true] at hat
  | some server =>
      rw [isAvailableAt, hget, Option.any_some] at hat
      refine ⟨server, rfl, hat, checker.servers.length, fun fuel hfuel => ?_⟩
      rw [getNextAvailableServer, if_neg (by rwa [List.length_eq_zero_iff]),
        findAvailable_nextIndex hne hfuel, h]
      simp only [ok_bind, pure_eq_ok, hget]

/-- What a call does to the queue: nothing, if it is empty, and otherwise the first server is
    returned and goes to the end. -/
theorem Step.queue_getNext (hne : checker.servers ≠ []) {returned : Option Nat}
    (h : Step checker (.getNext returned) checker') :
    checker'.servers = checker.servers ∧
      ((returned = none ∧ checker' = checker ∧
          queue checker.servers checker.lastServerIndex = []) ∨
        ∃ index others, returned = some index ∧
          queue checker.servers checker.lastServerIndex = index :: others ∧
          queue checker.servers checker'.lastServerIndex = others ++ [index]) := by
  rcases h with ⟨server, hreturns, rfl⟩
  cases hnext : checker.nextIndex with
  | none =>
      cases hreturns.unique (getNextAvailableServer_returns_none hne hnext)
      exact ⟨rfl, Or.inl ⟨rfl, rfl, turns_of_find?_none hnext⟩⟩
  | some index =>
      rcases getNextAvailableServer_returns_some hne hnext with ⟨server', _, _, hreturns'⟩
      cases hreturns.unique hreturns'
      rcases turns_of_find? hnext with ⟨others, hbefore, hafter⟩
      exact ⟨rfl, Or.inr ⟨index, others, rfl, hbefore, hafter⟩⟩

/-- Nothing else than a call changes whose turn it is. -/
theorem Step.lastServerIndex_eq {event : Event} (hcall : event.isCall = false)
    (h : Step checker event checker') : checker'.lastServerIndex = checker.lastServerIndex := by
  cases event with
  | getNext returned => cases hcall
  | setAvailable serverIndex status => rw [show checker' = _ from h, setAvailable]
  | addServer ip port => rw [show checker' = _ from h, addServer]

/-- Servers are never removed. -/
theorem Step.servers_ne_nil {event : Event} (hne : checker.servers ≠ [])
    (h : Step checker event checker') : checker'.servers ≠ [] := by
  cases event with
  | getNext returned =>
      rw [(Step.queue_getNext hne h).1]
      exact hne
  | setAvailable serverIndex status =>
      rw [show checker' = _ from h, setAvailable]
      simpa only [ne_eq, List.modify_eq_nil_iff] using hne
  | addServer ip port =>
      rw [show checker' = _ from h, addServer]
      exact List.append_ne_nil_of_left_ne_nil hne _

/-- The servers that were returned by the calls of a run. -/
def returnedBy (window : List (HealthChecker × Event)) : List Nat :=
  window.filterMap fun x =>
    match x.2 with
    | .getNext returned => returned
    | _ => none

/-- How many calls there are in a run. -/
def calls (window : List (HealthChecker × Event)) : Nat :=
  window.countP fun x => x.2.isCall

/-- Calls that all find the same servers return those that are available in turn. -/
theorem window_served {servers : List ServerDetails} (hne : servers ≠ [])
    {window : List (HealthChecker × Event)} (h : Trace Step checker window checker')
    (hsame : ∀ x ∈ window, x.2.isCall = true → x.1.servers = servers) :
    returnedBy window = served (queue servers checker.lastServerIndex) (calls window) := by
  induction h with
  | nil checker => rw [calls, List.countP_nil, served]; rfl
  | cons checker event checker' window last hstep _ ih =>
      rw [List.forall_mem_cons] at hsame
      have hrest := ih hsame.2
      cases event with
      | getNext returned =>
          obtain rfl : checker.servers = servers := hsame.1 rfl
          have hcalls : calls ((checker, Event.getNext returned) :: window) = calls window + 1 :=
            List.countP_cons_of_pos rfl
          rw [hcalls]
          rcases (Step.queue_getNext hne hstep).2 with
            ⟨rfl, rfl, hempty⟩ | ⟨index, others, rfl, hbefore, hafter⟩
          · -- An empty queue stays as it is, and nobody is served.
            rw [hempty, served_nil] at hrest ⊢
            exact hrest
          · rw [hafter] at hrest
            rw [hbefore, served, ← hrest]
            rfl
      | setAvailable serverIndex status =>
          rw [Step.lastServerIndex_eq rfl hstep] at hrest
          exact hrest
      | addServer ip port =>
          rw [Step.lastServerIndex_eq rfl hstep] at hrest
          exact hrest

end Calls

theorem countP_isAvailableAt (servers : List ServerDetails) :
    (List.range servers.length).countP (isAvailableAt servers) =
      servers.countP (·.isAvailable) := by
  induction servers with
  | nil => rfl
  | cons server servers ih =>
      have hrest : (isAvailableAt (server :: servers)) ∘ Nat.succ = isAvailableAt servers := rfl
      rw [List.length_cons, List.range_succ_eq_map, List.countP_cons, List.countP_map, hrest, ih,
        List.countP_cons]
      rfl

theorem servers_create (addresses : List (List UInt8 × List UInt8)) :
    (create addresses).servers =
      addresses.map fun address => ServerDetails.create address.1 address.2 := by
  have hfold : ∀ checker : HealthChecker,
      (addresses.foldl (fun checker address => checker.addServer address.1 address.2)
        checker).servers =
        checker.servers ++
          addresses.map fun address => ServerDetails.create address.1 address.2 := by
    induction addresses with
    | nil => exact fun checker => (List.append_nil _).symm
    | cons address addresses ih =>
        intro checker
        rw [List.foldl_cons, ih, addServer, List.append_assoc, List.singleton_append,
          List.map_cons]
  exact (hfold _).trans (List.nil_append _)

/-- Every call after any run returns, with a server that is available if there is one. In `k`
    calls that all find the same `m` servers available, each of these servers is returned
    `k / m` times, rounded down or up. -/
theorem round_robin {addresses : List (List UInt8 × List UInt8)} (hne : addresses ≠ [])
    {run : List (HealthChecker × Event)} {checker : HealthChecker}
    (hrun : Trace Step (create addresses) run checker) :
    (∃ server checker', Returns checker.getNextAvailableServer (server, checker') ∧
      match server with
      | some server =>
        checker.servers[checker'.lastServerIndex]? = some server ∧ server.isAvailable = true
      | none => ∀ server ∈ checker.servers, server.isAvailable = false) ∧
    ∀ window checker', Trace Step checker window checker' →
      (∀ x ∈ window, x.2.isCall = true → x.1.servers = checker.servers) →
      ∀ index server, checker.servers[index]? = some server → server.isAvailable = true →
        let k := calls window
        let m := checker.servers.countP (·.isAvailable)
        (returnedBy window).count index = k / m ∨
          (returnedBy window).count index = (k + m - 1) / m := by
  have hcreate : (create addresses).servers ≠ [] := by
    rw [servers_create]
    exact fun hnil => hne (List.map_eq_nil_iff.mp hnil)
  have hservers : checker.servers ≠ [] :=
    (hrun.preserved (fun _ _ _ hservers hstep => hstep.servers_ne_nil hservers) hcreate).2
  constructor
  -- A call has looked at every server before it returns none.
  · cases hnext : checker.nextIndex with
    | none =>
        refine ⟨none, checker, getNextAvailableServer_returns_none hservers hnext, ?_⟩
        intro server hserver
        rcases List.getElem?_of_mem hserver with ⟨index, hget⟩
        have hbehind : index ∈ behind checker.servers.length checker.lastServerIndex :=
          mem_behind.mpr (List.getElem?_eq_some_iff.mp hget).1
        have hnot := List.find?_eq_none.mp hnext index hbehind
        rw [isAvailableAt, hget, Option.any_some] at hnot
        exact Bool.eq_false_iff.mpr hnot
    | some index =>
        rcases getNextAvailableServer_returns_some hservers hnext with
          ⟨server, hget, havailable, hreturns⟩
        exact ⟨some server, _, hreturns, hget, havailable⟩
  · intro window checker' hwindow hsame index server hget havailable
    have hmem : index ∈ queue checker.servers checker.lastServerIndex := by
      refine mem_turns.mpr ⟨(List.getElem?_eq_some_iff.mp hget).1, ?_⟩
      rw [isAvailableAt, hget, Option.any_some]
      exact havailable
    have hlength : (queue checker.servers checker.lastServerIndex).length =
        checker.servers.countP (·.isAvailable) :=
      (length_turns _ _ _).trans (countP_isAvailableAt _)
    have hnodup : (queue checker.servers checker.lastServerIndex).Nodup := nodup_turns _ _ _
    -- Each call serves the queue once, and nobody stands in it twice.
    have hfair := served_fair hnodup hmem (calls window)
    rwa [← window_served hservers hwindow hsame, hlength] at hfair

/-- Of three servers the first and the last were found available, and three calls return them in
    turn. -/
theorem round_robin_three :
    let addresses := [(bytes "127.0.0.1", bytes "8080"), (bytes "127.0.0.1", bytes "8081"),
      (bytes "127.0.0.1", bytes "8082")]
    let checker := ((create addresses).setAvailable 0 true).setAvailable 2 true
    let window := [(checker, Event.getNext (some 2)),
      ({ checker with lastServerIndex := 2 }, Event.getNext (some 0)),
      ({ checker with lastServerIndex := 0 }, Event.getNext (some 2))]
    (∃ server checker', Returns checker.getNextAvailableServer (some server, checker') ∧
      checker.servers[checker'.lastServerIndex]? = some server ∧ server.isAvailable = true) ∧
      ((returnedBy window).count 0 = 3 / 2 ∨ (returnedBy window).count 0 = (3 + 2 - 1) / 2) := by
  intro addresses checker window
  have hrun : Trace Step (create addresses) [(create addresses, .setAvailable 0 true),
      ((create addresses).setAvailable 0 true, .setAvailable 2 true)] checker :=
    Trace.cons _ _ _ _ _ rfl (Trace.single rfl)
  rcases round_robin (List.cons_ne_nil _ _) hrun with ⟨hcomplete, hfair⟩
  constructor
  · rcases hcomplete with ⟨server, checker', hreturns, hserver⟩
    cases server with
    | none =>
        exact absurd (hserver ⟨bytes "127.0.0.1", bytes "8082", true⟩ (by decide)) (by decide)
    | some server => exact ⟨server, checker', hreturns, hserver⟩
  · have hcall : ∀ (c : HealthChecker) (index : Nat), c.servers ≠ [] → c.nextIndex = some index →
        Step c (.getNext (some index)) { c with lastServerIndex := index } := by
      intro c index hservers hnext
      rcases getNextAvailableServer_returns_some hservers hnext with ⟨server, -, -, hreturns⟩
      exact ⟨some server, hreturns, rfl⟩
    have hwindow : Trace Step checker window { checker with lastServerIndex := 2 } :=
      Trace.cons _ _ _ _ _ (hcall _ 2 (List.cons_ne_nil _ _) (by decide))
        (Trace.cons _ _ _ _ _ (hcall _ 0 (List.cons_ne_nil _ _) (by decide))
          (Trace.single (hcall _ 2 (List.cons_ne_nil _ _) (by decide))))
    have hsame : ∀ x ∈ window, x.2.isCall = true → x.1.servers = checker.servers :=
      List.forall_mem_cons.mpr ⟨fun _ => rfl, List.forall_mem_cons.mpr ⟨fun _ => rfl,
        List.forall_mem_singleton.mpr fun _ => rfl⟩⟩
    exact hfair window _ hwindow hsame 0 ⟨bytes "127.0.0.1", bytes "8080", true⟩ rfl rfl

end HealthChecker

end LoadBalancer

end CodingChallenges
