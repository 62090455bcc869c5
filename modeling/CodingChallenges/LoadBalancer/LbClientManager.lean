import CodingChallenges.Library.Bytes
import CodingChallenges.Library.Decimal
import Mathlib.Data.List.AList

/-!
# Connections to the Backends

How the connections to the backend servers are named and found again:
`LbClient::connect` and `LbClientManager.cpp`.

A connection gets its id when it is made. The id says which backend it leads to and
whether it is there for a health check, and nothing else, so two connections to one
backend have the same id. Under an id the manager keeps the connection that was
added first.

## Main definitions

* `LbClient`: A connection.
* `LbClient.getId`: Its id.
* `addLbClient`, `getLbClient`, `removeLbClient`: What the manager does.
-/

namespace CodingChallenges

namespace LoadBalancer

/-- Where a connection goes to. -/
structure Endpoint where
  ip : List UInt8
  port : UInt16
deriving DecidableEq, Repr

/-- A connection to a backend. -/
structure LbClient where
  endpoint : Endpoint
  isForHealthCheck : Bool
deriving DecidableEq, Repr

/-- Connections are registered under a text. -/
abbrev ClientId := List UInt8

/-- The id of a connection that was made. -/
def LbClient.getId (client : LbClient) : ClientId :=
  client.endpoint.ip ++ bytes "_" ++ decimalDigits client.endpoint.port.toNat ++
    if client.isForHealthCheck then bytes "_H" else bytes "_NH"

/-- The connections by their ids. A connection is a pointer in the source; here it is the
    place of the connection among all that were ever made. -/
abbrev LbClients := AList (fun _ : ClientId => Nat)

/-- Adding a connection. `insert` changes nothing if the id is taken. -/
def addLbClient (id : ClientId) (client : Nat) (lbClients : LbClients) : LbClients :=
  match lbClients.lookup id with
  | some _ => lbClients
  | none => lbClients.insert id client

/-- The connection that is registered under the id. -/
def getLbClient (id : ClientId) (lbClients : LbClients) : Option Nat :=
  lbClients.lookup id

/-- Nothing is registered under the id any longer. -/
def removeLbClient (id : ClientId) (lbClients : LbClients) : LbClients :=
  lbClients.erase id

end LoadBalancer

end CodingChallenges
