/-
  `accept` of the multi-client RDMA servers, call by call.

  Most of `accept` is a handshake with the client, any call of which may throw.
  The doorbell transport puts the connection into `connections` when all of
  them have returned; the two others put it there first.  The shared receive
  queue also needs the number of the new queue pair and a receive request for it
  before the client can write.
-/
import L5RDMA.Lib.Fallible
import L5RDMA.MulticlientRecv

namespace L5RDMA

namespace Multiclient

open Fallible (Op)

/-- The calls in `accept` that may throw. -/
inductive AcceptCall where
  | tcpAccept
  /-- `rdma::RcQueuePair(net)` -/
  | queuePair
  /-- `net.getGID()` and `net.getLID()` -/
  | queryAddress
  | writeAddress
  | readAddress
  | writeReceiveAddr (receiveAddr : UInt64)
  | readReceiveAddr
  | writeDoorBellAddr (doorBellAddr : UInt64)
  | postRecvRequest
  | connect
deriving DecidableEq

/-- An element of `connections`. -/
structure Registered where
  qpn : UInt32
  /-- the remote address of its `answerWr`, once it is set -/
  answerAddr : Option UInt64
  connected : Bool

/-- What `accept` changes; the queue pair numbers and receive requests are those of the
    shared receive queue. -/
structure Registry where
  connections : List Registered
  qpnToConnection : UInt32 → Option UInt32
  posted : ℕ

/-- Before the first client. -/
def Registry.empty : Registry where
  connections := []
  qpnToConnection := fun _ => none
  posted := 0

namespace Registry

def emplaceBack (con : Registered) (srv : Registry) : Registry :=
  { srv with connections := srv.connections ++ [con] }

/-- A change of the connection with index `clientId`. -/
def modify (clientId : ℕ) (f : Registered → Registered) (srv : Registry) : Registry :=
  { srv with connections := srv.connections.modify clientId f }

end Registry

/-- A client that connects: the number of its queue pair at the server, and where its
    `receiveBuffer` is. -/
structure Newcomer where
  qpn : UInt32
  receiveAddr : UInt64

end Multiclient

open Multiclient
open Fallible (Op)

namespace MulticlientRDMATransportServer

def acceptOps (srv : Registry) (client : Newcomer) : List (Op Registry AcceptCall) :=
  let clientId := srv.connections.length
  let answerAddr := some client.receiveAddr
  [.call .tcpAccept,
    .call .queuePair,
    .call .queryAddress,
    .call .writeAddress,
    .call .readAddress,
    .call (.writeReceiveAddr (Transport.doorbell.receiveAddr clientId)),
    .call .readReceiveAddr,
    -- sizeof(char) is one
    .call (.writeDoorBellAddr (UInt64.ofNat clientId)),
    .call .connect,
    .change (Registry.emplaceBack ⟨client.qpn, answerAddr, true⟩)]

end MulticlientRDMATransportServer

namespace MulticlientRDMARecvTransportServer

def acceptOps (srv : Registry) (client : Newcomer) : List (Op Registry AcceptCall) :=
  let clientId := srv.connections.length
  [.call .tcpAccept,
    .call .queuePair,
    .change fun srv => { srv with
      qpnToConnection :=
        Function.update srv.qpnToConnection client.qpn
          (some (UInt32.ofNat srv.connections.length)) },
    .change (Registry.emplaceBack ⟨client.qpn, none, false⟩),
    .call .postRecvRequest,
    .change fun srv => { srv with posted := srv.posted + 1 },
    .call .queryAddress,
    .call .writeAddress,
    .call .readAddress,
    .call (.writeReceiveAddr (Transport.recv.receiveAddr clientId)),
    .call .readReceiveAddr,
    .change (Registry.modify clientId fun con =>
      { con with answerAddr := some client.receiveAddr }),
    .call .connect,
    .change (Registry.modify clientId fun con => { con with connected := true })]

end MulticlientRDMARecvTransportServer

namespace MulticlientRDMADistinctMrTransportServer

def acceptOps (srv : Registry) (client : Newcomer) : List (Op Registry AcceptCall) :=
  let clientId := srv.connections.length
  [.call .tcpAccept,
    .call .queuePair,
    .change (Registry.emplaceBack ⟨client.qpn, none, false⟩),
    .call .queryAddress,
    .call .writeAddress,
    .call .readAddress,
    .call (.writeReceiveAddr (Transport.distinctMr.receiveAddr clientId)),
    .call .readReceiveAddr,
    .change (Registry.modify clientId fun con =>
      { con with answerAddr := some client.receiveAddr }),
    .call .connect,
    .change (Registry.modify clientId fun con => { con with connected := true })]

end MulticlientRDMADistinctMrTransportServer

namespace Multiclient

def Transport.acceptOps : Transport → Registry → Newcomer → List (Op Registry AcceptCall)
  | doorbell => MulticlientRDMATransportServer.acceptOps
  | recv => MulticlientRDMARecvTransportServer.acceptOps
  | distinctMr => MulticlientRDMADistinctMrTransportServer.acceptOps

/-- A call of `accept`: the client that comes, and which calls throw if they are made. -/
structure Attempt where
  client : Newcomer
  fails : AcceptCall → Bool

namespace Attempt

/-- The registry that a call of `accept` leaves. -/
def after (t : Transport) (srv : Registry) (a : Attempt) : Registry :=
  (Fallible.exec a.fails (t.acceptOps srv a.client) srv).1

/-- The call in which `accept` has thrown. -/
def thrown (t : Transport) (srv : Registry) (a : Attempt) : Option AcceptCall :=
  (Fallible.exec a.fails (t.acceptOps srv a.client) srv).2

/-- A call of `accept`, which comes back in any case. -/
def step (t : Transport) (srv : Registry) (a : Attempt) : Option Registry := some (a.after t srv)

end Attempt

end Multiclient

end L5RDMA
