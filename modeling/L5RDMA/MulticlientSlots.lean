/-
  The memory of the multi-client servers in which requests arrive.

  The constructor registers `receives`, with a slot of `MAX_MESSAGESIZE` bytes
  for each of `MAX_CLIENTS` clients; the doorbell transport also registers
  `doorBells`, with a byte for each.  `accept` gives the client the address of
  its slot, and from then on the client writes there by itself.  An address is
  given by its offset in the region.

  An exception in `accept` leaves a connection without a client behind if the
  connection has already been put into `connections`; the doorbell transport
  puts it there only at the end.
-/
import L5RDMA.MulticlientExchange

namespace L5RDMA

namespace Multiclient

/-- What a connection's client is told of the server's memory. -/
structure Handed where
  receiveAddr : UInt64
  doorBellAddr : Option UInt64

/-- A server that accepts clients. -/
structure Acceptor where
  /-- `MAX_CLIENTS` -/
  maxClients : UInt64
  connections : List Handed

namespace Transport

/-- `sizeof(uint8_t[MAX_MESSAGESIZE])` at the server. -/
def slotSize (t : Transport) : UInt64 := t.maxMessageSize

/-- The constructor, with `maxClients` slots.  `std::vector` has at most `PTRDIFF_MAX` bytes. -/
def create (t : Transport) (maxClients : UInt64) : Option Acceptor :=
  -- throws std::length_error
  if t.slotSize.toNat * maxClients.toNat > 2 ^ 63 - 1 then none
  else some { maxClients := maxClients, connections := [] }

end Transport

/-- How far a call of `accept` gets. -/
inductive Outcome where
  /-- there is no client, or no queue pair for it -/
  | noConnection
  /-- the exchange of addresses with the client throws -/
  | noExchange
  | accepted
deriving DecidableEq

/-- `receives.getAddr().offset(sizeof(uint8_t[MAX_MESSAGESIZE]) * clientId)`. -/
def Transport.receiveAddr (t : Transport) (clientId : ℕ) : UInt64 :=
  t.slotSize * UInt64.ofNat clientId

end Multiclient

open Multiclient

namespace MulticlientRDMATransportServer

def accept (srv : Acceptor) (outcome : Outcome) : Acceptor :=
  let clientId := srv.connections.length
  let con :=
    { receiveAddr := Transport.doorbell.receiveAddr clientId
      -- sizeof(char) is one
      doorBellAddr := some (UInt64.ofNat clientId) }
  match outcome with
  | .noConnection | .noExchange => srv
  | .accepted => { srv with connections := srv.connections ++ [con] }

end MulticlientRDMATransportServer

namespace MulticlientRDMARecvTransportServer

def accept (srv : Acceptor) (outcome : Outcome) : Acceptor :=
  let clientId := srv.connections.length
  let con := { receiveAddr := Transport.recv.receiveAddr clientId, doorBellAddr := none }
  match outcome with
  | .noConnection => srv
  | .noExchange | .accepted => { srv with connections := srv.connections ++ [con] }

end MulticlientRDMARecvTransportServer

namespace MulticlientRDMADistinctMrTransportServer

def accept (srv : Acceptor) (outcome : Outcome) : Acceptor :=
  let clientId := srv.connections.length
  let con := { receiveAddr := Transport.distinctMr.receiveAddr clientId, doorBellAddr := none }
  match outcome with
  | .noConnection => srv
  | .noExchange | .accepted => { srv with connections := srv.connections ++ [con] }

end MulticlientRDMADistinctMrTransportServer

namespace MulticlientRDMARecvTransportClient

def maxMessageSize : UInt64 := 256 * 1024 * 1024

/-- `send` up to the post. -/
def send (cl : Client) (data : List UInt8) : Client :=
  let dataWrSize := Pos.lengthOf data + 8
  -- throws "can't send messages > MAX_MESSAGESIZE"
  if dataWrSize > maxMessageSize then cl
  else
    let m := Mem.write id cl.sendBuffer 0 (bytesOf (Pos.lengthOf data))
    let m := Mem.write id m 8 data
    { cl with sendBuffer := m, pc := .post dataWrSize }

end MulticlientRDMARecvTransportClient

namespace Multiclient

namespace Transport

def accept : Transport → Acceptor → Outcome → Acceptor
  | doorbell => MulticlientRDMATransportServer.accept
  | recv => MulticlientRDMARecvTransportServer.accept
  | distinctMr => MulticlientRDMADistinctMrTransportServer.accept

/-- A call of `accept`. -/
def acceptStep (t : Transport) (srv : Acceptor) (outcome : Outcome) : Option Acceptor :=
  some (t.accept srv outcome)

/-- `MAX_MESSAGESIZE` of the client. -/
def clientMaxMessageSize : Transport → UInt64
  | doorbell => MultiClientRDMATransportClient.maxMessageSize
  | recv => MulticlientRDMARecvTransportClient.maxMessageSize
  | distinctMr => MulticlientRDMADistinctMrTransportClient.maxMessageSize

/-- `send` of the client, up to the post. -/
def clientSend : Transport → Client → List UInt8 → Client
  | doorbell => MultiClientRDMATransportClient.send
  | recv => MulticlientRDMARecvTransportClient.send
  | distinctMr => MulticlientRDMADistinctMrTransportClient.send

/-- The check of the client's `send`: the bytes it writes to its slot, if it passes. -/
def dataWrSize (t : Transport) (size : UInt64) : Option UInt64 :=
  let dataWrSize := size + 8
  if dataWrSize > t.clientMaxMessageSize then none else some dataWrSize

/-- The check of the server's `send`: the bytes it writes to the client's `receiveBuffer`. -/
def totalLength (t : Transport) (size : UInt64) : Option UInt64 :=
  let totalLength := size + 8 + 1
  if totalLength > t.maxMessageSize then none else some totalLength

end Transport

end Multiclient

end L5RDMA
