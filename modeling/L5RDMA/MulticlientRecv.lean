/-
  Clients and the server that takes its requests from a shared receive queue
  (`MulticlientRDMARecvTransport`): every client alternates `send` and
  `receive`, the server answers each request it has received once.

  `accept` posts a receive request for the new connection before the client
  gets the addresses it needs.  A client's `send` is one INLINE write with
  immediate to its slot; when all of it has arrived, it consumes a receive
  request and leaves a completion with the number of the server's queue pair.
  The server's `receive` polls a completion, looks up the connection, posts a
  receive request in place of the consumed one and only then reads the slot.
  Answers arrive in one piece.
-/
import L5RDMA.Lib.ReceiveQueue
import L5RDMA.MulticlientSlots

namespace L5RDMA

namespace Multiclient

open Verbs (ReceiveQueue)

namespace Recv

/-- Where the server is in `accept`. -/
inductive AcceptPc where
  | idle
  /-- the connection is made; about to post its receive request -/
  | post
  /-- about to exchange addresses with the client -/
  | exchange
  | connect

/-- Where the server is in `receive(whereTo, maxSize)`. -/
inductive TakePc where
  | idle
  /-- in `pollRecvWorkCompletionBlocking` -/
  | poll (maxSize : UInt64)
  /-- about to replace the receive request that `client` has consumed -/
  | post (maxSize : UInt64) (client : ℕ)
  /-- about to load the size of its request -/
  | size (maxSize : UInt64) (client : ℕ)
  | copy (maxSize : UInt64) (client : ℕ) (size : UInt64)

structure State where
  /-- `MAX_CLIENTS` -/
  maxClients : ℕ
  /-- the queue pair number of each of the `connections` -/
  qpns : List UInt32
  qpnToConnection : UInt32 → Option UInt32
  /-- the shared receive queue and its completions -/
  recv : ReceiveQueue UInt32
  receives : ℕ → Mem
  acceptPc : AcceptPc
  /-- the clients that know where their slot is -/
  handed : ℕ
  /-- the connections whose queue pair is connected -/
  connected : ℕ
  pc : TakePc
  /-- the client and the bytes of each request that `receive` has returned -/
  returned : List (ℕ × List UInt8)
  /-- the client of each request at which `receive` has thrown -/
  refused : List ℕ
  /-- the `send` of the server, with `connections.size()` -/
  server : Server
  clients : ℕ → Client
  /-- the data of each client's last call of `send` -/
  asking : ℕ → List UInt8
  /-- the answers passed to the server's `send`, for each client -/
  answers : ℕ → List (List UInt8)

def init (maxClients : ℕ) : State where
  maxClients := maxClients
  qpns := []
  qpnToConnection := fun _ => none
  recv := { posted := 0, completions := [] }
  receives := fun _ _ => 0
  acceptPc := .idle
  handed := 0
  connected := 0
  pc := .idle
  returned := []
  refused := []
  server := .init 0
  clients := fun _ => .init
  asking := fun _ => []
  answers := fun _ => []

/-- The requests of client `c` that the server's `receive` has returned. -/
def State.delivered (s : State) (c : ℕ) : List (List UInt8) :=
  (s.returned.filter fun r => r.1 = c).map fun r => r.2

end Recv

end Multiclient

open Multiclient Recv

namespace MulticlientRDMARecvTransportServer

/-- `accept` up to the new connection, whose queue pair has a number of its own. -/
def acceptConnection (s : State) (qpn : UInt32) : Option State :=
  if qpn ∈ s.qpns then none
  else
    let connection := UInt32.ofNat s.server.count
    some { s with
      qpns := s.qpns ++ [qpn]
      qpnToConnection := Function.update s.qpnToConnection qpn (some connection)
      server := { s.server with count := s.server.count + 1 }
      acceptPc := .post }

/-- The next step of `accept`. -/
def acceptStep (s : State) : Option State :=
  match s.acceptPc with
  | .idle => none
  | .post => some { s with recv := s.recv.post, acceptPc := .exchange }
  | .exchange => some { s with handed := s.server.count, acceptPc := .connect }
  | .connect => some { s with connected := s.server.count, acceptPc := .idle }

/-- The next step of `receive`. -/
def receiveStep (s : State) : Option State :=
  match s.pc with
  | .idle => none
  | .poll maxSize =>
    match s.recv.poll with
    | none => some s
    | some (qpn, recv) =>
      match s.qpnToConnection qpn with
      | some client => some { s with recv := recv, pc := .post maxSize client.toNat }
      -- throws std::out_of_range
      | none => some { s with recv := recv, pc := .idle }
  | .post maxSize client => some { s with recv := s.recv.post, pc := .size maxSize client }
  | .size maxSize client =>
    some { s with pc := .copy maxSize client (sizeWord (s.receives client)) }
  | .copy maxSize client size =>
    -- throws "received message > maxSize"
    if maxSize < size then some { s with pc := .idle, refused := s.refused ++ [client] }
    else
      some { s with
        pc := .idle
        returned := s.returned ++ [(client, Mem.read id (s.receives client) 8 size.toNat)] }

end MulticlientRDMARecvTransportServer

namespace MulticlientRDMARecvTransportClient

/-- The next step of `send(data)`; what is posted is sent. -/
def sendStep (data : List UInt8) (cl : Client) : Option Client :=
  match cl.pc with
  | .idle | .ring => none
  | .post dataWrSize =>
    let sent := if dataWrSize > maxInlineSize then cl.sent else cl.sent ++ [data]
    some { cl.post dataWrSize (.poll 0) with sent := sent }
  | .poll n => cl.poll n

end MulticlientRDMARecvTransportClient

namespace Multiclient

namespace Recv

inductive Act where
  /-- the server calls `accept`, and the new queue pair has the number `qpn` -/
  | accept (qpn : UInt32)
  /-- client `c` calls `send` -/
  | send (c : ℕ) (data : List UInt8)
  /-- client `c` calls `receive` -/
  | receive (c : ℕ) (maxSize : UInt64)
  /-- client `c` takes its next step -/
  | client (c : ℕ)
  /-- the next words of the write of client `c` arrive -/
  | land (c words : ℕ)
  /-- a completion is reported to client `c` -/
  | complete (c : ℕ)
  /-- the server calls `receive` -/
  | serve (maxSize : UInt64)
  /-- the server calls `send` -/
  | answer (c : ℕ) (data : List UInt8)
  /-- the server takes its next step -/
  | server
  /-- the oldest answer to client `c` arrives -/
  | landAnswer (c : ℕ)
  /-- a completion is reported to the server -/
  | completeAnswer

/-- The next words of the write of client `c` arrive.  The queue pair must be connected
    and the slot in the registered memory. -/
def land (s : State) (c words : ℕ) : Option State :=
  let cl := s.clients c
  match s.qpns[c]?, cl.sq with
  | some qpn, .data off bytes :: sq =>
    if c < s.connected ∧ c < s.maxClients then
      let receives :=
        Function.update s.receives c
          (Mem.write id (s.receives c) off (bytes.take (8 * words)))
      if bytes.length ≤ 8 * words then
        let cl := { cl with sq := sq, acks := cl.acks + 1 }
        (s.recv.arrive qpn).map fun recv =>
          { s with receives := receives, recv := recv, clients := Function.update s.clients c cl }
      else
        let cl := { cl with sq := .data (off + 8 * words) (bytes.drop (8 * words)) :: sq }
        some { s with receives := receives, clients := Function.update s.clients c cl }
    else none
  | _, _ => none

/-- The oldest answer to client `c` arrives. -/
def landAnswer (s : State) (c : ℕ) : Option State :=
  match (s.server.connections c).sq with
  | [] => none
  | p :: _ =>
    let cl := s.clients c
    let bytes := p.wr.bytes id s.server.sendBuffer p.wr.length
    let receiveBuffer := Mem.write id cl.receiver.receiveBuffer p.wr.remoteOff bytes
    let cl := { cl with receiver := { cl.receiver with receiveBuffer := receiveBuffer } }
    (s.server.land c p.wr.length).map fun server =>
      { s with server := server, clients := Function.update s.clients c cl }

def step (s : State) : Act → Option State
  | .accept qpn =>
    match s.acceptPc, s.pc, s.server.pc with
    | .idle, .idle, .idle => MulticlientRDMARecvTransportServer.acceptConnection s qpn
    | _, _, _ => none
  | .send c data =>
    let cl := s.clients c
    match cl.pc, cl.receiver.pc with
    | .idle, .idle =>
      -- with the answer to its last request, and with the data in memory
      if c < s.handed ∧ cl.sent.length = cl.receiver.got.length ∧ data.length + 8 < 2 ^ 64 then
        some { s with
          clients := Function.update s.clients c (MulticlientRDMARecvTransportClient.send cl data)
          asking := Function.update s.asking c data }
      else none
    | _, _ => none
  | .receive c maxSize =>
    let cl := s.clients c
    match cl.pc, cl.receiver.pc with
    | .idle, .idle =>
      if cl.sent.length = cl.receiver.got.length + 1 then
        let cl := { cl with receiver := { cl.receiver with pc := .size maxSize } }
        some { s with clients := Function.update s.clients c cl }
      else none
    | _, _ => none
  | .client c =>
    let cl := s.clients c
    let cl :=
      match cl.pc with
      | .idle =>
        (MulticlientRDMARecvTransportClient.receiveStep cl.receiver).map fun receiver =>
          { cl with receiver := receiver }
      | _ => MulticlientRDMARecvTransportClient.sendStep (s.asking c) cl
    cl.map fun cl => { s with clients := Function.update s.clients c cl }
  | .land c words => land s c words
  | .complete c =>
    let cl := s.clients c
    if cl.acks = 0 then none
    else
      let cl := { cl with acks := cl.acks - 1, cq := cl.cq + 1 }
      some { s with clients := Function.update s.clients c cl }
  | .serve maxSize =>
    match s.acceptPc, s.pc, s.server.pc with
    | .idle, .idle, .idle => some { s with pc := .poll maxSize }
    | _, _, _ => none
  | .answer c data =>
    match s.acceptPc, s.pc, s.server.pc with
    | .idle, .idle, .idle =>
      -- each request once
      if (s.answers c).length < (s.delivered c).length then
        (MulticlientRDMARecvTransportServer.send s.server c data).map fun server =>
          { s with
            server := server, answers := Function.update s.answers c (s.answers c ++ [data]) }
      else none
    | _, _, _ => none
  | .server =>
    match s.acceptPc, s.pc with
    | .idle, .idle => s.server.step.map fun server => { s with server := server }
    | .idle, _ => MulticlientRDMARecvTransportServer.receiveStep s
    | _, _ => MulticlientRDMARecvTransportServer.acceptStep s
  | .landAnswer c => landAnswer s c
  | .completeAnswer => s.server.complete.map fun server => { s with server := server }

end Recv

end Multiclient

end L5RDMA
