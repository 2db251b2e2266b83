/-
  Clients and a polling server: every client alternates `send` and `receive`,
  the server answers each request it has received once.

  A client's `send` puts size and bytes into its `sendBuffer` and posts them as
  one INLINE write to its slot; over the doorbell transport a second write
  rings its bell.  It returns when the completions of its writes are polled.
  The writes of a client arrive in post order, the data front to back, some
  words at a time.  Answers arrive in one piece.
-/
import L5RDMA.MulticlientPolling

namespace L5RDMA

namespace Multiclient

open Pos (lengthOf)

/-- Where a client is in `send(data, size)`. -/
inductive AskPc where
  | idle
  /-- the request is in `sendBuffer` -/
  | post (dataWrSize : UInt64)
  /-- about to ring -/
  | ring
  /-- `n + 1` more completions to poll -/
  | poll (n : ℕ)

/-- What a client has posted: the bytes of its request that have not arrived yet and
    where they go in its slot, or the write to its bell. -/
inductive RequestWr where
  | data (off : ℕ) (bytes : List UInt8)
  | bell

structure Client where
  sendBuffer : Mem
  pc : AskPc
  sq : List RequestWr
  /-- requests that are executed but not reported yet -/
  acks : ℕ
  cq : ℕ
  receiver : Receiver
  /-- the requests passed to `send` -/
  sent : List (List UInt8)

def Client.init : Client where
  sendBuffer := fun _ => 0
  pc := .idle
  sq := []
  acks := 0
  cq := 0
  receiver := .init
  sent := []

/-- `pollSendCompletionQueueBlocking`, for the next of the completions. -/
def Client.poll (cl : Client) (n : ℕ) : Option Client :=
  if cl.cq = 0 then none
  else some { cl with cq := cl.cq - 1, pc := match n with | 0 => .idle | n + 1 => .poll n }

/-- Post the data.  The queue pair refuses a request that it cannot take INLINE. -/
def Client.post (cl : Client) (dataWrSize : UInt64) (pc : AskPc) : Client :=
  if dataWrSize > maxInlineSize then { cl with pc := .idle }
  else
    { cl with pc := pc, sq := cl.sq ++ [.data 0 (Mem.read id cl.sendBuffer 0 dataWrSize.toNat)] }

end Multiclient

open Multiclient
open Pos (lengthOf)

namespace MultiClientRDMATransportClient

def maxMessageSize : UInt64 := 256 * 1024 * 1024

/-- `send` up to the post. -/
def send (cl : Client) (data : List UInt8) : Client :=
  let dataWrSize := lengthOf data + 8
  -- throws "can't send messages > MAX_MESSAGESIZE"
  if dataWrSize > maxMessageSize then cl
  else
    let m := Mem.write id cl.sendBuffer 8 data
    let m := Mem.write id m 0 (bytesOf (lengthOf data))
    { cl with sendBuffer := m, pc := .post dataWrSize }

def sendStep (cl : Client) : Option Client :=
  match cl.pc with
  | .idle => none
  | .post dataWrSize => some (cl.post dataWrSize .ring)
  | .ring => some { cl with sq := cl.sq ++ [.bell], pc := .poll 1 }
  | .poll n => cl.poll n

end MultiClientRDMATransportClient

namespace MulticlientRDMADistinctMrTransportClient

def maxMessageSize : UInt64 := 256 * 1024 * 1024

def send (cl : Client) (data : List UInt8) : Client :=
  let dataWrSize := lengthOf data + 8
  -- throws "can't send messages > MAX_MESSAGESIZE"
  if dataWrSize > maxMessageSize then cl
  else
    let m := Mem.write id cl.sendBuffer 0 (bytesOf (lengthOf data))
    let m := Mem.write id m 8 data
    { cl with sendBuffer := m, pc := .post dataWrSize }

def sendStep (cl : Client) : Option Client :=
  match cl.pc with
  | .idle | .ring => none
  | .post dataWrSize => some (cl.post dataWrSize (.poll 0))
  | .poll n => cl.poll n

end MulticlientRDMADistinctMrTransportClient

namespace Multiclient

namespace Polling

def send : Polling → Client → List UInt8 → Client
  | doorbell => MultiClientRDMATransportClient.send
  | distinctMr => MulticlientRDMADistinctMrTransportClient.send

def sendStep : Polling → Client → Option Client
  | doorbell => MultiClientRDMATransportClient.sendStep
  | distinctMr => MulticlientRDMADistinctMrTransportClient.sendStep

end Polling

namespace Exchanges

structure State where
  slots : Slots
  server : Server
  clients : ℕ → Client
  /-- the answers passed to the server's `send`, for each client -/
  answers : ℕ → List (List UInt8)

/-- A server that has accepted `count` clients. -/
def init (maxClients count : ℕ) : State where
  slots := .init maxClients count
  server := .init count
  clients := fun _ => .init
  answers := fun _ => []

/-- The requests of client `c` that the server's `receive` has returned. -/
def State.delivered (s : State) (c : ℕ) : List (List UInt8) :=
  (s.slots.returned.filter fun r => r.1 = c).map fun r => r.2

inductive Act where
  /-- client `c` calls `send` -/
  | send (c : ℕ) (data : List UInt8)
  /-- client `c` calls `receive` -/
  | receive (c : ℕ) (maxSize : UInt64)
  /-- client `c` takes its next step -/
  | client (c : ℕ)
  /-- the next words of the oldest write of client `c` arrive -/
  | land (c words : ℕ)
  /-- a completion is reported to client `c` -/
  | complete (c : ℕ)
  /-- the server calls `receive` -/
  | serve (maxSize : UInt64)
  /-- the server calls `send` -/
  | answer (c : ℕ) (data : List UInt8)
  /-- the server takes its next step -/
  | server
  /-- the oldest answer to client `c` arrives -/
  | landAnswer (c : ℕ)
  /-- a completion is reported to the server -/
  | completeAnswer

/-- The next words of the oldest write of client `c` arrive. -/
def land (s : State) (c words : ℕ) : Option State :=
  let cl := s.clients c
  match cl.sq with
  | [] => none
  | .data off bytes :: sq =>
    let receives :=
      Function.update s.slots.receives c
        (Mem.write id (s.slots.receives c) off (bytes.take (8 * words)))
    let cl :=
      if bytes.length ≤ 8 * words then { cl with sq := sq, acks := cl.acks + 1 }
      else { cl with sq := .data (off + 8 * words) (bytes.drop (8 * words)) :: sq }
    some { s with
      slots := { s.slots with receives := receives }, clients := Function.update s.clients c cl }
  | .bell :: sq =>
    -- the client rings with the character X
    let doorBells := Function.update s.slots.doorBells c 0x58
    let cl := { cl with sq := sq, acks := cl.acks + 1 }
    some { s with
      slots := { s.slots with doorBells := doorBells }, clients := Function.update s.clients c cl }

/-- The oldest answer to client `c` arrives. -/
def landAnswer (s : State) (c : ℕ) : Option State :=
  match (s.server.connections c).sq with
  | [] => none
  | p :: _ =>
    let cl := s.clients c
    let bytes := p.wr.bytes id s.server.sendBuffer p.wr.length
    let receiveBuffer := Mem.write id cl.receiver.receiveBuffer p.wr.remoteOff bytes
    let cl := { cl with receiver := { cl.receiver with receiveBuffer := receiveBuffer } }
    (s.server.land c p.wr.length).map fun server =>
      { s with server := server, clients := Function.update s.clients c cl }

def step (k : Polling) (s : State) : Act → Option State
  | .send c data =>
    let cl := s.clients c
    match cl.pc, cl.receiver.pc with
    | .idle, .idle =>
      -- with the answer to its last request
      if c < s.slots.count ∧ cl.sent.length = cl.receiver.got.length then
        let cl := { k.send cl data with sent := cl.sent ++ [data] }
        some { s with clients := Function.update s.clients c cl }
      else none
    | _, _ => none
  | .receive c maxSize =>
    let cl := s.clients c
    match cl.pc, cl.receiver.pc with
    | .idle, .idle =>
      if cl.sent.length = cl.receiver.got.length + 1 then
        let cl := { cl with receiver := { cl.receiver with pc := .size maxSize } }
        some { s with clients := Function.update s.clients c cl }
      else none
    | _, _ => none
  | .client c =>
    let cl := s.clients c
    let cl :=
      match cl.pc with
      | .idle =>
        (k.transport.receiveStep cl.receiver).map fun receiver => { cl with receiver := receiver }
      | _ => k.sendStep cl
    cl.map fun cl => { s with clients := Function.update s.clients c cl }
  | .land c words => land s c words
  | .complete c =>
    let cl := s.clients c
    if cl.acks = 0 then none
    else
      let cl := { cl with acks := cl.acks - 1, cq := cl.cq + 1 }
      some { s with clients := Function.update s.clients c cl }
  | .serve maxSize =>
    match s.slots.pc, s.server.pc with
    | .idle, .idle => some { s with slots := { s.slots with pc := .poll maxSize 0 } }
    | _, _ => none
  | .answer c data =>
    match s.slots.pc, s.server.pc with
    | .idle, .idle =>
      -- each request once
      if (s.answers c).length < (s.delivered c).length then
        (k.transport.send s.server c data).map fun server =>
          { s with
            server := server, answers := Function.update s.answers c (s.answers c ++ [data]) }
      else none
    | _, _ => none
  | .server =>
    match s.slots.pc with
    | .idle => s.server.step.map fun server => { s with server := server }
    | _ => (k.receiveStep s.slots).map fun slots => { s with slots := slots }
  | .landAnswer c => landAnswer s c
  | .completeAnswer => s.server.complete.map fun server => { s with server := server }

end Exchanges

end Multiclient

end L5RDMA
