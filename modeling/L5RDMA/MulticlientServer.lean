/-
  `send` of the servers that answer several clients over RDMA
  (`MulticlientRDMATransport`, `MulticlientRDMARecvTransport`,
  `MulticlientRDMADistinctMrTransport`).

  All connections share one `sendBuffer`.  An answer is put there as its
  size, its bytes and the byte `validity`, and posted as one write on the
  queue pair of its client: INLINE if it has less than 512 bytes, signaled and
  waited for at every 1024th answer of the connection.  The network card works
  on each queue pair in post order, front to back, and reads the `sendBuffer`
  of a request that is not INLINE only then.
-/
import L5RDMA.Lib.Run
import L5RDMA.RDMANetworking

namespace L5RDMA

namespace Multiclient

open Verbs
open Pos (lengthOf)

/-- ASCII EOT. -/
def validity : UInt8 := 4

/-- The bytes of an answer: size, data, validity. -/
def answerFrame (data : List UInt8) : List UInt8 := bytesOf (lengthOf data) ++ data ++ [validity]

/-- A request in the send queue of a connection.  `frame` and `landed` serve only to say
    what is right: the frame of the call that posted it, and the bytes it has put into the
    client's receive buffer so far. -/
structure Posted where
  wr : Write
  frame : List UInt8
  landed : List UInt8

structure Connection where
  sendCounter : UInt64
  sq : List Posted
  /-- for each request that is done, its frame and the bytes it left at the client -/
  deposits : List (List UInt8 × List UInt8)

/-- Where the server is in `send`. -/
inductive SendPc where
  | idle
  /-- the answer is in `sendBuffer` -/
  | post (receiverId : ℕ) (totalLength : UInt64) (frame : List UInt8)
  /-- in `pollSendCompletionQueueBlocking` -/
  | poll

structure Server where
  sendBuffer : Mem
  /-- `connections.size()` -/
  count : ℕ
  connections : ℕ → Connection
  /-- signaled requests that are executed but not reported yet -/
  acks : ℕ
  /-- completions in the shared completion queue -/
  cq : ℕ
  pc : SendPc

/-- A server that has accepted `count` clients. -/
def Server.init (count : ℕ) : Server where
  sendBuffer := fun _ => 0
  count := count
  connections := fun _ => { sendCounter := 0, sq := [], deposits := [] }
  acks := 0
  cq := 0
  pc := .idle

/-! ## `send` -/

/-- The answer in `sendBuffer`. -/
def fill (m : Mem) (data : List UInt8) : Mem :=
  let m := Mem.write id m 8 data
  let m := Mem.write id m 0 (bytesOf (lengthOf data))
  Mem.write id m (8 + (lengthOf data).toNat) [validity]

/-- `send(receiverId, data, size)` up to the post.  For `receiverId` equal to the number
    of connections the check passes and the code reads past their end, which has no
    meaning. -/
def sendTo (maxMessageSize : UInt64) (srv : Server) (receiverId : ℕ) (data : List UInt8) :
    Option Server :=
  let totalLength := lengthOf data + 8 + 1
  -- throws "can't send messages > MAX_MESSAGESIZE"
  if totalLength > maxMessageSize then some srv
  -- throws "no such connection"
  else if receiverId > srv.count then some srv
  else if receiverId = srv.count then none
  else
    some { srv with
      sendBuffer := fill srv.sendBuffer data
      pc := .post receiverId totalLength (answerFrame data) }

/-- A place that `send` uses past its checks. -/
inductive Index where
  /-- an element of `connections` -/
  | connection (i : ℕ)
  /-- bytes of `sendBuffer` -/
  | sendBuffer (off length : ℕ)

/-- The connection, the data, its size, the byte `validity` and what is posted. -/
def sendIndices (receiverId : ℕ) (size : UInt64) : List Index :=
  [.connection receiverId,
    .sendBuffer 8 size.toNat,
    .sendBuffer 0 8,
    .sendBuffer (8 + size.toNat) 1,
    .sendBuffer 0 (size + 8 + 1).toNat]

/-- `setWrFlags`: whether the request is signaled, and whether it is INLINE. -/
structure Flags where
  signaled : Bool
  inline : Bool

def setWrFlags (signaled inlineMsg : Bool) : Flags := ⟨signaled, inlineMsg⟩

/-- The answer request of a connection whose counter has just become `sendCounter`. -/
def answerWr (m : Mem) (sendCounter totalLength : UInt64) : Write :=
  let flags := setWrFlags (sendCounter % 1024 = 0) (totalLength < 512)
  { localOff := 0
    remoteOff := 0
    length := totalLength.toNat
    inlined := if flags.inline then some (Mem.read id m 0 totalLength.toNat) else none
    signaled := flags.signaled
    id := 0 }

/-- The next step of `send`. -/
def Server.step (srv : Server) : Option Server :=
  match srv.pc with
  | .idle => none
  | .post receiverId totalLength frame =>
    let con := srv.connections receiverId
    let sendCounter := con.sendCounter + 1
    let wr := answerWr srv.sendBuffer sendCounter totalLength
    let con := { con with sendCounter := sendCounter, sq := con.sq ++ [⟨wr, frame, []⟩] }
    some { srv with
      connections := Function.update srv.connections receiverId con
      pc := if wr.signaled then .poll else .idle }
  | .poll => if srv.cq = 0 then none else some { srv with cq := srv.cq - 1, pc := .idle }

/-! ## The network card -/

/-- The next `k` bytes of the oldest answer to client `c` arrive. -/
def Server.land (srv : Server) (c k : ℕ) : Option Server :=
  let con := srv.connections c
  match con.sq with
  | [] => none
  | p :: sq =>
    if k ≤ p.wr.length then
      let landed := p.landed ++ p.wr.bytes id srv.sendBuffer k
      if k = p.wr.length then
        let con := { con with sq := sq, deposits := con.deposits ++ [(p.frame, landed)] }
        some { srv with
          connections := Function.update srv.connections c con
          acks := if p.wr.signaled then srv.acks + 1 else srv.acks }
      else
        let con := { con with sq := ⟨p.wr.drop k, p.frame, landed⟩ :: sq }
        some { srv with connections := Function.update srv.connections c con }
    else none

/-- The completion of a signaled request is reported. -/
def Server.complete (srv : Server) : Option Server :=
  if srv.acks = 0 then none else some { srv with acks := srv.acks - 1, cq := srv.cq + 1 }

/-! ## The three servers -/

inductive Transport where
  | doorbell
  | recv
  | distinctMr

end Multiclient

open Multiclient
open Pos (lengthOf)

namespace MulticlientRDMATransportServer

def maxMessageSize : UInt64 := 256 * 1024 * 1024

/-- `send(receiverId, doWork)`, where `doWork` copies `data` and returns its size.  The
    connection is looked up before the size is checked. -/
def sendWork (srv : Server) (receiverId : ℕ) (data : List UInt8) : Option Server :=
  -- throws "no such connection"
  if receiverId > srv.count then some srv
  else if receiverId = srv.count then none
  else
    let totalLength := lengthOf data + 8 + 1
    if totalLength > maxMessageSize then
      -- throws "can't send messages > MAX_MESSAGESIZE"
      some { srv with sendBuffer := Mem.write id srv.sendBuffer 8 data }
    else
      some { srv with
        sendBuffer := fill srv.sendBuffer data
        pc := .post receiverId totalLength (answerFrame data) }

def send (srv : Server) (receiverId : ℕ) (data : List UInt8) : Option Server :=
  if lengthOf data + 8 + 1 > maxMessageSize then some srv
  else if receiverId > srv.count then some srv
  else sendWork srv receiverId data

/-- The checks are made twice, to no effect. -/
theorem send_eq : send = sendTo maxMessageSize := by
  funext srv receiverId data
  unfold send sendTo sendWork
  dsimp only
  split_ifs <;> rfl

end MulticlientRDMATransportServer

namespace MulticlientRDMARecvTransportServer

def maxMessageSize : UInt64 := 256 * 1024

def send : Server → ℕ → List UInt8 → Option Server := sendTo maxMessageSize

end MulticlientRDMARecvTransportServer

namespace MulticlientRDMADistinctMrTransportServer

def maxMessageSize : UInt64 := 256 * 1024 * 1024

def send : Server → ℕ → List UInt8 → Option Server := sendTo maxMessageSize

end MulticlientRDMADistinctMrTransportServer

namespace Multiclient

namespace Transport

def maxMessageSize : Transport → UInt64
  | doorbell => MulticlientRDMATransportServer.maxMessageSize
  | recv => MulticlientRDMARecvTransportServer.maxMessageSize
  | distinctMr => MulticlientRDMADistinctMrTransportServer.maxMessageSize

def send : Transport → Server → ℕ → List UInt8 → Option Server
  | doorbell => MulticlientRDMATransportServer.send
  | recv => MulticlientRDMARecvTransportServer.send
  | distinctMr => MulticlientRDMADistinctMrTransportServer.send

theorem send_eq (t : Transport) : t.send = sendTo t.maxMessageSize := by
  cases t with
  | doorbell => exact MulticlientRDMATransportServer.send_eq
  | recv | distinctMr => rfl

end Transport

/-- The choices of the scheduler, of the caller and of the network card. -/
inductive Act where
  | send (receiverId : ℕ) (data : List UInt8)
  /-- the server takes its next step -/
  | server
  /-- the next `k` bytes of the oldest answer to client `c` arrive -/
  | land (c k : ℕ)
  | complete

def step (t : Transport) (srv : Server) : Act → Option Server
  | .send receiverId data =>
    match srv.pc with
    | .idle => t.send srv receiverId data
    | _ => none
  | .server => srv.step
  | .land c k => srv.land c k
  | .complete => srv.complete

end Multiclient

end L5RDMA
