/-
  `receive` of the clients of the multi-client RDMA transports, and the answers
  that arrive while it polls.

  An answer arrives at the start of the client's `receiveBuffer` as its size,
  its bytes and the byte `validity`, word by word and front to back.  The
  client waits for a size that is not zero and for `validity` behind as many
  bytes, copies the bytes out and sets the size back to zero; nothing else of
  the buffer is cleared.  The server sends the next answer only when the client
  has returned the previous one.
-/
import L5RDMA.MulticlientServer

namespace L5RDMA

namespace Multiclient

open Pos (lengthOf)

/-- The size word of a buffer. -/
def sizeWord (m : Mem) : UInt64 := UInt64.ofNat (Bytes.ofLE (Mem.read id m 0 8))

/-- Where the client is in `receive(whereTo, maxSize)`. -/
inductive RecvPc where
  | idle
  /-- about to load the size -/
  | size (maxSize : UInt64)
  /-- about to load the byte behind `size` bytes -/
  | check (maxSize size : UInt64)
  /-- past the polling loop -/
  | copy (maxSize size : UInt64)
  /-- the bytes are copied out -/
  | reset (bytes : List UInt8)

/-- A client's buffer, position, and what its calls have returned. -/
structure Receiver where
  receiveBuffer : Mem
  pc : RecvPc
  got : List (List UInt8)

def Receiver.init : Receiver := { receiveBuffer := fun _ => 0, pc := .idle, got := [] }

/-- The next step of `receive`.  After a `validity` that is not there yet, one loop
    starts over with the size (`rereads`), the other stays with the one it has. -/
def receiveStep (rereads : Bool) (r : Receiver) : Option Receiver :=
  match r.pc with
  | .idle => none
  | .size maxSize =>
    let size := sizeWord r.receiveBuffer
    if size = 0 then some r else some { r with pc := .check maxSize size }
  | .check maxSize size =>
    if r.receiveBuffer (8 + size.toNat) = validity then some { r with pc := .copy maxSize size }
    else if rereads then some { r with pc := .size maxSize } else some r
  | .copy maxSize size =>
    -- throws "received message > maxSize"
    if size > maxSize then some { r with pc := .idle }
    else some { r with pc := .reset (Mem.read id r.receiveBuffer 8 size.toNat) }
  | .reset bytes =>
    some
      { receiveBuffer := Mem.write id r.receiveBuffer 0 (bytesOf 0), pc := .idle
        got := r.got ++ [bytes] }

end Multiclient

open Multiclient

namespace MultiClientRDMATransportClient

/-- Two loops: one until the size is not zero, one until `validity` is there. -/
def receiveStep : Receiver → Option Receiver := Multiclient.receiveStep false

end MultiClientRDMATransportClient

namespace MulticlientRDMARecvTransportClient

def receiveStep : Receiver → Option Receiver := Multiclient.receiveStep true

end MulticlientRDMARecvTransportClient

namespace MulticlientRDMADistinctMrTransportClient

def receiveStep : Receiver → Option Receiver := Multiclient.receiveStep true

end MulticlientRDMADistinctMrTransportClient

namespace Multiclient

def Transport.rereads : Transport → Bool
  | .doorbell => false
  | .recv | .distinctMr => true

def Transport.receiveStep : Transport → Receiver → Option Receiver
  | .doorbell => MultiClientRDMATransportClient.receiveStep
  | .recv => MulticlientRDMARecvTransportClient.receiveStep
  | .distinctMr => MulticlientRDMADistinctMrTransportClient.receiveStep

theorem Transport.receiveStep_eq (t : Transport) :
    t.receiveStep = Multiclient.receiveStep t.rereads := by cases t <;> rfl

namespace Answers

/-- A client and the answers on their way to it. -/
structure State where
  client : Receiver
  /-- the answers still to be sent -/
  todo : List (List UInt8)
  sent : List (List UInt8)
  /-- how many bytes of the last answer have arrived -/
  arrived : ℕ
  /-- the bytes of it that have not -/
  flight : List UInt8

def init (answers : List (List UInt8)) : State where
  client := .init
  todo := answers
  sent := []
  arrived := 0
  flight := []

inductive Act where
  /-- the server sends the next answer -/
  | answer
  /-- the next words of an answer arrive -/
  | land (words : ℕ)
  | receive (maxSize : UInt64)
  /-- the client takes its next step -/
  | client

def step (t : Transport) (s : State) : Act → Option State
  | .answer =>
    match s.todo with
    | [] => none
    | data :: todo =>
      -- one at a time
      if s.sent.length = s.client.got.length ∧ s.flight = [] then
        some { s with
          todo := todo, sent := s.sent ++ [data], arrived := 0, flight := answerFrame data }
      else none
  | .land words =>
    let bytes := s.flight.take (8 * words)
    some { s with
      client := { s.client with
        receiveBuffer := Mem.write id s.client.receiveBuffer s.arrived bytes }
      arrived := s.arrived + bytes.length
      flight := s.flight.drop (8 * words) }
  | .receive maxSize =>
    match s.client.pc with
    | .idle => some { s with client := { s.client with pc := .size maxSize } }
    | _ => none
  | .client => (t.receiveStep s.client).map fun client => { s with client := client }

end Answers

end Multiclient

end L5RDMA
