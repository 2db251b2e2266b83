/-
  The RDMA ring with `sendParanoid`, which does not rely on the order in which
  the bytes of a write arrive: the payload and `validity` are one write, and
  the length, which makes them visible, is another.

  `receive` and everything about the ring's memories and queues is that of
  `VirtualRDMARingBuffer`.  The bytes of a write arrive in any order, and a write
  begins to arrive when those before it have arrived completely (RFC 5040).
  A posted write has the bytes with it that `sendBuf` held at the post.
-/
import L5RDMA.Lib.PlacedChannel
import L5RDMA.VirtualRDMARingBuffer

namespace L5RDMA

namespace VirtualRDMARingBuffer

namespace Paranoid

open Verbs
open Pos (lengthOf)

/-- Where the sender is in `sendParanoid`; the numbers are the `dataSizeToWrite` of the
    call. -/
inductive SendPc where
  | idle
  /-- at the test of the loop of `waitUntilSendFree` -/
  | waitUntilSendFree (dataSizeToWrite : UInt64)
  /-- polling for the completion of the RDMA read -/
  | pollRead (dataSizeToWrite : UInt64)
  | postData (dataSizeToWrite : UInt64)
  | postSize (dataSizeToWrite : UInt64)
  | waitForCompletion (pc : WaitPc) (dataSizeToWrite : UInt64)
  | advance (dataSizeToWrite : UInt64)

/-- One direction of a connection, whose sender is never in `send`. -/
structure State where
  ring : VirtualRDMARingBuffer.State
  sendPc : SendPc
  /-- the offsets that have arrived of the write in progress -/
  placed : List ℕ

/-- A connection that has nothing in flight, all of whose counters stand at `pos`. -/
def start (size pos : UInt64) : State where
  ring := VirtualRDMARingBuffer.start size pos
  sendPc := .idle
  placed := []

/-! ## `sendParanoid` -/

/-- Call `sendParanoid` with a caller that fills in `data`. -/
def sendParanoid (s : State) (data : List UInt8) : State :=
  let r := s.ring
  let dataSize := lengthOf data
  let sizeSize : UInt64 := 8
  let dataSizeToWrite := dataSize + 8
  let buf := Mem.write r.phys r.conn.sendBuf (r.startOfWrite + 8) data
  if sizeSize + dataSizeToWrite > r.size then
    -- throws "data > buffersize!"
    { s with ring := { r with conn := { r.conn with sendBuf := buf } } }
  else
    let buf := Mem.write r.phys buf r.startOfWrite (bytesOf dataSize)
    let buf := Mem.write r.phys buf (r.startOfWrite + 8 + dataSize.toNat) (bytesOf validity)
    { s with
      ring := { r with conn := { r.conn with sendBuf := buf }, sent := r.sent ++ [data] }
      sendPc := .waitUntilSendFree dataSizeToWrite }

/-- The first write, of the payload and `validity`. -/
def dataRequest (r : VirtualRDMARingBuffer.State) (dataSizeToWrite : UInt64) : Write where
  localOff := r.startOfWrite + 8
  remoteOff := r.startOfWrite + 8
  length := dataSizeToWrite.toNat
  inlined :=
    if dataSizeToWrite ≤ maxInlineSize then
      some (Mem.read r.phys r.conn.sendBuf (r.startOfWrite + 8) dataSizeToWrite.toNat)
    else none
  signaled := false
  id := 0

/-- The second write, of the length. -/
def sizeRequest (r : VirtualRDMARingBuffer.State) : Write where
  localOff := r.startOfWrite
  remoteOff := r.startOfWrite
  length := 8
  inlined := some (Mem.read r.phys r.conn.sendBuf r.startOfWrite 8)
  signaled := r.messageCounter % (4 * 1024) = 0
  id := 0

/-- Post a write, which takes its bytes along. -/
def post (r : VirtualRDMARingBuffer.State) (wr : Write) : VirtualRDMARingBuffer.State :=
  let wr := wr.carry r.phys r.conn.sendBuf
  { r with conn := { r.conn with sq := r.conn.sq ++ [.write wr] } }

/-- The next step of `sendParanoid`. -/
def sendStep (s : State) : Option State :=
  let r := s.ring
  match s.sendPc with
  | .idle => none
  | .waitUntilSendFree dataSizeToWrite =>
    let safeToWrite := r.size - (r.sendPos - r.conn.remoteReadPos)
    if 8 + dataSizeToWrite > safeToWrite then
      some { s with
        ring := { r with conn := { r.conn with sq := r.conn.sq ++ [.read 42] } }
        sendPc := .pollRead dataSizeToWrite }
    else some { s with sendPc := .postData dataSizeToWrite }
  | .pollRead dataSizeToWrite =>
    let (id, cq) := pollSendCompletionQueue r.conn.cq
    some { s with
      ring := { r with conn := { r.conn with cq := cq } }
      sendPc := if id = 42 then .waitUntilSendFree dataSizeToWrite else .pollRead dataSizeToWrite }
  | .postData dataSizeToWrite =>
    some { s with
      ring := post r (dataRequest r dataSizeToWrite), sendPc := .postSize dataSizeToWrite }
  | .postSize dataSizeToWrite =>
    let wr := sizeRequest r
    some { s with
      ring := post r wr
      sendPc :=
        if wr.signaled then .waitForCompletion .getEvent dataSizeToWrite
        else .advance dataSizeToWrite }
  | .waitForCompletion pc dataSizeToWrite =>
    (waitForCompletion r.conn.cq pc).map fun (pc, cq) =>
      { s with
        ring := { r with conn := { r.conn with cq := cq } }
        sendPc :=
          match pc with
          | some pc => .waitForCompletion pc dataSizeToWrite
          | none => .advance dataSizeToWrite }
  | .advance dataSizeToWrite =>
    some { s with
      ring :=
        { r with
          messageCounter := r.messageCounter + 1, sendPos := r.sendPos + (8 + dataSizeToWrite) }
      sendPc := .idle }

/-! ## The system -/

/-- The choices of the scheduler, the callers and the network card. -/
inductive Act where
  | sendParanoid (data : List UInt8)
  /-- the sender takes its next step -/
  | sender
  | receive (maxSize : Option UInt64)
  /-- the polling receiver loads the bytes `is` of the word it is at -/
  | load (is : List ℕ)
  /-- the receiver takes its next step after the polling loop -/
  | receiver
  /-- byte `i` of the write in progress arrives -/
  | place (i : ℕ)
  /-- the oldest request completes -/
  | complete

def step (s : State) : Act → Option State
  | .sendParanoid data =>
    match s.sendPc with
    | .idle => some (sendParanoid s data)
    | _ => none
  | .sender => sendStep s
  | .place i =>
    (Placement.land s.ring.phys s.ring.conn s.placed i).map fun (conn, placed) =>
      { s with ring := { s.ring with conn := conn }, placed := placed }
  -- as without `sendParanoid`
  | .receive maxSize => (VirtualRDMARingBuffer.step s.ring (.receive maxSize)).map fun ring =>
      { s with ring := ring }
  | .load is => (VirtualRDMARingBuffer.step s.ring (.load is)).map fun ring =>
      { s with ring := ring }
  | .receiver => (VirtualRDMARingBuffer.step s.ring .receiver).map fun ring =>
      { s with ring := ring }
  | .complete => (VirtualRDMARingBuffer.step s.ring .complete).map fun ring =>
      { s with ring := ring }

end Paranoid

end VirtualRDMARingBuffer

end L5RDMA
