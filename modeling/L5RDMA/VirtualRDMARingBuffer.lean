/-
  The RDMA ring (`datastructures/VirtualRDMARingBuffer`), one direction of a
  connection: one end calls `send`, the other `receive`.

  Both rings are mapped twice, so that index `i` and `i + size` are the same
  byte.  A message is sent as its length, its bytes and the word `validity`.
  Steps of the system:

  * `send` fills the staging ring `sendBuf`, waits until the remote ring has
    room (`waitUntilSendFree`, with RDMA reads of the receiver's
    `localReadPos`), posts one write, and for every 4096th message waits for a
    completion;
  * the network card lets the bytes of the posted writes arrive front to
    back, in post order, and completes requests; a write that is not INLINE
    reads `sendBuf` when its bytes arrive;
  * `receive` polls length and trailer, each byte of the two words loaded at a
    time of its own, copies the payload out, zeroes the frame and publishes
    its `localReadPos`.
-/
import L5RDMA.Lib.Run
import L5RDMA.RDMANetworking

namespace L5RDMA

namespace VirtualRDMARingBuffer

open Verbs Channel
open Pos (lengthOf)

def validity : UInt64 := 0xDEADDEADBEEFBEEF

/-- Where the sender is in `send`; the numbers are the `sizeToWrite` of the call. -/
inductive SendPc where
  | idle
  /-- at the test of the loop of `waitUntilSendFree` -/
  | waitUntilSendFree (sizeToWrite : UInt64)
  /-- polling for the completion of the RDMA read -/
  | pollRead (sizeToWrite : UInt64)
  | post (sizeToWrite : UInt64)
  | waitForCompletion (pc : WaitPc) (sizeToWrite : UInt64)
  | advance (sizeToWrite : UInt64)

/-- One direction of a connection: `messageCounter` and `sendPos` are the sender's,
    `conn.readPos` is the receiver's `localReadPos`. -/
structure State where
  size : UInt64
  messageCounter : UInt64
  sendPos : UInt64
  conn : Conn
  sendPc : SendPc
  recvPc : RecvPc
  /-- the payloads that `send` has taken -/
  sent : List (List UInt8)
  /-- the payloads that `receive` has returned -/
  received : List (List UInt8)

namespace State
variable (s : State)

def bitmask : UInt64 := s.size - 1

/-- The doubly mapped ring. -/
def phys (i : ℕ) : ℕ := i % s.size.toNat

def startOfWrite : ℕ := (s.sendPos &&& s.bitmask).toNat

def startOfRead : ℕ := (s.conn.readPos &&& s.bitmask).toNat

end State

/-- A connection that has nothing in flight, all of whose counters stand at `pos`. -/
def start (size pos : UInt64) : State where
  size := size
  messageCounter := 0
  sendPos := pos
  conn :=
    { sendBuf := fun _ => 0, receiveBuf := fun _ => 0, readPos := pos, remoteReadPos := pos
      sq := [], cq := { entries := [], armed := true, events := 0 } }
  sendPc := .idle
  recvPc := .idle
  sent := []
  received := []

/-- A fresh connection. -/
def init (size : UInt64) : State := start size 0

/-! ## `send` -/

/-- Call `send(data, length)`: the bytes are staged, then the length is checked, then the
    length and `validity` are staged. -/
def send (s : State) (data : List UInt8) : State :=
  let dataSize := lengthOf data
  let sizeToWrite := 8 + dataSize + 8
  let buf := Mem.write s.phys s.conn.sendBuf (s.startOfWrite + 8) data
  if sizeToWrite > s.size then
    -- throws "data > buffersize!"
    { s with conn := { s.conn with sendBuf := buf } }
  else
    let buf := Mem.write s.phys buf s.startOfWrite (bytesOf dataSize)
    let buf := Mem.write s.phys buf (s.startOfWrite + 8 + dataSize.toNat) (bytesOf validity)
    { s with
      conn := { s.conn with sendBuf := buf }
      sendPc := .waitUntilSendFree sizeToWrite
      sent := s.sent ++ [data] }

/-- The write that `send` posts. -/
def writeRequest (s : State) (sizeToWrite : UInt64) : Write where
  localOff := s.startOfWrite
  remoteOff := s.startOfWrite
  length := sizeToWrite.toNat
  inlined :=
    if sizeToWrite ≤ maxInlineSize then
      some (Mem.read s.phys s.conn.sendBuf s.startOfWrite sizeToWrite.toNat)
    else none
  signaled := s.messageCounter % (4 * 1024) = 0
  id := 0

/-- The next step of `send`. -/
def sendStep (s : State) : Option State :=
  match s.sendPc with
  | .idle => none
  | .waitUntilSendFree sizeToWrite =>
    let safeToWrite := s.size - (s.sendPos - s.conn.remoteReadPos)
    if sizeToWrite > safeToWrite then
      some { s with
        conn := { s.conn with sq := s.conn.sq ++ [.read 42] }, sendPc := .pollRead sizeToWrite }
    else some { s with sendPc := .post sizeToWrite }
  | .pollRead sizeToWrite =>
    let (id, cq) := pollSendCompletionQueue s.conn.cq
    some { s with
      conn := { s.conn with cq := cq }
      sendPc := if id = 42 then .waitUntilSendFree sizeToWrite else .pollRead sizeToWrite }
  | .post sizeToWrite =>
    let wr := writeRequest s sizeToWrite
    some { s with
      conn := { s.conn with sq := s.conn.sq ++ [.write wr] }
      sendPc :=
        if wr.signaled then .waitForCompletion .getEvent sizeToWrite else .advance sizeToWrite }
  | .waitForCompletion pc sizeToWrite =>
    (waitForCompletion s.conn.cq pc).map fun (pc, cq) =>
      { s with
        conn := { s.conn with cq := cq }
        sendPc :=
          match pc with
          | some pc => .waitForCompletion pc sizeToWrite
          | none => .advance sizeToWrite }
  | .advance sizeToWrite =>
    some { s with
      messageCounter := s.messageCounter + 1, sendPos := s.sendPos + sizeToWrite, sendPc := .idle }

/-! ## `receive` -/

/-- Call `receive(whereTo, maxSize)`, or `receive(callback)` without a limit. -/
def receive (s : State) (maxSize : Option UInt64) : State :=
  match maxSize with
  | some maxSize =>
    -- throws "receiveSize > buffersize!"
    if 8 + maxSize + 8 > s.size then s else { s with recvPc := .size (some maxSize) .empty }
  | none => { s with recvPc := .size none .empty }

/-- The steps of `receive` after the polling loop. -/
def recvStep (s : State) : Option State :=
  match s.recvPc with
  | .found limit receiveSize =>
    if ∃ maxSize ∈ limit, receiveSize > maxSize then
      -- throws "plz only read whole messages for now!"
      some { s with recvPc := .idle }
    else
      let bytes := Mem.read s.phys s.conn.receiveBuf (s.startOfRead + 8) receiveSize.toNat
      some { s with recvPc := .clear bytes receiveSize }
  | .clear bytes receiveSize =>
    let zeros := List.replicate (8 + receiveSize + 8).toNat 0
    let buf := Mem.write s.phys s.conn.receiveBuf s.startOfRead zeros
    some { s with
      conn := { s.conn with receiveBuf := buf }, recvPc := .publish bytes receiveSize }
  | .publish bytes receiveSize =>
    some { s with
      conn := { s.conn with readPos := s.conn.readPos + (8 + receiveSize + 8) }
      recvPc := .idle, received := s.received ++ [bytes] }
  | _ => none

/-! ## The system -/

/-- The choices of the scheduler, the callers and the network card. -/
inductive Act where
  | send (data : List UInt8)
  /-- the sender takes its next step -/
  | sender
  | receive (maxSize : Option UInt64)
  /-- the polling receiver loads the bytes `is` of the word it is at -/
  | load (is : List ℕ)
  /-- the receiver takes its next step after the polling loop -/
  | receiver
  /-- the next `k` bytes of the oldest write arrive -/
  | land (k : ℕ)
  /-- the oldest request completes -/
  | complete

def step (s : State) : Act → Option State
  | .send data =>
    match s.sendPc with
    | .idle => some (send s data)
    | _ => none
  | .sender => sendStep s
  | .receive maxSize =>
    match s.recvPc with
    | .idle => some (receive s maxSize)
    | _ => none
  | .load is =>
    let byteAt off i := s.conn.receiveBuf (s.phys (s.startOfRead + off + i))
    (poll validity byteAt is s.recvPc).map fun pc => { s with recvPc := pc }
  | .receiver => recvStep s
  | .land k => (s.conn.land s.phys k).map fun conn => { s with conn := conn }
  | .complete => s.conn.complete.map fun conn => { s with conn := conn }

/-- The queued writes take their bytes along from `sendBuf`, as it is now. -/
def State.carry (s : State) : State :=
  { s with conn := { s.conn with sq := s.conn.sq.map (Request.carry s.phys s.conn.sendBuf) } }

/-- The system with a network card that reads a write's bytes when it is posted. -/
def stepCarrying (s : State) (a : Act) : Option State := (step s a).map State.carry

end VirtualRDMARingBuffer

end L5RDMA
