/-
  The RDMA message buffer (`datastructures/RDMAMessageBuffer`), one direction of
  a connection: one end calls `send`, the other `receive`.

  The rings are plain arrays.  A frame that does not fit before the end of the
  ring goes on at its start, and all accesses are cut there by `wraparound`.
  Steps of the system:

  * `send` puts length, bytes and `validity` into `sendBuffer` with one
    `writeToSendBuffer` each, which waits until the remote ring has room; then
    it posts the frame as one or two writes, and for every 4096th write waits
    for a completion;
  * the network card lets the bytes of the posted writes arrive front to
    back, in post order, and completes requests; a write that is not INLINE
    reads `sendBuffer` when its bytes arrive;
  * `receive` polls length and trailer byte by byte, copies the payload out,
    zeroes the frame and moves its `readPos`.
-/
import L5RDMA.Lib.Card
import L5RDMA.RDMANetworking

namespace L5RDMA

namespace RDMAMessageBuffer

open Verbs Channel
open Pos (lengthOf)

def validity : UInt64 := 0xDEADDEADBEEFBEEF

/-! ## Accesses to a ring -/

/-- The arguments of one call that `wraparound` makes. -/
structure Part where
  prevBytes : UInt64
  beginPos : UInt64
  endPos : UInt64

def Part.length (c : Part) : ℕ := (c.endPos - c.beginPos).toNat

/-- The one or two calls for the `todoSize` bytes from `pos` on. -/
def wraparound (totalSize todoSize pos : UInt64) : List Part :=
  let beginPos := pos &&& (totalSize - 1)
  if totalSize - beginPos ≥ todoSize then [⟨0, beginPos, beginPos + todoSize⟩]
  else
    let fst := beginPos
    let fstToRead := totalSize - beginPos
    let snd := 0
    let sndToRead := todoSize - fstToRead
    [⟨0, fst, fst + fstToRead⟩, ⟨fstToRead, snd, snd + sndToRead⟩]

/-- Copy `slice c` to the cells of each part `c`. -/
def writeParts (m : Mem) (slice : Part → List UInt8) : List Part → Mem
  | [] => m
  | c :: parts => writeParts (Mem.write id m c.beginPos.toNat (slice c)) slice parts

/-- The bytes in the cells of the parts. -/
def readParts (m : Mem) (parts : List Part) : List UInt8 :=
  parts.flatMap fun c => Mem.read id m c.beginPos.toNat c.length

/-- Copy the bytes of each part to `whereTo + prevBytes`. -/
def copyParts (m : Mem) (whereTo : ℕ) (dst : Mem) : List Part → Mem
  | [] => dst
  | c :: parts =>
    let bytes := Mem.read id m c.beginPos.toNat c.length
    copyParts m whereTo (Mem.write id dst (whereTo + c.prevBytes.toNat) bytes) parts

/-- Where the sender is in `send`. -/
inductive SendPc where
  | idle
  /-- at the test of the loop of `writeToSendBuffer(data)`, with more to write `later` -/
  | writeToSendBuffer (inln : Bool) (startOfWrite sizeToWrite : UInt64) (data : List UInt8)
      (later : List (List UInt8))
  /-- polling for the completion of the RDMA read -/
  | pollRead (inln : Bool) (startOfWrite sizeToWrite : UInt64) (data : List UInt8)
      (later : List (List UInt8))
  /-- about to post the first of these parts of the frame -/
  | post (inln : Bool) (parts : List Part)
  | waitForCompletion (pc : WaitPc) (inln : Bool) (parts : List Part)

/-- One direction of a connection: `messageCounter` and `sendPos` are the sender's,
    `conn.readPos` is the receiver's `readPos` and `conn.remoteReadPos` the sender's
    `currentRemoteReceive`. -/
structure State where
  size : UInt64
  messageCounter : UInt64
  sendPos : UInt64
  conn : Conn
  sendPc : SendPc
  recvPc : RecvPc
  /-- the payloads that `send` has taken -/
  sent : List (List UInt8)
  /-- the payloads that `receive` has returned -/
  received : List (List UInt8)

/-- A connection that has nothing in flight, all of whose counters stand at `pos`. -/
def start (size pos : UInt64) : State where
  size := size
  messageCounter := 0
  sendPos := pos
  conn :=
    { sendBuf := fun _ => 0, receiveBuf := fun _ => 0, readPos := pos, remoteReadPos := pos
      sq := [], cq := { entries := [], armed := true, events := 0 } }
  sendPc := .idle
  recvPc := .idle
  sent := []
  received := []

/-! ## `send` -/

/-- Call `send(data, length, inln)`. -/
def send (s : State) (data : List UInt8) (inln : Bool) : State :=
  let length := lengthOf data
  let sizeToWrite := 8 + length + 8
  -- throws "data > buffersize!"
  if sizeToWrite > s.size then s
  else
    { s with
      sendPc :=
        .writeToSendBuffer inln s.sendPos sizeToWrite (bytesOf length) [data, bytesOf validity]
      sent := s.sent ++ [data] }

/-- The copy of `writeToSendBuffer`, once there is room. -/
def writeToSendBuffer (s : State) (data : List UInt8) : Mem :=
  writeParts s.conn.sendBuf (fun c => (data.drop c.prevBytes.toNat).take c.length)
    (wraparound s.size (lengthOf data) s.sendPos)

/-- The write that `send` posts for a part of the frame. -/
def writeRequest (s : State) (inln : Bool) (c : Part) : Write where
  localOff := c.beginPos.toNat
  remoteOff := c.beginPos.toNat
  length := c.length
  inlined :=
    if inln = true ∧ c.endPos - c.beginPos ≤ maxInlineSize then
      some (Mem.read id s.conn.sendBuf c.beginPos.toNat c.length)
    else none
  signaled := s.messageCounter % (4 * 1024) = 0
  id := 0

/-- After a part is posted. -/
def nextPart (inln : Bool) : List Part → SendPc
  | [] => .idle
  | parts => .post inln parts

/-- The next step of `send`. -/
def sendStep (s : State) : Option State :=
  match s.sendPc with
  | .idle => none
  | .writeToSendBuffer inln startOfWrite sizeToWrite data later =>
    let safeToWrite := s.size - (s.sendPos - s.conn.remoteReadPos)
    if lengthOf data > safeToWrite then
      some { s with
        conn := { s.conn with sq := s.conn.sq ++ [.read 42] }
        sendPc := .pollRead inln startOfWrite sizeToWrite data later }
    else
      some { s with
        conn := { s.conn with sendBuf := writeToSendBuffer s data }
        sendPos := s.sendPos + lengthOf data
        sendPc :=
          match later with
          | data :: later => .writeToSendBuffer inln startOfWrite sizeToWrite data later
          | [] => .post inln (wraparound s.size sizeToWrite startOfWrite) }
  | .pollRead inln startOfWrite sizeToWrite data later =>
    let (id, cq) := pollSendCompletionQueue s.conn.cq
    some { s with
      conn := { s.conn with cq := cq }
      sendPc :=
        if id = 42 then .writeToSendBuffer inln startOfWrite sizeToWrite data later
        else .pollRead inln startOfWrite sizeToWrite data later }
  | .post _ [] => none
  | .post inln (c :: parts) =>
    let wr := writeRequest s inln c
    let conn := { s.conn with sq := s.conn.sq ++ [.write wr] }
    if wr.signaled then
      some { s with conn := conn, sendPc := .waitForCompletion .getEvent inln parts }
    else
      some { s with
        conn := conn, messageCounter := s.messageCounter + 1, sendPc := nextPart inln parts }
  | .waitForCompletion pc inln parts =>
    (waitForCompletion s.conn.cq pc).map fun (pc, cq) =>
      let conn := { s.conn with cq := cq }
      match pc with
      | some pc => { s with conn := conn, sendPc := .waitForCompletion pc inln parts }
      | none =>
        { s with
          conn := conn, messageCounter := s.messageCounter + 1, sendPc := nextPart inln parts }

/-! ## `receive` -/

def readFromReceiveBuffer (s : State) (readPos sizeToRead : UInt64) : List UInt8 :=
  readParts s.conn.receiveBuf (wraparound s.size sizeToRead readPos)

def zeroReceiveBuffer (s : State) (beginReceiveCount sizeToZero : UInt64) : Mem :=
  writeParts s.conn.receiveBuf (fun c => List.replicate c.length 0)
    (wraparound s.size sizeToZero beginReceiveCount)

/-- The steps of `receive` after the polling loop. -/
def recvStep (s : State) : Option State :=
  match s.recvPc with
  | .found limit receiveSize =>
    if ∃ maxSize ∈ limit, receiveSize > maxSize then
      -- throws "plz only read whole messages for now!"
      some { s with recvPc := .idle }
    else
      let result := readFromReceiveBuffer s (s.conn.readPos + 8) receiveSize
      some { s with recvPc := .clear result receiveSize }
  | .clear result receiveSize =>
    let buf := zeroReceiveBuffer s s.conn.readPos (8 + receiveSize + 8)
    some { s with
      conn := { s.conn with receiveBuf := buf }, recvPc := .publish result receiveSize }
  | .publish result receiveSize =>
    some { s with
      conn := { s.conn with readPos := s.conn.readPos + (8 + receiveSize + 8) }
      recvPc := .idle, received := s.received ++ [result] }
  | _ => none

/-! ## `hasData` -/

def hasData (s : State) : Bool :=
  let receiveSize := UInt64.ofNat (Bytes.ofLE (readFromReceiveBuffer s s.conn.readPos 8))
  let receiveValidity := UInt64.ofNat
    (Bytes.ofLE (readFromReceiveBuffer s (s.conn.readPos + 8 + receiveSize) 8))
  receiveValidity = validity

/-! ## The system -/

/-- The choices of the scheduler, the callers and the network card. -/
inductive Act where
  | send (data : List UInt8) (inln : Bool)
  /-- the sender takes its next step -/
  | sender
  /-- call `receive(whereTo, maxSize)`, or `receive()` without a limit -/
  | receive (maxSize : Option UInt64)
  /-- the polling receiver reads the bytes `is` of the word it is at -/
  | load (is : List ℕ)
  /-- the receiver takes its next step after the polling loop -/
  | receiver
  /-- the next `k` bytes of the oldest write arrive -/
  | land (k : ℕ)
  /-- the oldest request completes -/
  | complete

def step (s : State) : Act → Option State
  | .send data inln =>
    match s.sendPc with
    | .idle => some (send s data inln)
    | _ => none
  | .sender => sendStep s
  | .receive maxSize =>
    match s.recvPc with
    | .idle => some { s with recvPc := .size maxSize .empty }
    | _ => none
  | .load is =>
    let byteAt off i := (readFromReceiveBuffer s (s.conn.readPos + UInt64.ofNat off) 8).getD i 0
    (poll validity byteAt is s.recvPc).map fun pc => { s with recvPc := pc }
  | .receiver => recvStep s
  | .land k => (s.conn.land id k).map fun conn => { s with conn := conn }
  | .complete => s.conn.complete.map fun conn => { s with conn := conn }

/-- The queued writes take their bytes along from `sendBuffer`, as it is now. -/
def State.carry (s : State) : State := { s with conn := s.conn.carry id }

/-- The system with a network card that reads a write's bytes when it is posted. -/
def stepCarrying (s : State) (a : Act) : Option State := (step s a).map State.carry

end RDMAMessageBuffer

end L5RDMA
