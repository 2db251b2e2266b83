/-
  The shared-memory ring (`datastructures/VirtualRingBuffer`), one direction
  of a connection: one end calls `send`, the other `receive` and
  `receiveSome`.

  Both ends map the ring of `size` bytes twice, so that index `i` and
  `i + size` are the same byte, and each publishes its progress in a
  `RingBufferInfo`: the sender `written`, the receiver `read`.  Calls are cut
  at their accesses to shared memory: the load of the own counter, the test
  of `cachedRemoteRead`, each load of the peer's counter in a waiting loop,
  the copy, and the store that publishes.
-/
import L5RDMA.Lib.Run
import L5RDMA.Lib.Bytes

namespace L5RDMA

namespace VirtualRingBuffer

open Pos (lengthOf)

/-- The counters an end publishes. -/
structure RingBufferInfo where
  read : UInt64
  written : UInt64

/-- One end of the connection.  Its `local` ring is the `remote` ring of the
    other end. -/
structure End where
  localRw : RingBufferInfo
  localBuf : Mem
  cachedRemoteRead : UInt64

/-- Where the sender is in `send(data, length)`. -/
inductive SendPc where
  | idle
  /-- `written` is loaded; next the test of `cachedRemoteRead` -/
  | check (data : List UInt8) (localWritten : UInt64)
  /-- in the loop of `waitUntilSendFree` -/
  | wait (data : List UInt8) (localWritten : UInt64)
  /-- `waitUntilSendFree` has returned -/
  | copy (data : List UInt8) (localWritten : UInt64)
  | publish (data : List UInt8) (localWritten : UInt64)

/-- Where the receiver is in `receive` or `receiveSome` (`some`). -/
inductive RecvPc where
  | idle
  /-- in `waitUntilReceiveAvailable` -/
  | wait (some : Bool) (maxSize localRead : UInt64)
  /-- `receiveSome` before its second load of `written` -/
  | load (maxSize localRead : UInt64)
  | copy (size localRead : UInt64)
  | publish (bytes : List UInt8) (size localRead : UInt64)

structure State where
  size : UInt64
  sender : End
  receiver : End
  sendPc : SendPc
  recvPc : RecvPc
  /-- the bytes passed to `send` so far -/
  input : List UInt8
  /-- the bytes returned by `receive` and `receiveSome` so far -/
  output : List UInt8

namespace State
variable (s : State)

def bitmask : UInt64 := s.size - 1

/-- The doubly mapped ring. -/
def phys (i : ℕ) : ℕ := i % s.size.toNat

/-- The bytes written and not yet read, as the counters say. -/
def used : UInt64 := s.sender.localRw.written - s.receiver.localRw.read

end State

/-- A fresh connection: `malloc_shared` zeroes the counters and `mmapRingBuffer`
    the ring; the constructor leaves `cachedRemoteRead` as it finds it. -/
def init (size cachedRemoteRead : UInt64) : State where
  size := size
  sender := ⟨⟨0, 0⟩, fun _ => 0, cachedRemoteRead⟩
  receiver := ⟨⟨0, 0⟩, fun _ => 0, 0⟩
  sendPc := .idle
  recvPc := .idle
  input := []
  output := []

/-- The test of `waitUntilSendFree`, before and inside its loop. -/
def State.full (s : State) (localWritten cachedRemoteRead length : UInt64) : Bool :=
  localWritten - cachedRemoteRead > s.size - length

/-- The next step of `send`. -/
def sendStep (s : State) : Option State :=
  match s.sendPc with
  | .idle => none
  | .check data localWritten =>
    -- the early return of `waitUntilSendFree`
    if s.full localWritten s.sender.cachedRemoteRead (lengthOf data) then
      some { s with sendPc := .copy data localWritten }
    else some { s with sendPc := .wait data localWritten }
  | .wait data localWritten =>
    let read := s.receiver.localRw.read
    let s' := { s with sender := { s.sender with cachedRemoteRead := read } }
    if s.full localWritten read (lengthOf data) then some s'
    else some { s' with sendPc := .copy data localWritten }
  | .copy data localWritten =>
    let pos := (localWritten &&& s.bitmask).toNat
    let buf := Mem.write s.phys s.sender.localBuf pos data
    some { s with
      sender := { s.sender with localBuf := buf }, sendPc := .publish data localWritten }
  | .publish data localWritten =>
    let rw := { s.sender.localRw with written := localWritten + lengthOf data }
    some { s with sender := { s.sender with localRw := rw }, sendPc := .idle }

/-- The next step of `receive` or `receiveSome`. -/
def recvStep (s : State) : Option State :=
  match s.recvPc with
  | .idle => none
  | .wait some? maxSize localRead =>
    -- `receiveSome` waits for one byte, `receive` for all of them
    let atLeast := if some? then 1 else maxSize
    if s.sender.localRw.written - localRead < atLeast then some s
    else if some? then some { s with recvPc := .load maxSize localRead }
    else some { s with recvPc := .copy maxSize localRead }
  | .load maxSize localRead =>
    some { s with recvPc := .copy (min (s.sender.localRw.written - localRead) maxSize) localRead }
  | .copy size localRead =>
    let pos := (localRead &&& s.bitmask).toNat
    let bytes := Mem.read s.phys s.sender.localBuf pos size.toNat
    some { s with recvPc := .publish bytes size localRead }
  | .publish bytes size localRead =>
    let rw := { s.receiver.localRw with read := localRead + size }
    some { s with
      receiver := { s.receiver with localRw := rw }, recvPc := .idle, output := s.output ++ bytes }

/-- The choices of the scheduler and of the callers. -/
inductive Act where
  /-- call `send`; `write_impl` cuts its data into chunks of at most `size` bytes -/
  | send (data : List UInt8)
  /-- the sender takes its next step -/
  | sender
  | receive (maxSize : UInt64)
  | receiveSome (maxSize : UInt64)
  /-- the receiver takes its next step -/
  | receiver

def step (s : State) : Act → Option State
  | .send data =>
    match s.sendPc with
    | .idle =>
      if data.length ≤ s.size.toNat then
        some { s with
          sendPc := .check data s.sender.localRw.written, input := s.input ++ data }
      else none
    | _ => none
  | .sender => sendStep s
  | .receive maxSize =>
    match s.recvPc with
    | .idle => some { s with recvPc := .wait false maxSize s.receiver.localRw.read }
    | _ => none
  | .receiveSome maxSize =>
    match s.recvPc with
    | .idle => some { s with recvPc := .wait true maxSize s.receiver.localRw.read }
    | _ => none
  | .receiver => recvStep s

end VirtualRingBuffer

end L5RDMA
