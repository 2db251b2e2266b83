/-
  `write`, `read` and `readSome` of the shared-memory transport
  (`SharedMemoryTransport`), one direction of a connection.

  `write` and `read` cut their buffer into chunks of at most `BUFFER_SIZE`,
  the size of the ring, and pass each to `send` or `receive` of the ring;
  `readSome` calls `receiveSome` once.  The steps are those of the ring.
-/
import L5RDMA.VirtualRingBuffer

namespace L5RDMA

namespace SharedMemory

/-- Where the reader is. -/
inductive ReadPc where
  | idle
  /-- in `read_impl(buffer, size)`; `buffer` is what the calls of the ring have returned -/
  | read (size i : UInt64) (buffer : List UInt8)
  /-- in `readSome_impl(buffer, maxSize)` -/
  | readSome (maxSize : UInt64)

/-- A call that has returned, with the bytes in its buffer. -/
inductive Returned where
  | read (size : UInt64) (buffer : List UInt8)
  | readSome (maxSize : UInt64) (buffer : List UInt8)

def Returned.buffer : Returned → List UInt8
  | .read _ buffer | .readSome _ buffer => buffer

structure State where
  ring : VirtualRingBuffer.State
  /-- in `write_impl`, the data from `i` on -/
  writing : Option (List UInt8)
  reading : ReadPc
  /-- the bytes passed to `write` so far -/
  written : List UInt8
  /-- the calls of `read` and `readSome` that have returned -/
  returned : List Returned

def init (bufferSize cachedRemoteRead : UInt64) : State where
  ring := VirtualRingBuffer.init bufferSize cachedRemoteRead
  writing := none
  reading := .idle
  written := []
  returned := []

/-- `BUFFER_SIZE`. -/
def State.bufferSize (s : State) : UInt64 := s.ring.size

/-- The next step of `write_impl`. -/
def writeImpl (s : State) : Option State :=
  match s.writing with
  | none => none
  | some data =>
    match s.ring.sendPc with
    | .idle =>
      if data = [] then some { s with writing := none }
      else
        let chunk := min data.length s.bufferSize.toNat
        (VirtualRingBuffer.step s.ring (.send (data.take chunk))).map fun ring =>
          { s with ring := ring, writing := some (data.drop chunk) }
    | _ => (VirtualRingBuffer.step s.ring .sender).map fun ring => { s with ring := ring }

/-- The next step of `read_impl`, or of `receiveSome` in `readSome_impl`. -/
def readImpl (s : State) : Option State :=
  match s.reading with
  | .idle => none
  | .read size i buffer =>
    let chunk := min (size - i) s.bufferSize
    match s.ring.recvPc with
    | .idle =>
      if i < size then
        (VirtualRingBuffer.step s.ring (.receive chunk)).map fun ring => { s with ring := ring }
      else some { s with reading := .idle, returned := s.returned ++ [.read size buffer] }
    | .publish bytes _ _ =>
      -- `receive` returns
      (VirtualRingBuffer.step s.ring .receiver).map fun ring =>
        { s with ring := ring, reading := .read size (i + chunk) (buffer ++ bytes) }
    | _ => (VirtualRingBuffer.step s.ring .receiver).map fun ring => { s with ring := ring }
  | .readSome maxSize =>
    match s.ring.recvPc with
    | .publish bytes _ _ =>
      (VirtualRingBuffer.step s.ring .receiver).map fun ring =>
        { s with
          ring := ring, reading := .idle, returned := s.returned ++ [.readSome maxSize bytes] }
    | _ => (VirtualRingBuffer.step s.ring .receiver).map fun ring => { s with ring := ring }

/-- Call `readSome_impl(buffer, maxSize)`. -/
def readSomeImpl (s : State) (maxSize : UInt64) : Option State :=
  (VirtualRingBuffer.step s.ring (.receiveSome (min maxSize s.bufferSize))).map fun ring =>
    { s with ring := ring, reading := .readSome maxSize }

end SharedMemory

namespace SharedMemoryTransportServer

def writeImpl : SharedMemory.State → Option SharedMemory.State := SharedMemory.writeImpl

def readImpl : SharedMemory.State → Option SharedMemory.State := SharedMemory.readImpl

def readSomeImpl : SharedMemory.State → UInt64 → Option SharedMemory.State :=
  SharedMemory.readSomeImpl

end SharedMemoryTransportServer

namespace SharedMemoryTransportClient

def writeImpl : SharedMemory.State → Option SharedMemory.State := SharedMemory.writeImpl

def readImpl : SharedMemory.State → Option SharedMemory.State := SharedMemory.readImpl

def readSomeImpl : SharedMemory.State → UInt64 → Option SharedMemory.State :=
  SharedMemory.readSomeImpl

end SharedMemoryTransportClient

namespace SharedMemory

/-- The end that writes; the other one reads. -/
inductive Writer where
  | server
  | client

namespace Writer

def writeImpl : Writer → State → Option State
  | server => SharedMemoryTransportServer.writeImpl
  | client => SharedMemoryTransportClient.writeImpl

def readImpl : Writer → State → Option State
  | server => SharedMemoryTransportClient.readImpl
  | client => SharedMemoryTransportServer.readImpl

def readSomeImpl : Writer → State → UInt64 → Option State
  | server => SharedMemoryTransportClient.readSomeImpl
  | client => SharedMemoryTransportServer.readSomeImpl

end Writer

/-- The choices of the scheduler and of the callers. -/
inductive Act where
  | write (data : List UInt8)
  /-- the writer takes its next step -/
  | writer
  | read (size : UInt64)
  | readSome (maxSize : UInt64)
  /-- the reader takes its next step -/
  | reader

def step (w : Writer) (s : State) : Act → Option State
  | .write data =>
    match s.writing with
    | none => some { s with writing := some data, written := s.written ++ data }
    | some _ => none
  | .writer => w.writeImpl s
  | .read size =>
    match s.reading with
    | .idle => some { s with reading := .read size 0 [] }
    | _ => none
  | .readSome maxSize =>
    match s.reading with
    | .idle => w.readSomeImpl s maxSize
    | _ => none
  | .reader => w.readImpl s

end SharedMemory

end L5RDMA
