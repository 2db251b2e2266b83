/-
  The RDMA transport over its ring (`RdmaTransport` and `VirtualRDMARingBuffer`),
  one direction of a connection, step by step.

  `write`, `read` and `readSome` of `RdmaTransport` call `send` and `receive` of
  the ring once for each chunk.  The steps are those of the ring; one of them
  makes a call, or throws.

  `Ask.perform` says what a call of the reader does if the ring is nothing but
  a list of messages.
-/
import L5RDMA.RdmaTransport
import L5RDMA.VirtualRDMARingBuffer

namespace L5RDMA

namespace Rdma

namespace Connection

/-! ## The calls over a list of messages -/

/-- A call of the reader. -/
inductive Ask where
  | read (size : UInt64)
  | readSome (maxSize : UInt64)
deriving DecidableEq

/-- How a call of the reader has ended. -/
inductive Outcome where
  | read (buffer : Buffer)
  /-- with the bytes that are in the buffer -/
  | readSome (bytes : List UInt8)
  | threw
deriving DecidableEq

/-- One message for each chunk.  Without a buffer it has thrown; a message that is too long
    stays. -/
def takeChunks : List ℕ → Ring → Option (Option Buffer × Ring)
  | [], ring => some (some [], ring)
  | _ :: _, [] => none
  | chunk :: chunks, msg :: ring =>
    if msg.length > chunk then some (none, msg :: ring)
    else (takeChunks chunks ring).map fun (buffer, ring) =>
      (buffer.map (msg.map some ++ List.replicate (chunk - msg.length) none ++ ·), ring)

/-- What a call does, if it does not block. -/
def Ask.perform (bufferSize : ℕ) : Ask → Ring → Option (Outcome × Ring)
  | .read size, ring =>
    (takeChunks (chunks bufferSize size.toNat) ring).map fun (buffer, ring) =>
      (buffer.elim .threw .read, ring)
  | .readSome maxSize, ring =>
    if min maxSize.toNat bufferSize + 16 > bufferSize then some (.threw, ring)
    else
      match ring with
      | [] => none
      | msg :: ring =>
        if msg.length > min maxSize.toNat bufferSize then some (.threw, msg :: ring)
        else some (.readSome msg, ring)

/-- The outcomes of the calls up to one that blocks. -/
def outcomes (bufferSize : ℕ) : List Ask → Ring → List Outcome
  | [], _ => []
  | ask :: asks, ring =>
    match ask.perform bufferSize ring with
    | none => []
    | some (outcome, ring) => outcome :: outcomes bufferSize asks ring

/-! ## The calls over the ring -/

/-- Where the reader is. -/
inductive ReadPc where
  | idle
  /-- in `read_impl(buffer, size)`; `cells` are those before `i` -/
  | read (size i : UInt64) (cells : Buffer)
  /-- in `readSome_impl(buffer, maxSize)` -/
  | readSome (maxSize : UInt64)

structure State where
  ring : VirtualRDMARingBuffer.State
  /-- in `write_impl`, the data from `i` on -/
  writing : Option (List UInt8)
  reading : ReadPc
  /-- what has been passed to `write` so far -/
  written : List (List UInt8)
  writeThrew : Bool
  /-- the calls of the reader so far -/
  asked : List Ask
  ended : List Outcome

def init (bufferSize : UInt64) : State where
  ring := VirtualRDMARingBuffer.init bufferSize
  writing := none
  reading := .idle
  written := []
  writeThrew := false
  asked := []
  ended := []

/-- `BUFFER_SIZE`. -/
def State.bufferSize (s : State) : UInt64 := s.ring.size

/-- A call of the reader ends. -/
def State.ends (s : State) (outcome : Outcome) : State :=
  { s with reading := .idle, ended := s.ended ++ [outcome] }

/-- The next step of `write_impl`. -/
def writeImpl (s : State) : Option State :=
  match s.writing with
  | none => none
  | some data =>
    match s.ring.sendPc with
    | .idle =>
      if data = [] then some { s with writing := none }
      else
        let chunk := min data.length (s.bufferSize - 2 * 8).toNat
        (VirtualRDMARingBuffer.step s.ring (.send (data.take chunk))).map fun ring =>
          match ring.sendPc with
          -- `send` throws
          | .idle => { s with ring := ring, writing := none, writeThrew := true }
          | _ => { s with ring := ring, writing := some (data.drop chunk) }
    | _ => (VirtualRDMARingBuffer.step s.ring .sender).map fun ring => { s with ring := ring }

/-- Call `receive(whereTo, maxSize)` of the ring. -/
def receive (s : State) (maxSize : UInt64) : Option State :=
  (VirtualRDMARingBuffer.step s.ring (.receive (some maxSize))).map fun ring =>
    match ring.recvPc with
    -- `receive` throws
    | .idle => { s with ring := ring }.ends .threw
    | _ => { s with ring := ring }

/-- The next step of `receive` behind its polling loop, if that does not return. -/
def receiving (s : State) : Option State :=
  (VirtualRDMARingBuffer.step s.ring .receiver).map fun ring =>
    match ring.recvPc with
    -- `receive` throws
    | .idle => { s with ring := ring }.ends .threw
    | _ => { s with ring := ring }

/-- The next step of `read_impl`, or of `receive` in `readSome_impl`. -/
def readImpl (s : State) : Option State :=
  match s.reading with
  | .idle => none
  | .read size i cells =>
    let chunk := min (size - i) (s.bufferSize - 2 * 8)
    match s.ring.recvPc with
    | .idle => if i < size then receive s chunk else some (s.ends (.read cells))
    | .publish bytes _ =>
      -- `receive` returns
      (VirtualRDMARingBuffer.step s.ring .receiver).map fun ring =>
        let gap := List.replicate (chunk.toNat - bytes.length) none
        { s with
          ring := ring
          reading := .read size (i + chunk) (cells ++ (bytes.map some ++ gap)) }
    | _ => receiving s
  | .readSome _ =>
    match s.ring.recvPc with
    | .publish bytes _ =>
      (VirtualRDMARingBuffer.step s.ring .receiver).map fun ring =>
        { s with ring := ring }.ends (.readSome bytes)
    | _ => receiving s

/-- Call `readSome_impl(buffer, maxSize)`. -/
def readSomeImpl (s : State) (maxSize : UInt64) : Option State :=
  receive { s with reading := .readSome maxSize, asked := s.asked ++ [.readSome maxSize] }
    (min maxSize s.bufferSize)

/-- The choices of the scheduler, the callers and the network card. -/
inductive Act where
  | write (data : List UInt8)
  /-- the writer takes its next step -/
  | writer
  | read (size : UInt64)
  | readSome (maxSize : UInt64)
  /-- the polling reader loads the bytes `is` of the word it is at -/
  | load (is : List ℕ)
  /-- the reader takes its next step outside the polling loop -/
  | reader
  /-- the next `k` bytes of the oldest write arrive -/
  | land (k : ℕ)
  /-- the oldest request completes -/
  | complete

/-- The ring does something that is not for `write_impl` or `read_impl`. -/
def ringStep (s : State) (a : VirtualRDMARingBuffer.Act) : Option State :=
  (VirtualRDMARingBuffer.step s.ring a).map fun ring => { s with ring := ring }

/-- The server's functions and the client's are the same. -/
def step (s : State) : Act → Option State
  | .write data =>
    match s.writing with
    | none => some { s with writing := some data, written := s.written ++ [data] }
    | some _ => none
  | .writer => writeImpl s
  | .read size =>
    match s.reading with
    | .idle => some { s with reading := .read size 0 [], asked := s.asked ++ [.read size] }
    | _ => none
  | .readSome maxSize =>
    match s.reading with
    | .idle => readSomeImpl s maxSize
    | _ => none
  | .load is => ringStep s (.load is)
  | .reader => readImpl s
  | .land k => ringStep s (.land k)
  | .complete => ringStep s .complete

end Connection

end Rdma

end L5RDMA
