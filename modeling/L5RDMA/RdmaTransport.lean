/-
  `write`, `read` and `readSome` of the RDMA transport (`RdmaTransport`), over a
  ring that delivers messages in order.

  `write` and `read` cut their buffer into chunks that fit a message of the
  ring.  `write` sends one message for each; `read` receives one message for
  each, and goes on to the next chunk whatever the length of the message was.
  `readSome` receives one message, into a chunk that may be as long as the ring.
-/
import Mathlib.Data.List.SplitLengths

namespace L5RDMA

namespace Rdma

/-- Why a `read` does not return. -/
inductive ReadError where
  /-- "receiveSize > buffersize!" -/
  | tooLarge
  /-- "plz only read whole messages for now!" -/
  | wholeMessages
  /-- there is no message to wait for -/
  | blocks
deriving DecidableEq

/-- The cells of a buffer that a call has written to. -/
abbrev Buffer := List (Option UInt8)

/-- The messages in the ring, oldest first. -/
abbrev Ring := List (List UInt8)

/-- `rdma->receive(whereTo, maxSize)`: the cells from `whereTo` on that belong to the call,
    and the messages that are left. -/
def receive (bufferSize maxSize : ℕ) (ring : Ring) : Except ReadError (Buffer × Ring) :=
  if 8 + maxSize + 8 > bufferSize then .error .tooLarge
  else
    match ring with
    | [] => .error .blocks
    | msg :: ring =>
      if msg.length > maxSize then .error .wholeMessages
      else .ok (msg.map some ++ List.replicate (maxSize - msg.length) none, ring)

/-- The values of `chunk` in `for (size_t i = 0; i < size;)` with
    `chunk = min(size - i, limit)` and `i += chunk`; `rest` is `size - i`. -/
def loop (limit : ℕ) : ℕ → ℕ → List ℕ
  | 0, _ => []
  | fuel + 1, rest =>
    if rest = 0 then []
    else
      let chunk := min rest limit
      chunk :: loop limit fuel (rest - chunk)

/-- Each round takes at least one byte, so that `size` rounds are enough. -/
def chunks (bufferSize size : ℕ) : List ℕ := loop (bufferSize - 2 * 8) size size

/-- The messages that `write_impl(data, size)` sends. -/
def writeImpl (bufferSize : ℕ) (data : List UInt8) : Ring :=
  (chunks bufferSize data.length).splitLengths data

/-- The rounds of `read_impl`. -/
def receives (bufferSize : ℕ) : List ℕ → Ring → Except ReadError (Buffer × Ring)
  | [], ring => .ok ([], ring)
  | chunk :: chunks, ring => do
    let (cells, ring) ← receive bufferSize chunk ring
    let (buffer, ring) ← receives bufferSize chunks ring
    return (cells ++ buffer, ring)

/-- `read_impl(buffer, size)`. -/
def readImpl (bufferSize size : ℕ) (ring : Ring) : Except ReadError (Buffer × Ring) :=
  receives bufferSize (chunks bufferSize size) ring

/-- `readSome_impl(buffer, maxSize)`, with the length that `receive` returns. -/
def readSomeImpl (bufferSize maxSize : ℕ) (ring : Ring) : Except ReadError (ℕ × Buffer × Ring) := do
  let chunk := min maxSize bufferSize
  let (cells, rest) ← receive bufferSize chunk ring
  return ((ring.headD []).length, cells, rest)

end Rdma

namespace RdmaTransportServer

def writeImpl : ℕ → List UInt8 → Rdma.Ring := Rdma.writeImpl

def readImpl : ℕ → ℕ → Rdma.Ring → Except Rdma.ReadError (Rdma.Buffer × Rdma.Ring) := Rdma.readImpl

def readSomeImpl : ℕ → ℕ → Rdma.Ring → Except Rdma.ReadError (ℕ × Rdma.Buffer × Rdma.Ring) :=
  Rdma.readSomeImpl

end RdmaTransportServer

namespace RdmaTransportClient

def writeImpl : ℕ → List UInt8 → Rdma.Ring := Rdma.writeImpl

def readImpl : ℕ → ℕ → Rdma.Ring → Except Rdma.ReadError (Rdma.Buffer × Rdma.Ring) := Rdma.readImpl

def readSomeImpl : ℕ → ℕ → Rdma.Ring → Except Rdma.ReadError (ℕ × Rdma.Buffer × Rdma.Ring) :=
  Rdma.readSomeImpl

end RdmaTransportClient

namespace Rdma

/-- The end that writes; the other one reads. -/
inductive Writer where
  | server
  | client

def Writer.writeImpl : Writer → ℕ → List UInt8 → Ring
  | server => RdmaTransportServer.writeImpl
  | client => RdmaTransportClient.writeImpl

def Writer.readImpl : Writer → ℕ → ℕ → Ring → Except ReadError (Buffer × Ring)
  | server => RdmaTransportClient.readImpl
  | client => RdmaTransportServer.readImpl

def Writer.readSomeImpl : Writer → ℕ → ℕ → Ring → Except ReadError (ℕ × Buffer × Ring)
  | server => RdmaTransportClient.readSomeImpl
  | client => RdmaTransportServer.readSomeImpl

/-- The messages of a list of `write` calls. -/
def Writer.messages (w : Writer) (bufferSize : ℕ) (writes : List (List UInt8)) : Ring :=
  writes.flatMap (w.writeImpl bufferSize)

/-- A list of `read` calls, with the sizes of their buffers. -/
def Writer.reads (w : Writer) (bufferSize : ℕ) :
    List ℕ → Ring → Except ReadError (List Buffer × Ring)
  | [], ring => .ok ([], ring)
  | size :: sizes, ring => do
    let (buffer, ring) ← w.readImpl bufferSize size ring
    let (buffers, ring) ← w.reads bufferSize sizes ring
    return (buffer :: buffers, ring)

end Rdma

end L5RDMA
