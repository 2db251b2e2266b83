/-
  `write` and `read` of `util/socket/tcp` and `util/socket/domain`: loops around
  `::send` and `::recv` on a blocking stream socket.

  The kernel decides how many of the bytes asked for a call moves: `::send` takes
  some of those left to write, `::recv` stores some of those of the stream, and
  none if the peer has closed its end and all of them have been taken.  Either
  may fail.

  `State` is one direction of a connection, which one program writes a list of
  buffers to and another reads from.
-/
import L5RDMA.Lib.Bytes

namespace L5RDMA

namespace Socket

/-! ## The kernel -/

/-- What `::send` or `::recv` returns: a count, or a negative number, for an error with this
    text. -/
inductive Result where
  | count (n : ℕ)
  | failed (strerror : String)
deriving DecidableEq

/-- The bytes of one direction of a connection that `::recv` has not taken. -/
structure Stream where
  pending : List UInt8
  /-- the peer has closed its end -/
  closed : Bool

/-- What `::recv` may return if it is asked for `size` bytes; it blocks as long as there is
    nothing else. -/
def Stream.MayRecv (st : Stream) (size : ℕ) : Result → Prop
  | .count n =>
    0 < n ∧ n ≤ size ∧ n ≤ st.pending.length ∨ n = 0 ∧ st.closed = true ∧ st.pending = []
  | .failed _ => True

/-- What `::send` may return if it is given `size` bytes. -/
def MaySend (size : ℕ) : Result → Prop
  | .count n => 0 < n ∧ n ≤ size
  | .failed _ => True

instance (st : Stream) (size : ℕ) : DecidablePred (st.MayRecv size)
  | .count n =>
    inferInstanceAs (Decidable (0 < n ∧ n ≤ size ∧ n ≤ st.pending.length ∨
      n = 0 ∧ st.closed = true ∧ st.pending = []))
  | .failed _ => .isTrue trivial

instance (size : ℕ) : DecidablePred (MaySend size)
  | .count n => inferInstanceAs (Decidable (0 < n ∧ n ≤ size))
  | .failed _ => .isTrue trivial

/-! ## The loops -/

/-- Where a call of `write` or `read` is. -/
inductive Pc where
  /-- in `::send` or `::recv` for the `size` bytes from `buffer + current` on -/
  | call (current size : ℕ)
  | returned
  | threw (what : String)
deriving DecidableEq

/-- The test of the loops. -/
def loop (current size : ℕ) : Pc := if size > 0 then .call current size else .returned

/-- `write` after `::send` has returned. -/
def writeLoop (current size : ℕ) : Result → Pc
  | .failed strerror => .threw ("Couldn't write to socket: " ++ strerror)
  | .count res => loop (current + res) (size - res)

/-- `read` after `::recv` has returned. -/
def readLoop (current size : ℕ) : Result → Pc
  | .failed strerror => .threw ("Couldn't read from socket: " ++ strerror)
  | .count res => if res = size then .returned else loop (current + res) (size - res)

end Socket

namespace tcp

def write : ℕ → ℕ → Socket.Result → Socket.Pc := Socket.writeLoop

def read : ℕ → ℕ → Socket.Result → Socket.Pc := Socket.readLoop

end tcp

namespace domain

def write : ℕ → ℕ → Socket.Result → Socket.Pc := Socket.writeLoop

def read : ℕ → ℕ → Socket.Result → Socket.Pc := Socket.readLoop

end domain

namespace Socket

inductive Kind where
  | tcp
  | domain
deriving DecidableEq

def Kind.write : Kind → ℕ → ℕ → Result → Pc
  | .tcp => tcp.write
  | .domain => domain.write

def Kind.read : Kind → ℕ → ℕ → Result → Pc
  | .tcp => tcp.read
  | .domain => domain.read

/-- A call of `write(sock, buffer, size)`, with the bytes of the buffer. -/
structure Writer where
  data : List UInt8
  pc : Pc

/-- A call of `read(sock, buffer, size)`, and the memory of its program. -/
structure Reader where
  buffer : ℕ
  mem : Mem
  pc : Pc

def Writer.start (data : List UInt8) : Writer := ⟨data, loop 0 data.length⟩

def Reader.start (buffer size : ℕ) (mem : Mem) : Reader := ⟨buffer, mem, loop 0 size⟩

/-- The bytes that `::send` is given. -/
def Writer.left (w : Writer) : List UInt8 :=
  match w.pc with
  | .call current size => (w.data.drop current).take size
  | _ => []

/-- `::send` returns `res`: the bytes that it has taken. -/
def Writer.send (kind : Kind) (w : Writer) (res : Result) : Option (List UInt8 × Writer) :=
  match w.pc with
  | .call current size =>
    if MaySend size res then
      let sent := match res with
        | .count n => w.left.take n
        | .failed _ => []
      some (sent, { w with pc := kind.write current size res })
    else none
  | _ => none

/-- `::recv` returns `res`. -/
def Reader.recv (kind : Kind) (st : Stream) (r : Reader) (res : Result) :
    Option (Stream × Reader) :=
  match r.pc with
  | .call current size =>
    if st.MayRecv size res then
      let pc := kind.read current size res
      match res with
      | .count n =>
        some ({ st with pending := st.pending.drop n },
          { r with mem := Mem.write id r.mem (r.buffer + current) (st.pending.take n), pc := pc })
      | .failed _ => some (st, { r with pc := pc })
    else none
  | _ => none

/-! ## A connection -/

/-- The arguments of a call of `read`, and the memory it finds. -/
structure ReadCall where
  buffer : ℕ
  size : ℕ
  mem : Mem

/-- One program writes the buffers `toWrite`, the other makes the calls `toRead`; `writer` and
    `reader` are the calls they are in, or the last ones. -/
structure State where
  toWrite : List (List UInt8)
  writer : Writer
  stream : Stream
  toRead : List ReadCall
  reader : Reader
  /-- the memory that each call of `read` has left when it returned -/
  returned : List Mem

def start (writes : List (List UInt8)) (reads : List ReadCall) : State where
  toWrite := writes
  writer := ⟨[], .returned⟩
  stream := ⟨[], false⟩
  toRead := reads
  reader := ⟨0, fun _ => 0, .returned⟩
  returned := []

inductive Act where
  /-- the next call of `write` -/
  | write
  | send (res : Result)
  /-- the next call of `read` -/
  | read
  | recv (res : Result)
deriving DecidableEq

def State.setReader (s : State) (st : Stream) (r : Reader) : State :=
  { s with
    stream := st, reader := r
    returned := if r.pc = .returned then s.returned ++ [r.mem] else s.returned }

def step (kind : Kind) (s : State) : Act → Option State
  | .write =>
    match s.writer.pc, s.toWrite with
    | .returned, data :: toWrite => some { s with toWrite := toWrite, writer := .start data }
    | _, _ => none
  | .send res =>
    (s.writer.send kind res).map fun (sent, writer) =>
      { s with writer := writer, stream := { s.stream with pending := s.stream.pending ++ sent } }
  | .read =>
    match s.reader.pc, s.toRead with
    | .returned, c :: toRead =>
      some ({ s with toRead := toRead }.setReader s.stream (.start c.buffer c.size c.mem))
    | _, _ => none
  | .recv res => (s.reader.recv kind s.stream res).map fun (st, r) => s.setReader st r

/-- The steps of one call of `read`, with no one writing. -/
def readStep (kind : Kind) (s : Stream × Reader) (res : Result) : Option (Stream × Reader) :=
  s.2.recv kind s.1 res

end Socket

end L5RDMA
