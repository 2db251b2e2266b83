/-
  The multi-client TCP transport (`transports/MulticlientTCPTransport`): many
  clients, each with a connection to one server that receives from all of them.

  A client sends with the loop of `tcp::write`.  `receive` of the server polls all
  connections, and for the first one that is readable, and nothing else, calls
  `::recv` once.  Steps of the system:

  * clients write, send (as much as their kernel takes), close their end;
  * bytes arrive at the server in their order, behind them the end of file, or
    the connection is reset and the bytes are lost;
  * `accept`, and the steps of `receive`: `::poll`, which reports a connection
    as readable only if it is, and `::recv`, which returns all that has arrived
    and fits.
-/
import L5RDMA.Sockets
import Mathlib.Logic.Function.Basic

namespace L5RDMA

namespace MulticlientTCPTransport

open Socket

/-- The connection of a client. -/
structure Conn where
  /-- the client's call of `tcp::write` -/
  writer : Writer
  /-- the client has closed its end -/
  closing : Bool
  /-- taken by the client's kernel, and not yet arrived -/
  inFlight : List UInt8
  /-- what has arrived at the server -/
  stream : Stream
  reset : Bool
  /-- the bytes of all objects that the client has written -/
  written : List UInt8
  /-- how many of them the server's `::recv` has taken -/
  consumed : ℕ

def Conn.new : Conn where
  writer := ⟨[], .returned⟩
  closing := false
  inFlight := []
  stream := ⟨[], false⟩
  reset := false
  written := []
  consumed := 0

/-- Something to read, or the end of the file. -/
def Conn.readable (c : Conn) : Bool :=
  !c.reset && (!c.stream.pending.isEmpty || c.stream.closed)

/-- What `::recv` returns for `maxSize` bytes; it blocks if nothing has arrived. -/
def Conn.recv (c : Conn) (maxSize : ℕ) : Option Result :=
  if c.reset then some (.failed "Connection reset by peer")
  else if c.readable ∨ maxSize = 0 then some (.count (min maxSize c.stream.pending.length))
  else none

def POLLIN : UInt16 := 1

/-- The test of `receive` that only the `POLLIN` flag is set. -/
def onlyPollin (revents : UInt16) : Bool :=
  (revents &&& ~~~POLLIN) == 0 && (revents &&& POLLIN) != 0

/-- Where the server is in `receive(whereTo, maxSize)`, and the memory it has found. -/
inductive ServerPc where
  | idle
  | poll (whereTo maxSize : ℕ) (mem : Mem)
  /-- about to call `::recv` for the `pollFd` number `readable` -/
  | recv (readable whereTo maxSize : ℕ) (mem : Mem)
  /-- the last call has thrown, and the program goes on -/
  | threw (what : String)

/-- A call of `receive` that has returned the id of a client. -/
structure Received where
  id : ℕ
  call : ReadCall
  /-- the memory it has left -/
  mem : Mem
  /-- the bytes of the client that the server had taken before and after the call -/
  start : ℕ
  stop : ℕ

/-- The connections are numbered in the order in which the server accepts them; those from
    `connections` on are still to be accepted. -/
structure State where
  conns : ℕ → Conn
  connections : ℕ
  pc : ServerPc
  received : List Received

def start : State where
  conns := fun _ => .new
  connections := 0
  pc := .idle
  received := []

inductive Act where
  /-- the client calls `send(data, size)` -/
  | write (i : ℕ) (data : List UInt8)
  | send (i : ℕ) (res : Result)
  | close (i : ℕ)
  | arrive (i n : ℕ)
  /-- the end of the file arrives -/
  | endOfFile (i : ℕ)
  | reset (i : ℕ)
  | accept
  | receive (whereTo maxSize : ℕ) (mem : Mem)
  | poll (revents : List UInt16)
  | pollFails (strerror : String)
  | recv

/-- A step of a client or of its connection. -/
def Conn.step (c : Conn) : Act → Option Conn
  | .write _ data =>
    match c.writer.pc with
    | .returned =>
      if c.closing ∨ c.reset then none
      else some { c with writer := .start data, written := c.written ++ data }
    | _ => none
  | .send _ res =>
    if c.closing ∨ c.reset then none
    else
      (c.writer.send .tcp res).map fun (sent, writer) =>
        { c with writer := writer, inFlight := c.inFlight ++ sent }
  | .close _ => some { c with closing := true }
  | .arrive _ n =>
    if 0 < n ∧ n ≤ c.inFlight.length then
      some
        { c with
          inFlight := c.inFlight.drop n
          stream := { c.stream with pending := c.stream.pending ++ c.inFlight.take n } }
    else none
  | .endOfFile _ =>
    if c.closing ∧ c.inFlight = [] ∧ ¬ c.reset then
      some { c with stream := { c.stream with closed := true } }
    else none
  | .reset _ =>
    some { c with reset := true, inFlight := [], stream := { c.stream with pending := [] } }
  | _ => none

/-- No connection is reported as readable that is not. -/
def State.polls (s : State) (revents : List UInt16) : Bool :=
  revents.length == s.connections &&
    (List.range s.connections).all fun i =>
      !onlyPollin (revents.getD i 0) || (s.conns i).readable

/-- The end of `receive`: `whereTo` holds what `::recv` has stored, and whatever it has
    returned, so does `receive`. -/
def State.finish (s : State) (readable whereTo maxSize : ℕ) (mem : Mem) : Result → State
  | .count n =>
    let c := s.conns readable
    let mem' := Mem.write id mem whereTo (c.stream.pending.take n)
    let c' :=
      { c with
        stream := { c.stream with pending := c.stream.pending.drop n }, consumed := c.consumed + n }
    { s with
      conns := Function.update s.conns readable c', pc := .idle
      received :=
        s.received ++ [⟨readable, ⟨whereTo, maxSize, mem⟩, mem', c.consumed, c.consumed + n⟩] }
  | .failed _ =>
    let c := s.conns readable
    { s with
      pc := .idle
      received := s.received ++ [⟨readable, ⟨whereTo, maxSize, mem⟩, mem, c.consumed, c.consumed⟩] }

/-- A step of the server. -/
def State.serve (s : State) : Act → Option State
  | .accept =>
    match s.pc with
    | .idle | .threw _ => some { s with connections := s.connections + 1 }
    | _ => none
  | .receive whereTo maxSize mem =>
    match s.pc with
    | .idle | .threw _ => some { s with pc := .poll whereTo maxSize mem }
    | _ => none
  | .poll revents =>
    match s.pc with
    | .poll whereTo maxSize mem =>
      if s.polls revents then
        match revents.findIdx? onlyPollin with
        | some readable => some { s with pc := .recv readable whereTo maxSize mem }
        | none => some s
      else none
    | _ => none
  | .pollFails strerror =>
    match s.pc with
    | .poll _ _ _ => some { s with pc := .threw ("Could not poll sockets: " ++ strerror) }
    | _ => none
  | .recv =>
    match s.pc with
    | .recv readable whereTo maxSize mem =>
      ((s.conns readable).recv maxSize).map (s.finish readable whereTo maxSize mem)
    | _ => none
  | _ => none

/-- The client whose connection an action is about. -/
def Act.client : Act → Option ℕ
  | .write i _ | .send i _ | .close i | .arrive i _ | .endOfFile i | .reset i => some i
  | _ => none

def step (s : State) (a : Act) : Option State :=
  match a.client with
  | some i => ((s.conns i).step a).map fun c => { s with conns := Function.update s.conns i c }
  | none => s.serve a

end MulticlientTCPTransport

end L5RDMA
