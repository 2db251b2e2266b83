/-
  `apps/PingPong.h` over a socket transport.

  `Ping` writes its data, and compares with it what it reads back; `Pong` writes
  what it has read.  `write` and `read` of `TcpTransport` and
  `DomainSocketsTransport` are the ones of `util/socket`, so that the two are
  programs of `L5RDMA.SocketPrograms` once the transports are connected.
-/
import L5RDMA.SocketPrograms

namespace L5RDMA

namespace PingPong

open Duplex (Side Call)

/-- In `ping`, with the calls of it that are still to be made. -/
inductive PingPc where
  | ping (calls : ℕ)
  | fill (calls : ℕ)
  | read (calls : ℕ)
  | compare (calls : ℕ)
  | threw (what : List UInt8)
deriving DecidableEq

structure Ping where
  pc : PingPc
  data : List UInt8
  buffer : List UInt8
deriving DecidableEq

/-- The bytes of the text. -/
def unexpected (buffer : List UInt8) : List UInt8 :=
  "received unexpected data: ".toUTF8.toList ++ buffer

/-- What the constructor fills `data` with. -/
def pattern (dataSize : ℕ) : List UInt8 := (List.range dataSize).map fun i => .ofNat (i % 255)

/-- About to call `ping` several times. -/
def Ping.new (dataSize calls : ℕ) : Ping where
  pc := .ping calls
  data := pattern dataSize
  buffer := List.replicate dataSize 0

def Ping.call (p : Ping) : Call UInt8 Ping :=
  match p.pc with
  | .ping 0 => .stop
  | .ping (calls + 1) => .write p.data { p with pc := .fill calls }
  | .fill calls => .change { p with pc := .read calls, buffer := p.buffer.map fun _ => 0 }
  | .read calls =>
    .read p.buffer.length fun bytes => { p with pc := .compare calls, buffer := bytes }
  | .compare calls =>
    if ∃ i < p.data.length, p.buffer[i]? ≠ p.data[i]? then
      .change { p with pc := .threw (unexpected p.buffer) }
    else .change { p with pc := .ping calls }
  | .threw _ => .stop

inductive PongPc where
  | pong (calls : ℕ)
  | write (calls : ℕ)
deriving DecidableEq

structure Pong where
  pc : PongPc
  buffer : List UInt8
deriving DecidableEq

/-- About to call `pong` several times. -/
def Pong.new (dataSize calls : ℕ) : Pong where
  pc := .pong calls
  buffer := List.replicate dataSize 0

def Pong.call (p : Pong) : Call UInt8 Pong :=
  match p.pc with
  | .pong 0 => .stop
  | .pong (calls + 1) =>
    .read p.buffer.length fun bytes => { pc := .write calls, buffer := bytes }
  | .write calls => .write p.buffer { p with pc := .pong calls }

/-- `Ping` is at the left end. -/
def prog (_ : Side) : Ping ⊕ Pong → Call UInt8 (Ping ⊕ Pong)
  | .inl p => p.call.map .inl
  | .inr p => p.call.map .inr

/-- The data size of an end, and the calls that it makes. -/
structure Args where
  dataSize : ℕ
  calls : ℕ

def programs (ping pong : Args) : Side → Ping ⊕ Pong
  | .left => .inl (.new ping.dataSize ping.calls)
  | .right => .inr (.new pong.dataSize pong.calls)

def begins (ping pong : Args) : SocketPrograms.State (Ping ⊕ Pong) :=
  SocketPrograms.start (programs ping pong)

/-- All calls have returned. -/
def Returned (s : SocketPrograms.State (Ping ⊕ Pong)) : Prop :=
  (∃ p : Ping, s.ends .left = ⟨.between (.inl p), none⟩ ∧ p.pc = .ping 0) ∧
    ∃ p : Pong, s.ends .right = ⟨.between (.inr p), none⟩ ∧ p.pc = .pong 0

end PingPong

end L5RDMA
