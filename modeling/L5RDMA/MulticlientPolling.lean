/-
  `receive` of the multi-client RDMA servers that find requests by polling
  (`MulticlientRDMATransport`, `MulticlientRDMADistinctMrTransport`).

  Every client has a slot in `receives`, where its request arrives as its size
  and its bytes.  One server looks at an array of bytes, `doorBells`, in which
  a client sets its own after the request (`pollSSE`, sixteen at a time); the
  other looks at the sizes in the slots.
-/
import L5RDMA.MulticlientClient

namespace L5RDMA

namespace Multiclient

/-- Where the server is in `receive(whereTo, maxSize)`. -/
inductive ServePc where
  | idle
  /-- about to look at what begins at index `i` -/
  | poll (maxSize : UInt64) (i : ℕ)
  /-- about to clear the bell of the client it has found -/
  | clear (maxSize : UInt64) (sender : ℕ)
  /-- about to load the size of its request -/
  | size (maxSize : UInt64) (sender : ℕ)
  | copy (maxSize : UInt64) (sender : ℕ) (size : UInt64)
  /-- the bytes are copied out -/
  | reset (sender : ℕ) (bytes : List UInt8)

/-- The memory in which the requests arrive, and the server that polls it. -/
structure Slots where
  /-- `MAX_CLIENTS` -/
  maxClients : ℕ
  /-- `connections.size()` -/
  count : ℕ
  receives : ℕ → Mem
  doorBells : ℕ → UInt8
  pc : ServePc
  /-- the client and the bytes of each request that `receive` has returned -/
  returned : List (ℕ × List UInt8)

def Slots.init (maxClients count : ℕ) : Slots where
  maxClients := maxClients
  count := count
  receives := fun _ _ => 0
  doorBells := fun _ => 0
  pc := .idle
  returned := []

end Multiclient

open Multiclient

namespace MulticlientRDMATransportServer

/-! ## `pollSSE` -/

/-- `_mm_cmpeq_epi8` with zero. -/
def cmpeqZero (data : List UInt8) : List UInt8 := data.map fun b => if b = 0 then 0xFF else 0

/-- `_mm_movemask_epi8`: the top bit of each byte. -/
def movemask (v : List UInt8) : BitVec 32 :=
  (BitVec.ofBoolListLE (v.map fun b => b.toBitVec.msb)).setWidth 32

/-- One bit for each bell from index `i` on that is set. -/
def cmpMask (doorBells : ℕ → UInt8) (i : ℕ) : BitVec 16 :=
  let data := (List.range 16).map fun j => doorBells (i + j)
  (~~~ movemask (cmpeqZero data)).setWidth 16

/-- The client of the highest bit. -/
def senderOf (cmpMask : BitVec 16) (i : ℕ) : ℕ :=
  let lzcnt := (cmpMask.setWidth 32).clz.toNat
  32 - (lzcnt + 1) + i

/-! ## `receive` -/

/-- The next step of `receive`: `pollSSE`, then the request of the client it has found. -/
def receiveStep (s : Slots) : Option Slots :=
  match s.pc with
  | .idle => none
  | .poll maxSize i =>
    if i < s.maxClients then
      let cmpMask := cmpMask s.doorBells i
      if cmpMask ≠ 0 then some { s with pc := .clear maxSize (senderOf cmpMask i) }
      else some { s with pc := .poll maxSize (i + 16) }
    else some { s with pc := .poll maxSize 0 }
  | .clear maxSize sender =>
    some { s with
      doorBells := Function.update s.doorBells sender 0, pc := .size maxSize sender }
  | .size maxSize sender =>
    some { s with pc := .copy maxSize sender (sizeWord (s.receives sender)) }
  | .copy maxSize sender size =>
    -- throws "received message > maxSize"
    if maxSize < size then some { s with pc := .idle }
    else
      some { s with
        pc := .idle
        returned := s.returned ++ [(sender, Mem.read id (s.receives sender) 8 size.toNat)] }
  | .reset _ _ => none

end MulticlientRDMATransportServer

namespace MulticlientRDMADistinctMrTransportServer

/-- The next step of `receive`.  The size is reset through a pointer to bytes, so that
    only its lowest byte becomes zero. -/
def receiveStep (s : Slots) : Option Slots :=
  match s.pc with
  | .idle => none
  | .poll maxSize i =>
    if i < s.count then
      if sizeWord (s.receives i) ≠ 0 then some { s with pc := .size maxSize i }
      else some { s with pc := .poll maxSize (i + 1) }
    else some { s with pc := .poll maxSize 0 }
  | .clear _ _ => none
  | .size maxSize client =>
    some { s with pc := .copy maxSize client (sizeWord (s.receives client)) }
  | .copy maxSize client size =>
    -- throws "received message > maxSize"
    if maxSize < size then some { s with pc := .idle }
    else
      some { s with pc := .reset client (Mem.read id (s.receives client) 8 size.toNat) }
  | .reset client bytes =>
    some { s with
      receives := Function.update s.receives client (Mem.write id (s.receives client) 0 [0])
      pc := .idle
      returned := s.returned ++ [(client, bytes)] }

end MulticlientRDMADistinctMrTransportServer

namespace Multiclient

/-- The two transports whose server polls its memory. -/
inductive Polling where
  | doorbell
  | distinctMr

namespace Polling

def transport : Polling → Transport
  | doorbell => .doorbell
  | distinctMr => .distinctMr

def receiveStep : Polling → Slots → Option Slots
  | doorbell => MulticlientRDMATransportServer.receiveStep
  | distinctMr => MulticlientRDMADistinctMrTransportServer.receiveStep

end Polling

end Multiclient

end L5RDMA
