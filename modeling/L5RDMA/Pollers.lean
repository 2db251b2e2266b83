/-
  The pollers of the doorbell transport and of `multiclientPollingBench`.

  Some look at an array of bytes, in which zero is nothing, and some at an array
  of `int32_t`, in which -1 is nothing.  The scalar ones return the first entry
  that is set; the vector ones compare a block of entries at once and find one
  of those that are set by the leading zeros of a mask.

  They are given the steps they may take, since they go on for ever while
  nothing is set.
-/
import L5RDMA.Lib.Scan
import L5RDMA.MulticlientPolling

namespace L5RDMA

/-! ## Bells -/

namespace MulticlientRDMATransportServer

def poll : ℕ → (ℕ → UInt8) → ℕ → Option (ℕ × (ℕ → UInt8)) :=
  Scan.poll 1 0 (fun i _ => i) fun doorBells i => if doorBells i ≠ 0 then some i else none

def pollSSE : ℕ → (ℕ → UInt8) → ℕ → Option (ℕ × (ℕ → UInt8)) :=
  Scan.poll 16 0 (fun i _ => i) fun doorBells i =>
    let cmpMask := cmpMask doorBells i
    if cmpMask ≠ 0 then some (senderOf cmpMask i) else none

end MulticlientRDMATransportServer

namespace MulticlientPollingBench

open MulticlientRDMATransportServer (cmpeqZero movemask cmpMask senderOf)

def exPoll : ℕ → (ℕ → UInt8) → ℕ → Option (ℕ × (ℕ → UInt8)) :=
  Scan.poll 1 0 (fun i _ => i) fun doorBells i => if doorBells i ≠ 0 then some i else none

/-- One bit for each of 32 bells. -/
def cmpMask256 (doorBells : ℕ → UInt8) (i : ℕ) : BitVec 32 :=
  let data := (List.range 32).map fun j => doorBells (i + j)
  ~~~ movemask (cmpeqZero data)

/-- `assert(count % 32 == 0)`. -/
def exPollSIMD : ℕ → (ℕ → UInt8) → ℕ → Option (ℕ × (ℕ → UInt8)) :=
  Scan.poll 32 0 (fun i _ => i) fun doorBells i =>
    let cmpMask := cmpMask256 doorBells i
    if cmpMask ≠ 0 then
      let lzcnt := cmpMask.clz.toNat
      some (32 - (lzcnt + 1) + i)
    else none

/-- `assert(count % 16 == 0)`. -/
def exPollSSE : ℕ → (ℕ → UInt8) → ℕ → Option (ℕ × (ℕ → UInt8)) :=
  Scan.poll 16 0 (fun i _ => i) fun doorBells i =>
    let cmpMask := cmpMask doorBells i
    if cmpMask ≠ 0 then some (senderOf cmpMask i) else none

/-- `_mm_cmpestri` with a needle of one byte, with `_SIDD_NEGATIVE_POLARITY`: the index of the
    first byte that is another, 16 if there is none. -/
def cmpestri (needle : UInt8) (haystack : List UInt8) : ℕ := haystack.findIdx (· ≠ needle)

/-- `assert(count % 16 == 0)`. -/
def exPollPCMP : ℕ → (ℕ → UInt8) → ℕ → Option (ℕ × (ℕ → UInt8)) :=
  Scan.poll 16 0 (fun i _ => i) fun doorBells i =>
    let index := cmpestri 0 ((List.range 16).map fun j => doorBells (i + j))
    if index ≠ 16 then some (index + i) else none

/-! ## Offsets -/

def scalarPoll : ℕ → (ℕ → Int32) → ℕ → Option ((ℕ × Int32) × (ℕ → Int32)) :=
  Scan.poll 1 (-1) Prod.mk fun offsets i => if offsets i ≠ -1 then some i else none

/-- `_mm_cmpeq_epi32` and `_mm256_cmpeq_epi32`. -/
def cmpeqEpi32 (x : Int32) (data : List Int32) : List Int32 :=
  data.map fun y => if y = x then -1 else 0

/-- The bytes of the lanes. -/
def epi8 (v : List Int32) : List UInt8 :=
  v.flatMap fun x => (List.range 4).map fun k => (x.toUInt32 >>> (8 * k).toUInt32).toUInt8

/-- Four bits for each of 8 offsets. -/
def offsetMask256 (offsets : ℕ → Int32) (i : ℕ) : BitVec 32 :=
  let data := (List.range 8).map fun j => offsets (i + j)
  ~~~ movemask (epi8 (cmpeqEpi32 (-1) data))

/-- `assert(count % 8 == 0)`. -/
def SIMDPoll : ℕ → (ℕ → Int32) → ℕ → Option ((ℕ × Int32) × (ℕ → Int32)) :=
  Scan.poll 8 (-1) Prod.mk fun offsets i =>
    let cmpMask := offsetMask256 offsets i
    if cmpMask ≠ 0 then
      let lzcnt := cmpMask.clz.toNat
      some (i + ((32 - lzcnt) / 4 - 1))
    else none

/-- Four bits for each of 4 offsets. -/
def offsetMask (offsets : ℕ → Int32) (i : ℕ) : BitVec 16 :=
  let data := (List.range 4).map fun j => offsets (i + j)
  (~~~ movemask (epi8 (cmpeqEpi32 (-1) data))).setWidth 16

/-- `assert(count % 4 == 0)`. -/
def SSEPoll : ℕ → (ℕ → Int32) → ℕ → Option ((ℕ × Int32) × (ℕ → Int32)) :=
  Scan.poll 4 (-1) Prod.mk fun offsets i =>
    let cmpMask := offsetMask offsets i
    if cmpMask ≠ 0 then
      let lzcnt := (cmpMask.setWidth 32).clz.toNat
      some (i + ((32 - lzcnt) / 4 - 1))
    else none

end MulticlientPollingBench

end L5RDMA
