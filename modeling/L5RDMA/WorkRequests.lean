/-
  The work request objects of the senders, from the calls that set them up to
  the post.

  The rings make a new object for every request.  The multi-client servers keep
  one for each connection, made in `accept`, and the clients one for their data
  and, over the doorbell transport, one for the bell, made in the constructor;
  each `send` gives such an object another local address and posts it again.

  A `send` is a program of the calls that may throw and the changes in between.
  The bytes in memory play no part, and neither does a `doWork` that throws:
  it does so before anything is changed or posted.
-/
import L5RDMA.Lib.Fallible
import L5RDMA.Lib.WorkRequest
import L5RDMA.RDMAMessageBuffer
import L5RDMA.MulticlientSlots

namespace L5RDMA

namespace Posting

open Verbs (WorkRequests Setter)
open Fallible (Op)

/-- The calls that may throw. -/
inductive NetCall (W : Type) where
  | post (wr : W)
  /-- waiting or polling for a completion -/
  | completion
  /-- connecting a queue pair, and the exchange of addresses before -/
  | connect

/-- One that sends into a ring, between two calls. -/
structure RingSender (M : Type) where
  size : UInt64
  messageCounter : UInt64
  sendPos : UInt64
  /-- the memory of the staging ring -/
  sendMr : M
  /-- the memory that is read into -/
  readPosMr : M

section
variable {M S W : Type} (v : WorkRequests M S W)

/-- The RDMA read of the receiver's position. -/
def readWr (s : RingSender M) : W :=
  v.sets (v.create .read)
    [.setLocalAddress (v.whole s.readPosMr), .setRemoteAddress 0, .setFlags [.SIGNALED], .setId 42]

/-- `reads` turns of the loop that waits for room in the remote ring. -/
def waitForRoom (s : RingSender M) (reads : ℕ) : List (Op (RingSender M) (NetCall W)) :=
  (List.replicate reads [.call (.post (readWr v s)), .call .completion]).flatten

/-- Wait for a completion if the request was signaled. -/
def clearQueue (shouldClearQueue : Prop) [Decidable shouldClearQueue] :
    List (Op (RingSender M) (NetCall W)) :=
  if shouldClearQueue then [.call .completion] else []

end

end Posting

open Posting
open Verbs (WorkRequests Setter)
open Fallible (Op)
open Pos (powerOfTwo)
open RDMAMessageBuffer (Part wraparound)

variable {M S W : Type} (v : WorkRequests M S W)

/-! ## The rings -/

namespace Posting.VirtualRDMARingBuffer

/-- The constructor. -/
def create (size : UInt64) : Option (RingSender M) :=
  -- throws "size should be a power of 2"
  if powerOfTwo size = false then none
  else
    some
      { size := size, messageCounter := 0, sendPos := 0
        sendMr := v.register (size * 2), readPosMr := v.register 8 }

/-- The request of `send`. -/
def sendWr (s : RingSender M) (sizeToWrite : UInt64) : W :=
  let startOfWrite := s.sendPos &&& (s.size - 1)
  let sendSlice := v.getSlice s.sendMr startOfWrite.toUInt32 sizeToWrite.toUInt32
  let wr := v.create .write
  let wr := v.set wr (.setLocalAddress sendSlice)
  let wr := v.set wr (.setRemoteAddress startOfWrite)
  let wr := if s.messageCounter % (4 * 1024) = 0 then v.set wr .setSignaled else wr
  if (v.length sendSlice).toUInt64 ≤ maxInlineSize then v.set wr .setInline else wr

/-- `send(doWork)`, where `doWork` returns `dataSize`. -/
def send (s : RingSender M) (dataSize : UInt64) (reads : ℕ) :
    List (Op (RingSender M) (NetCall W)) :=
  let sizeToWrite := 8 + dataSize + 8
  -- throws "data > buffersize!"
  if sizeToWrite > s.size then []
  else
    waitForRoom v s reads ++ [.call (.post (sendWr v s sizeToWrite))] ++
      clearQueue (s.messageCounter % (4 * 1024) = 0) ++
      [.change fun s => { s with
        messageCounter := s.messageCounter + 1, sendPos := s.sendPos + sizeToWrite }]

/-- The first request of `sendParanoid`. -/
def dataWr (s : RingSender M) (dataSizeToWrite : UInt64) : W :=
  let startOfWrite := s.sendPos &&& (s.size - 1)
  let dataSlice := v.getSlice s.sendMr (startOfWrite + 8).toUInt32 dataSizeToWrite.toUInt32
  let wr := v.create .write
  let wr := v.set wr (.setLocalAddress dataSlice)
  let wr := v.set wr (.setRemoteAddress (startOfWrite + 8))
  if (v.length dataSlice).toUInt64 ≤ maxInlineSize then v.set wr .setInline else wr

/-- The second request of `sendParanoid`. -/
def sizeWr (s : RingSender M) : W :=
  let startOfWrite := s.sendPos &&& (s.size - 1)
  let wr := v.create .write
  let wr := v.set wr (.setLocalAddress (v.getSlice s.sendMr startOfWrite.toUInt32 8))
  let wr := v.set wr (.setRemoteAddress startOfWrite)
  let wr := v.set wr .setInline
  if s.messageCounter % (4 * 1024) = 0 then v.set wr .setSignaled else wr

def sendParanoid (s : RingSender M) (dataSize : UInt64) (reads : ℕ) :
    List (Op (RingSender M) (NetCall W)) :=
  let dataSizeToWrite := dataSize + 8
  -- throws "data > buffersize!"
  if 8 + dataSizeToWrite > s.size then []
  else
    waitForRoom v s reads ++
      [.call (.post (dataWr v s dataSizeToWrite)), .call (.post (sizeWr v s))] ++
      clearQueue (s.messageCounter % (4 * 1024) = 0) ++
      [.change fun s => { s with
        messageCounter := s.messageCounter + 1, sendPos := s.sendPos + (8 + dataSizeToWrite) }]

/-- A call, with the turns of the loop that waits for room. -/
inductive Method where
  | send (dataSize : UInt64) (reads : ℕ)
  | sendParanoid (dataSize : UInt64) (reads : ℕ)

def method (s : RingSender M) : Method → Option (List (Op (RingSender M) (NetCall W)))
  | .send dataSize reads => some (send v s dataSize reads)
  | .sendParanoid dataSize reads => some (sendParanoid v s dataSize reads)

end Posting.VirtualRDMARingBuffer

namespace Posting.RDMAMessageBuffer

/-- The constructor. -/
def create (size : UInt64) : Option (RingSender M) :=
  -- throws "size should be a power of 2"
  if powerOfTwo size = false then none
  else
    some
      { size := size, messageCounter := 0, sendPos := 0
        sendMr := v.register size, readPosMr := v.register 8 }

def writeToSendBuffer (s : RingSender M) (sizeToWrite : UInt64) (reads : ℕ) :
    List (Op (RingSender M) (NetCall W)) :=
  waitForRoom v s reads ++ [.change fun s => { s with sendPos := s.sendPos + sizeToWrite }]

/-- The request for a part of the frame. -/
def partWr (sendMr : M) (messageCounter : UInt64) (inln : Bool) (c : Part) : W :=
  let sendSlice := v.getSlice sendMr c.beginPos.toUInt32 (c.endPos - c.beginPos).toUInt32
  let wr := v.create .write
  let wr := v.set wr (.setLocalAddress sendSlice)
  let wr := v.set wr (.setRemoteAddress c.beginPos)
  let wr := if messageCounter % (4 * 1024) = 0 then v.set wr .setSignaled else wr
  if inln = true ∧ (v.length sendSlice).toUInt64 ≤ maxInlineSize then v.set wr .setInline else wr

/-- Post the parts of the frame. -/
def postParts (sendMr : M) (inln : Bool) :
    UInt64 → List Part → List (Op (RingSender M) (NetCall W))
  | _, [] => []
  | messageCounter, c :: parts =>
    [.call (.post (partWr v sendMr messageCounter inln c))] ++
      clearQueue (messageCounter % (4 * 1024) = 0) ++
      [.change fun s => { s with messageCounter := s.messageCounter + 1 }] ++
      postParts sendMr inln (messageCounter + 1) parts

/-- `send(data, length, inln)`, with the turns of each of the three loops that wait for
    room. -/
def send (s : RingSender M) (length : UInt64) (inln : Bool) (reads : ℕ × ℕ × ℕ) :
    List (Op (RingSender M) (NetCall W)) :=
  let sizeToWrite := 8 + length + 8
  -- throws "data > buffersize!"
  if sizeToWrite > s.size then []
  else
    writeToSendBuffer v s 8 reads.1 ++ writeToSendBuffer v s length reads.2.1 ++
      writeToSendBuffer v s 8 reads.2.2 ++
      postParts v s.sendMr inln s.messageCounter (wraparound s.size sizeToWrite s.sendPos)

structure Method where
  length : UInt64
  inln : Bool
  reads : ℕ × ℕ × ℕ

def method (s : RingSender M) (a : Method) : Option (List (Op (RingSender M) (NetCall W))) :=
  some (send v s a.length a.inln a.reads)

end Posting.RDMAMessageBuffer

/-! ## The servers -/

namespace Posting

/-- A connection of a server. -/
structure Connection (W : Type) where
  answerWr : W
  sendCounter : UInt64

structure Server (M W : Type) where
  sendBuffer : M
  connections : List (Connection W)

namespace Server

def emplaceBack (con : Connection W) (srv : Server M W) : Server M W :=
  { srv with connections := srv.connections ++ [con] }

/-- A change of the connection with index `i`. -/
def modify (i : ℕ) (f : Connection W → Connection W) (srv : Server M W) : Server M W :=
  { srv with connections := srv.connections.modify i f }

end Server

/-- The calls of `accept` on the request of the new connection. -/
def prepareAnswer (sendBuffer : M) (receiveAddr : UInt64) (answer : W) : W :=
  v.sets answer
    [.setLocalAddress (v.whole sendBuffer), .setRemoteAddress receiveAddr, .setInline, .setSignaled]

/-- `accept` that puts the connection into `connections` before it prepares its request. -/
def acceptEarly (srv : Server M W) (receiveAddr : UInt64) : List (Op (Server M W) (NetCall W)) :=
  let clientId := srv.connections.length
  [.call .connect,
    .change (Server.emplaceBack ⟨v.create .write, 0⟩),
    .call .connect,
    .change (Server.modify clientId fun con =>
      { con with answerWr := prepareAnswer v srv.sendBuffer receiveAddr con.answerWr }),
    .call .connect]

def setWrFlags (wr : W) (signaled inlineMsg : Bool) : W :=
  if signaled && inlineMsg then v.set wr (.setFlags [.SIGNALED, .INLINE])
  else if signaled then v.set wr (.setFlags [.SIGNALED])
  else if inlineMsg then v.set wr (.setFlags [.INLINE])
  else v.set wr (.setFlags [])

/-- The request that is posted for an answer, made of the one of the connection. -/
def answerWr (sendBuffer : M) (wr : W) (sendCounter totalLength : UInt64) : W :=
  let wr := v.set wr (.setLocalAddress (v.getSlice sendBuffer 0 totalLength.toUInt32))
  setWrFlags v wr (sendCounter % 1024 = 0) (totalLength < 512)

/-- `send`, past its checks. -/
def answer (srv : Server M W) (receiverId : ℕ) (con : Connection W) (totalLength : UInt64) :
    List (Op (Server M W) (NetCall W)) :=
  let sendCounter := con.sendCounter + 1
  let wr := answerWr v srv.sendBuffer con.answerWr sendCounter totalLength
  [.change (Server.modify receiverId fun _ => ⟨wr, sendCounter⟩), .call (.post wr)] ++
    if sendCounter % 1024 = 0 then [.call .completion] else []

/-- `send(receiverId, data, size)`.  There is no connection behind their end. -/
def sendTo (maxMessageSize : UInt64) (srv : Server M W) (receiverId : ℕ) (size : UInt64) :
    Option (List (Op (Server M W) (NetCall W))) :=
  let totalLength := size + 8 + 1
  -- throws "can't send messages > MAX_MESSAGESIZE"
  if totalLength > maxMessageSize then some []
  -- throws "no such connection"
  else if receiverId > srv.connections.length then some []
  else srv.connections[receiverId]?.map fun con => answer v srv receiverId con totalLength

end Posting

namespace Posting.MulticlientRDMATransportServer

def accept (srv : Server M W) (receiveAddr : UInt64) : List (Op (Server M W) (NetCall W)) :=
  [.call .connect,
    .change (Server.emplaceBack
      ⟨prepareAnswer v srv.sendBuffer receiveAddr (v.create .write), 0⟩)]

/-- `send(receiverId, doWork)`, which looks the connection up before it checks the size. -/
def sendWork (srv : Server M W) (receiverId : ℕ) (size : UInt64) :
    Option (List (Op (Server M W) (NetCall W))) :=
  -- throws "no such connection"
  if receiverId > srv.connections.length then some []
  else
    srv.connections[receiverId]?.map fun con =>
      let totalLength := size + 8 + 1
      -- throws "can't send messages > MAX_MESSAGESIZE"
      if totalLength > MulticlientRDMATransportServer.maxMessageSize then []
      else answer v srv receiverId con totalLength

def send (srv : Server M W) (receiverId : ℕ) (size : UInt64) :
    Option (List (Op (Server M W) (NetCall W))) :=
  if size + 8 + 1 > MulticlientRDMATransportServer.maxMessageSize then some []
  else if receiverId > srv.connections.length then some []
  else sendWork v srv receiverId size

end Posting.MulticlientRDMATransportServer

namespace Posting.MulticlientRDMARecvTransportServer

def accept : Server M W → UInt64 → List (Op (Server M W) (NetCall W)) := acceptEarly v

def send : Server M W → ℕ → UInt64 → Option (List (Op (Server M W) (NetCall W))) :=
  sendTo v MulticlientRDMARecvTransportServer.maxMessageSize

end Posting.MulticlientRDMARecvTransportServer

namespace Posting.MulticlientRDMADistinctMrTransportServer

def accept : Server M W → UInt64 → List (Op (Server M W) (NetCall W)) := acceptEarly v

def send : Server M W → ℕ → UInt64 → Option (List (Op (Server M W) (NetCall W))) :=
  sendTo v MulticlientRDMADistinctMrTransportServer.maxMessageSize

end Posting.MulticlientRDMADistinctMrTransportServer

namespace Posting.Server

open Multiclient (Transport)

/-- The constructor. -/
def create (t : Transport) : Server M W :=
  { sendBuffer := v.register t.maxMessageSize, connections := [] }

inductive Method where
  | accept (receiveAddr : UInt64)
  | send (receiverId : ℕ) (size : UInt64)
  /-- `send(receiverId, doWork)`, where `doWork` returns `size` -/
  | sendWork (receiverId : ℕ) (size : UInt64)

def method (t : Transport) (srv : Server M W) :
    Method → Option (List (Op (Server M W) (NetCall W)))
  | .accept receiveAddr =>
    match t with
    | .doorbell => some (MulticlientRDMATransportServer.accept v srv receiveAddr)
    | .recv => some (MulticlientRDMARecvTransportServer.accept v srv receiveAddr)
    | .distinctMr => some (MulticlientRDMADistinctMrTransportServer.accept v srv receiveAddr)
  | .send receiverId size =>
    match t with
    | .doorbell => MulticlientRDMATransportServer.send v srv receiverId size
    | .recv => MulticlientRDMARecvTransportServer.send v srv receiverId size
    | .distinctMr => MulticlientRDMADistinctMrTransportServer.send v srv receiverId size
  | .sendWork receiverId size =>
    match t with
    | .doorbell => MulticlientRDMATransportServer.sendWork v srv receiverId size
    -- there is no such overload
    | .recv | .distinctMr => none

end Posting.Server

/-! ## The clients -/

namespace Posting

structure Client (M W : Type) where
  sendBuffer : M
  dataWr : W
  /-- of the doorbell transport only -/
  doorBellWr : Option W

/-- `rdmaConnect`, which learns the addresses from the server. -/
def rdmaConnect (receiveAddr doorBellAddr : UInt64) : List (Op (Client M W) (NetCall W)) :=
  [.call .connect,
    .change fun cl => { cl with
      dataWr := v.set cl.dataWr (.setRemoteAddress receiveAddr)
      doorBellWr := cl.doorBellWr.map fun wr => v.set wr (.setRemoteAddress doorBellAddr) }]

/-- The request that is posted for the data, made of the one of the client. -/
def requestWr (sendBuffer : M) (wr : W) (dataWrSize : UInt64) : W :=
  v.set wr (.setLocalAddress (v.getSlice sendBuffer 0 dataWrSize.toUInt32))

/-- `send(data, size)`, and `send(doWork)` where `doWork` returns `size`: the data is posted,
    then the bell, and a completion polled for each. -/
def request (maxMessageSize : UInt64) (cl : Client M W) (size : UInt64) :
    List (Op (Client M W) (NetCall W)) :=
  let dataWrSize := size + 8
  -- throws "can't send messages > MAX_MESSAGESIZE"
  if dataWrSize > maxMessageSize then []
  else
    let dataWr := requestWr v cl.sendBuffer cl.dataWr dataWrSize
    let wrs := dataWr :: cl.doorBellWr.toList
    [.change fun cl => { cl with dataWr := dataWr }] ++ wrs.map (fun wr => .call (.post wr)) ++
      wrs.map fun _ => .call .completion

end Posting

namespace Posting.MultiClientRDMATransportClient

/-- The constructor. -/
def create : Client M W where
  sendBuffer := v.register MultiClientRDMATransportClient.maxMessageSize
  dataWr :=
    let sendBuffer := v.register MultiClientRDMATransportClient.maxMessageSize
    v.sets (v.create .write) [.setLocalAddress (v.whole sendBuffer), .setSignaled, .setInline]
  doorBellWr :=
    let doorBell := v.register 1
    some (v.sets (v.create .write) [.setLocalAddress (v.whole doorBell), .setSignaled, .setInline])

def send : Client M W → UInt64 → List (Op (Client M W) (NetCall W)) :=
  request v MultiClientRDMATransportClient.maxMessageSize

end Posting.MultiClientRDMATransportClient

namespace Posting.MulticlientRDMARecvTransportClient

/-- The constructor. -/
def create : Client M W where
  sendBuffer := v.register MulticlientRDMARecvTransportClient.maxMessageSize
  dataWr := v.sets (v.create .writeWithImm) [.setSignaled, .setInline]
  doorBellWr := none

def send : Client M W → UInt64 → List (Op (Client M W) (NetCall W)) :=
  request v MulticlientRDMARecvTransportClient.maxMessageSize

end Posting.MulticlientRDMARecvTransportClient

namespace Posting.MulticlientRDMADistinctMrTransportClient

/-- The constructor. -/
def create : Client M W where
  sendBuffer := v.register MulticlientRDMADistinctMrTransportClient.maxMessageSize
  dataWr := v.sets (v.create .write) [.setSignaled, .setInline]
  doorBellWr := none

def send : Client M W → UInt64 → List (Op (Client M W) (NetCall W)) :=
  request v MulticlientRDMADistinctMrTransportClient.maxMessageSize

end Posting.MulticlientRDMADistinctMrTransportClient

namespace Posting.Client

open Multiclient (Transport)

def create : Transport → Client M W
  | .doorbell => MultiClientRDMATransportClient.create v
  | .recv => MulticlientRDMARecvTransportClient.create v
  | .distinctMr => MulticlientRDMADistinctMrTransportClient.create v

inductive Method where
  | connect (receiveAddr doorBellAddr : UInt64)
  | send (size : UInt64)

def method (t : Transport) (cl : Client M W) : Method → Option (List (Op (Client M W) (NetCall W)))
  | .connect receiveAddr doorBellAddr => some (rdmaConnect v receiveAddr doorBellAddr)
  | .send size =>
    match t with
    | .doorbell => some (MultiClientRDMATransportClient.send v cl size)
    | .recv => some (MulticlientRDMARecvTransportClient.send v cl size)
    | .distinctMr => some (MulticlientRDMADistinctMrTransportClient.send v cl size)

end Posting.Client

end L5RDMA
