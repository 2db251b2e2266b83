/-
  What the two ends of a TCP connection tell each other before they use RDMA:
  `exchangeQPNAndConnect`, `sendRmrInfo` and `receiveAndSetupRmr` of
  `util/RDMANetworking`, which the constructors of the RDMA rings call, and the
  exchanges in `accept` and `rdmaConnect` of the multi-client transports.

  An object is written as it lies in memory: its numbers little endian, and
  padding that may hold anything.  `ibv::Gid` and `RemoteAddress` are taken to be
  as libibverbscpp documents them: 16 bytes whose second half is the interface id,
  and an address with the key of its region, to which `offset` adds.

  What an end does between two calls of `tcp::write` and `tcp::read` is one step
  for each change of its variables; it may throw instead.  It has to throw where
  its arguments are refused: a size that is no power of two, or a ring that
  `mmapRingBuffer` does not map.
-/
import L5RDMA.Lib.Bytes
import L5RDMA.Lib.Script
import L5RDMA.MulticlientSlots
import L5RDMA.VirtualMemory
import Mathlib.Data.Fintype.Basic

namespace L5RDMA

namespace Handshake

open Bytes (le ofLE)
open Duplex (Op)
open Pos (powerOfTwo)

/-! ## Objects -/

/-- `ibv::Gid`. -/
abbrev Gid := Fin 16 → UInt8

/-- `getInterfaceId() != 0`: the interface id is the second half. -/
def Gid.hasInterfaceId (gid : Gid) : Bool := ((List.ofFn gid).drop 8).any (· != 0)

/-- `rdma::Address`; two bytes of padding. -/
structure Address where
  gid : Gid
  qpn : UInt32
  lid : UInt16
deriving DecidableEq

/-- `ibv::memoryregion::RemoteAddress`; four bytes of padding. -/
structure RemoteAddress where
  address : UInt64
  rkey : UInt32
deriving DecidableEq

structure RmrInfo where
  bufferKey : UInt32
  readPosKey : UInt32
  bufferAddress : UInt64
  readPosAddress : UInt64
deriving DecidableEq

/-- The bytes of the padding of an object. -/
abbrev Padding := ℕ → UInt8

/-- The number in the `n` bytes from `off` on. -/
def field (off n : ℕ) (bs : List UInt8) : ℕ := ofLE ((bs.drop off).take n)

namespace Address

def bytes (pad : Padding) (a : Address) : List UInt8 :=
  List.ofFn a.gid ++ (le a.qpn.toNat 4 ++ (le a.lid.toNat 2 ++ [pad 0, pad 1]))

def ofBytes (bs : List UInt8) : Address where
  gid i := bs.getD i 0
  qpn := UInt32.ofNat (field 16 4 bs)
  lid := UInt16.ofNat (field 20 2 bs)

end Address

namespace RemoteAddress

def bytes (pad : Padding) (r : RemoteAddress) : List UInt8 :=
  le r.address.toNat 8 ++ (le r.rkey.toNat 4 ++ [pad 0, pad 1, pad 2, pad 3])

def ofBytes (bs : List UInt8) : RemoteAddress where
  address := UInt64.ofNat (field 0 8 bs)
  rkey := UInt32.ofNat (field 8 4 bs)

def offset (r : RemoteAddress) (n : UInt64) : RemoteAddress := { r with address := r.address + n }

end RemoteAddress

namespace RmrInfo

def bytes (i : RmrInfo) : List UInt8 :=
  le i.bufferKey.toNat 4 ++ (le i.readPosKey.toNat 4 ++
    (le i.bufferAddress.toNat 8 ++ le i.readPosAddress.toNat 8))

def ofBytes (bs : List UInt8) : RmrInfo where
  bufferKey := UInt32.ofNat (field 0 4 bs)
  readPosKey := UInt32.ofNat (field 4 4 bs)
  bufferAddress := UInt64.ofNat (field 8 8 bs)
  readPosAddress := UInt64.ofNat (field 16 8 bs)

end RmrInfo

/-! ## Queue pairs and memory regions -/

inductive AccessFlag where
  | localWrite
  | remoteWrite
  | remoteRead
  | remoteAtomic
deriving DecidableEq

inductive QpState where
  | reset
  | init
  | rtr
  | rts
deriving DecidableEq

/-- The attributes of a queue pair that depend on the peer, and the state. -/
structure QueuePair where
  state : QpState
  qpAccessFlags : List AccessFlag
  destQpNum : Option UInt32
  dlid : Option UInt16
  /-- the destination of the global route, if there is one -/
  dgid : Option Gid
deriving DecidableEq

/-- As it is created. -/
def QueuePair.new : QueuePair := ⟨.reset, [], none, none, none⟩

/-- `registerMr(addr, length, flags)`, with the key that it gets. -/
structure MemoryRegion where
  addr : UInt64
  length : UInt64
  flags : List AccessFlag
  rkey : UInt32
deriving DecidableEq

end Handshake

open Handshake
open Bytes (le ofLE)
open Duplex (Op)
open Pos (powerOfTwo)

namespace RcQueuePair

/-- The three calls of `modify` in `connect(address)`. -/
def modifyInit (qp : QueuePair) : QueuePair :=
  { qp with state := .init, qpAccessFlags := [.remoteWrite, .remoteRead, .remoteAtomic] }

def modifyRtr (address : Address) (qp : QueuePair) : QueuePair :=
  { qp with
    state := .rtr
    destQpNum := some address.qpn
    dlid := some address.lid
    dgid := if address.gid.hasInterfaceId then some address.gid else none }

def modifyRts (qp : QueuePair) : QueuePair := { qp with state := .rts }

/-- `connect` of the queue pair among the variables of a program, with an address among them. -/
def connect {υ : Type} (modify : (QueuePair → QueuePair) → υ → υ) (address : υ → Address) :
    List (Op UInt8 υ) :=
  [.act (modify modifyInit),
    .act fun v => modify (modifyRtr (address v)) v,
    .act (modify modifyRts)]

end RcQueuePair

namespace Handshake

/-! ## The rings -/

/-- The arguments of a ring's constructor, and what the system gives it: the address of its
    queue pair, and where its memory is, with the keys of the regions. -/
structure RingArgs where
  machine : VirtualMemory.Machine
  size : UInt64
  address : Address
  padding : Padding
  send : RemoteAddress
  receive : RemoteAddress
  readPos : RemoteAddress
  remoteReadPos : RemoteAddress

/-- What the constructor sets. -/
structure Ring where
  /-- `addr` of `exchangeQPNAndConnect` -/
  addr : Address
  qp : QueuePair
  regions : List MemoryRegion
  remoteReceive : Option RemoteAddress
  remoteReadPos : Option RemoteAddress

def Ring.start (args : RingArgs) : Ring := ⟨args.address, .new, [], none, none⟩

def RemoteAddress.region (r : RemoteAddress) (length : UInt64) (flags : List AccessFlag) :
    MemoryRegion :=
  ⟨r.address, length, flags, r.rkey⟩

def registerMrs (mrs : List MemoryRegion) : List (Op UInt8 Ring) :=
  mrs.map fun mr => .act fun r => { r with regions := r.regions ++ [mr] }

/-- Throws "size should be a power of 2". -/
def checkSize {τ υ : Type} (size : UInt64) : List (Op τ υ) :=
  if powerOfTwo size then [] else [.fails]

/-- `mmapRingBuffer`, also in `mmapSharedRingBuffer`, throws for a size that it cannot map. -/
def mmapRingBuffer {τ υ : Type} (mc : VirtualMemory.Machine) (size : UInt64) : List (Op τ υ) :=
  if mc.Mappable size.toNat then [] else [.fails]

end Handshake

/-- `sizeof(addr)` is 24. -/
def exchangeQPNAndConnect (args : RingArgs) : List (Op UInt8 Ring) :=
  [.put (args.address.bytes args.padding),
    .get 24 fun bs r => { r with addr := .ofBytes bs }] ++
  RcQueuePair.connect (fun f r => { r with qp := f r.qp }) Ring.addr

def sendRmrInfo (buffer readPos : RemoteAddress) : List (Op UInt8 Ring) :=
  [.put (RmrInfo.bytes ⟨buffer.rkey, readPos.rkey, buffer.address, readPos.address⟩)]

/-- `sizeof(rmrInfo)` is 24. -/
def receiveAndSetupRmr : List (Op UInt8 Ring) :=
  [.get 24 fun bs r =>
    let rmrInfo := RmrInfo.ofBytes bs
    { r with
      remoteReceive := some ⟨rmrInfo.bufferAddress, rmrInfo.bufferKey⟩
      remoteReadPos := some ⟨rmrInfo.readPosAddress, rmrInfo.readPosKey⟩ }]

namespace VirtualRDMARingBuffer

/-- The rings are mapped twice. -/
def sendRegions (args : RingArgs) : List MemoryRegion :=
  [args.send.region (args.size * 2) [], args.readPos.region 8 [.remoteRead]]

def receiveRegions (args : RingArgs) : List MemoryRegion :=
  [args.receive.region (args.size * 2) [.localWrite, .remoteWrite],
    args.remoteReadPos.region 8 [.localWrite]]

def regions (args : RingArgs) : List MemoryRegion := sendRegions args ++ receiveRegions args

def construct (args : RingArgs) : List (Op UInt8 Ring) :=
  exchangeQPNAndConnect args ++
    -- sendBuf and receiveBuf, each with the regions behind it
    (mmapRingBuffer args.machine args.size ++ (registerMrs (sendRegions args) ++
      (mmapRingBuffer args.machine args.size ++ (registerMrs (receiveRegions args) ++
        (checkSize args.size ++ (sendRmrInfo args.receive args.readPos ++ receiveAndSetupRmr))))))

end VirtualRDMARingBuffer

namespace RDMAMessageBuffer

def regions (args : RingArgs) : List MemoryRegion :=
  [args.send.region args.size [],
    args.receive.region args.size [.localWrite, .remoteWrite],
    args.readPos.region 8 [.remoteRead],
    args.remoteReadPos.region 8 [.localWrite]]

def construct (args : RingArgs) : List (Op UInt8 Ring) :=
  exchangeQPNAndConnect args ++ (registerMrs (regions args) ++ (checkSize args.size ++
    (sendRmrInfo args.receive args.readPos ++ receiveAndSetupRmr)))

end RDMAMessageBuffer

namespace Handshake

inductive RingKind where
  | virtualRDMARingBuffer
  | rdmaMessageBuffer
deriving DecidableEq

namespace RingKind

def regions : RingKind → RingArgs → List MemoryRegion
  | virtualRDMARingBuffer => VirtualRDMARingBuffer.regions
  | rdmaMessageBuffer => RDMAMessageBuffer.regions

def construct : RingKind → RingArgs → List (Op UInt8 Ring)
  | virtualRDMARingBuffer => VirtualRDMARingBuffer.construct
  | rdmaMessageBuffer => RDMAMessageBuffer.construct

end RingKind

/-! ## The shared-memory ring -/

/-- The files behind the memory of a `VirtualRingBuffer`. -/
structure ShmRing where
  localRw : Option ℕ
  local_ : Option ℕ
  remoteRw : Option ℕ
  remote : Option ℕ
deriving DecidableEq

def ShmRing.start : ShmRing := ⟨none, none, none, none⟩

/-- The size, and the files that `malloc_shared` and `mmapSharedRingBuffer` make. -/
structure ShmArgs where
  machine : VirtualMemory.Machine
  size : UInt64
  rwFile : ℕ
  file : ℕ

end Handshake

namespace VirtualRingBuffer

/-- The constructor.  A message of `send_fd` is one descriptor, which the receiver gets for the same
    file. -/
def constructScript (args : ShmArgs) : List (Op ℕ ShmRing) :=
  checkSize args.size ++
  (.act (fun r => { r with localRw := some args.rwFile }) ::
    .put [args.rwFile] ::
    (mmapRingBuffer args.machine args.size ++
      (.act (fun r => { r with local_ := some args.file }) ::
        .put [args.file] ::
        .get 1 (fun fds r => { r with remoteRw := fds.head? }) ::
        -- the file of the other end, which gets this end's size
        .get 1 (fun fds r => { r with remote := fds.head? }) ::
        mmapRingBuffer args.machine args.size)))

end VirtualRingBuffer

namespace Handshake

/-! ## The multi-client transports -/

/-- Where the server's memory is, and which client comes. -/
structure ServerArgs where
  clientId : ℕ
  address : Address
  receives : RemoteAddress
  doorBells : RemoteAddress
  addressPadding : Padding
  receivePadding : Padding
  doorBellPadding : Padding

structure ClientArgs where
  address : Address
  receiveBuffer : RemoteAddress
  addressPadding : Padding
  receivePadding : Padding

/-- The variables of `accept` or of `rdmaConnect`. -/
structure Peer where
  address : Address
  receiveAddr : RemoteAddress
  doorBellAddr : RemoteAddress
  qp : QueuePair
  /-- the connection is in the server's `connections` -/
  registered : Bool
  /-- receive requests posted to its queue pair -/
  posted : ℕ
  /-- the remote address of `answerWr` or `dataWr` -/
  wrAddr : Option RemoteAddress
  /-- the remote address of `doorBellWr` -/
  bellAddr : Option RemoteAddress

/-- With the own address in `address` and where the peer may write in `receiveAddr`. -/
def Peer.start (address : Address) (receiveAddr : RemoteAddress) : Peer where
  address := address
  receiveAddr := receiveAddr
  doorBellAddr := ⟨0, 0⟩
  qp := .new
  registered := false
  posted := 0
  wrAddr := none
  bellAddr := none

/-- `receiveAddr` of `accept`. -/
def ServerArgs.receiveAddr (t : Multiclient.Transport) (args : ServerArgs) : RemoteAddress :=
  args.receives.offset (t.receiveAddr args.clientId)

/-- `sizeof(char)` is one. -/
def ServerArgs.doorBellAddr (args : ServerArgs) : RemoteAddress :=
  args.doorBells.offset (UInt64.ofNat args.clientId)

def ServerArgs.peer (t : Multiclient.Transport) (args : ServerArgs) : Peer :=
  .start args.address (args.receiveAddr t)

def ClientArgs.peer (args : ClientArgs) : Peer := .start args.address args.receiveBuffer

/-- `tcp::write(sock, address); tcp::read(sock, address);` -/
def exchangeAddress (address : Address) (pad : Padding) : List (Op UInt8 Peer) :=
  [.put (address.bytes pad), .get 24 fun bs p => { p with address := .ofBytes bs }]

/-- `tcp::write(sock, receiveAddr); tcp::read(sock, receiveAddr);` -/
def exchangeReceiveAddr (receiveAddr : RemoteAddress) (pad : Padding) : List (Op UInt8 Peer) :=
  [.put (receiveAddr.bytes pad), .get 16 fun bs p => { p with receiveAddr := .ofBytes bs }]

/-- `qp.connect(address);` -/
def connectQp : List (Op UInt8 Peer) :=
  RcQueuePair.connect (fun f p => { p with qp := f p.qp }) Peer.address

/-- `setRemoteAddress(receiveAddr)` of `answerWr` or `dataWr`. -/
def setRemoteAddress : Op UInt8 Peer := .act fun p => { p with wrAddr := some p.receiveAddr }

/-- The connection is put into `connections`. -/
def emplaceBack : Op UInt8 Peer := .act fun p => { p with registered := true }

end Handshake

namespace MulticlientRDMATransportServer

def acceptScript (args : ServerArgs) : List (Op UInt8 Peer) :=
  exchangeAddress args.address args.addressPadding ++
  (exchangeReceiveAddr (args.receiveAddr .doorbell) args.receivePadding ++
    (.put (args.doorBellAddr.bytes args.doorBellPadding) ::
      (connectQp ++ [setRemoteAddress, emplaceBack])))

end MulticlientRDMATransportServer

namespace MulticlientRDMARecvTransportServer

def acceptScript (args : ServerArgs) : List (Op UInt8 Peer) :=
  emplaceBack ::
  -- postRecvRequest
  .act (fun p => { p with posted := p.posted + 1 }) ::
  (exchangeAddress args.address args.addressPadding ++
    (exchangeReceiveAddr (args.receiveAddr .recv) args.receivePadding ++
      (setRemoteAddress :: connectQp)))

end MulticlientRDMARecvTransportServer

namespace MulticlientRDMADistinctMrTransportServer

def acceptScript (args : ServerArgs) : List (Op UInt8 Peer) :=
  emplaceBack ::
  (exchangeAddress args.address args.addressPadding ++
    (exchangeReceiveAddr (args.receiveAddr .distinctMr) args.receivePadding ++
      (setRemoteAddress :: connectQp)))

end MulticlientRDMADistinctMrTransportServer

namespace MultiClientRDMATransportClient

def rdmaConnect (args : ClientArgs) : List (Op UInt8 Peer) :=
  exchangeAddress args.address args.addressPadding ++
  (exchangeReceiveAddr args.receiveBuffer args.receivePadding ++
    (.get 16 (fun bs p => { p with doorBellAddr := .ofBytes bs }) ::
      (connectQp ++
        [setRemoteAddress, .act fun p => { p with bellAddr := some p.doorBellAddr }])))

end MultiClientRDMATransportClient

namespace MulticlientRDMARecvTransportClient

def rdmaConnect (args : ClientArgs) : List (Op UInt8 Peer) :=
  exchangeAddress args.address args.addressPadding ++
  (exchangeReceiveAddr args.receiveBuffer args.receivePadding ++
    (connectQp ++ [setRemoteAddress]))

end MulticlientRDMARecvTransportClient

namespace MulticlientRDMADistinctMrTransportClient

def rdmaConnect (args : ClientArgs) : List (Op UInt8 Peer) :=
  exchangeAddress args.address args.addressPadding ++
  (exchangeReceiveAddr args.receiveBuffer args.receivePadding ++
    (connectQp ++ [setRemoteAddress]))

end MulticlientRDMADistinctMrTransportClient

namespace Handshake

def acceptScript : Multiclient.Transport → ServerArgs → List (Op UInt8 Peer)
  | .doorbell => MulticlientRDMATransportServer.acceptScript
  | .recv => MulticlientRDMARecvTransportServer.acceptScript
  | .distinctMr => MulticlientRDMADistinctMrTransportServer.acceptScript

def rdmaConnect : Multiclient.Transport → ClientArgs → List (Op UInt8 Peer)
  | .doorbell => MultiClientRDMATransportClient.rdmaConnect
  | .recv => MulticlientRDMARecvTransportClient.rdmaConnect
  | .distinctMr => MulticlientRDMADistinctMrTransportClient.rdmaConnect

end Handshake

end L5RDMA
