/-
  How the clients over TCP read the string given to `connect`, "<0.0.0.0:port>",
  and where they connect to.

  All six split it at the first colon, read what stands behind it with
  `std::stoi`, and pass the `int` where `uint16_t port` is expected.  Five call
  `tcp::connect(sock, ip, port)`; the multi-client TCP client fills in the same
  socket address itself.  What comes after (the ring, `rdmaConnect`) does not
  read the string.
-/
import L5RDMA.Lib.Strings

namespace L5RDMA

namespace Connections

open Strings

/-- The exceptions, those of `stoi` among them. -/
inductive Thrown where
  | runtimeError (what : String)
  | stoi (e : StoiError)
deriving DecidableEq

structure SockaddrIn where
  sinFamily : UInt16
  sinPort : UInt16
  sinAddr : UInt32
deriving DecidableEq

def AF_INET : UInt16 := 2

/-- To network byte order, on a little-endian machine. -/
def htons (hostshort : UInt16) : UInt16 := hostshort <<< 8 ||| hostshort >>> 8

/-- What the C library and the kernel do. -/
structure Os where
  /-- the address that `inet_pton` stores for a C string, none if it is not in dotted form -/
  inetPton : List Char → Option UInt32
  /-- the text of the error of `::connect`, none if it succeeds -/
  connect : SockaddrIn → Option String

/-- A call that has connected: the pair that was handed on, and the address of it. -/
structure Connected where
  ip : List Char
  port : UInt16
  dest : SockaddrIn
deriving DecidableEq

/-- `std::string::c_str`: as a C string, it ends at the first NUL. -/
def cStr (str : List Char) : List Char := str.takeWhile (· ≠ '\x00')

end Connections

namespace tcp

open Connections

/-- `connect` with a socket address. -/
def connectAddr (os : Os) (dest : SockaddrIn) : Except Thrown Unit :=
  match os.connect dest with
  | none => .ok ()
  | some strerror => .error (.runtimeError ("Couldn't connect: " ++ strerror))

/-- What `inet_pton` returns is ignored: `addr` is zero where it stores nothing. -/
def connect (os : Os) (ip : List Char) (port : UInt16) : Except Thrown Connected := do
  let addr : SockaddrIn := ⟨AF_INET, htons port, (os.inetPton (cStr ip)).getD 0⟩
  connectAddr os addr
  return ⟨ip, port, addr⟩

end tcp

namespace Connections

open Strings

/-- The host and the port of a string, before the port is narrowed. -/
def parse (whereTo : List Char) : Except Thrown (List Char × ℤ) :=
  match find whereTo ':' with
  | none => .error (.runtimeError "usage: <0.0.0.0:port>")
  | some pos =>
    match stoi (whereTo.drop (pos + 1)) with
    | .error e => .error (.stoi e)
    | .ok port => .ok (whereTo.take pos, port)

/-- `connect` of a string, over `connect` of a host and a port. -/
def connectString (connect : List Char → UInt16 → Except Thrown Connected)
    (whereTo : List Char) : Except Thrown Connected := do
  let (ip, port) ← parse whereTo
  -- the conversion to the type of the parameter keeps the low 16 bits
  connect ip (UInt16.ofInt port)

end Connections

open Connections

namespace TcpTransportClient

def connectImpl (os : Os) : List Char → Except Thrown Connected := connectString (tcp.connect os)

end TcpTransportClient

namespace RdmaTransportClient

def connectImpl (os : Os) : List Char → Except Thrown Connected := connectString (tcp.connect os)

end RdmaTransportClient

namespace MulticlientTCPTransportClient

/-- `connect` of a host and a port. -/
def connectTo (os : Os) (ip : List Char) (port : UInt16) : Except Thrown Connected := do
  let addr : SockaddrIn := ⟨AF_INET, htons port, (os.inetPton (cStr ip)).getD 0⟩
  tcp.connectAddr os addr
  return ⟨ip, port, addr⟩

def connect (os : Os) : List Char → Except Thrown Connected := connectString (connectTo os)

end MulticlientTCPTransportClient

namespace MultiClientRDMATransportClient

/-- `connect` of a host and a port. -/
def connectTo : Os → List Char → UInt16 → Except Thrown Connected := tcp.connect

def connect (os : Os) : List Char → Except Thrown Connected := connectString (connectTo os)

end MultiClientRDMATransportClient

namespace MulticlientRDMADistinctMrTransportClient

/-- `connect` of a host and a port. -/
def connectTo : Os → List Char → UInt16 → Except Thrown Connected := tcp.connect

def connect (os : Os) : List Char → Except Thrown Connected := connectString (connectTo os)

end MulticlientRDMADistinctMrTransportClient

namespace MulticlientRDMARecvTransportClient

/-- `connect` of a host and a port. -/
def connectTo : Os → List Char → UInt16 → Except Thrown Connected := tcp.connect

def connect (os : Os) : List Char → Except Thrown Connected := connectString (connectTo os)

end MulticlientRDMARecvTransportClient

namespace Connections

inductive Client where
  | tcp
  | rdma
  | multiclientTcp
  | multiclientRdma
  | multiclientDistinctMr
  | multiclientRecv
deriving DecidableEq

def Client.connect : Client → Os → List Char → Except Thrown Connected
  | tcp => TcpTransportClient.connectImpl
  | rdma => RdmaTransportClient.connectImpl
  | multiclientTcp => MulticlientTCPTransportClient.connect
  | multiclientRdma => MultiClientRDMATransportClient.connect
  | multiclientDistinctMr => MulticlientRDMADistinctMrTransportClient.connect
  | multiclientRecv => MulticlientRDMARecvTransportClient.connect

end Connections

end L5RDMA
