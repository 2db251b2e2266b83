/-
  The objects that own file descriptors: `Socket`, `ShmMapping`,
  `WraparoundBuffer`, and `VirtualRingBuffer`, which has four of them.

  A constructor that is given a descriptor number takes the descriptor over,
  and the destructor closes it.  The three classes differ in when they do so:
  a `Socket` closes numbers from 0 on, the other two those above 0.

  An object is at an address.  The steps are those that make an object, move
  it or end its life, one at a time, and the system calls that return a new
  number (`socket`, `accept`, `shm_open`, `recvmsg`); the functions that are
  several such steps are lists of them.
-/
import L5RDMA.Lib.Descriptors
import L5RDMA.Lib.Run

namespace L5RDMA

namespace Descriptor

open Descriptors (Table Close Holding)

inductive Kind where
  | socket
  | shmMapping
  | wraparoundBuffer
deriving DecidableEq

/-- The test of the destructor. -/
def Kind.closes : Kind → Int → Bool
  | .socket, s => !(s < 0)
  | .shmMapping, fd | .wraparoundBuffer, fd => fd > 0

structure Object where
  kind : Kind
  fd : Int
  /-- the descriptor that `fd` was when the object got it -/
  serial : Option ℕ

/-- What the destructor is going to close. -/
def Object.holds (o : Object) : Option Holding :=
  if o.kind.closes o.fd then some ⟨o.fd.toNat, o.serial⟩ else none

structure State where
  table : Table
  /-- the live objects, by their addresses -/
  objects : ℕ → Option Object
  /-- the calls of `close` so far -/
  closes : List Close

/-- A process that has inherited the descriptors with numbers below `n`. -/
def init (n : ℕ) : State where
  table := ⟨fun k => if k < n then some k else none, n⟩
  objects := fun _ => none
  closes := []

namespace State
variable (s : State)

/-- What the object at an address is going to close. -/
def hold (i : ℕ) : Option Holding := (s.objects i).bind Object.holds

def opened (fd : Int) : Bool := 0 ≤ fd ∧ (s.table.serial fd.toNat).isSome

def put (i : ℕ) (o : Option Object) : State := { s with objects := Function.update s.objects i o }

/-- `close` by the object `o`. -/
def closeBy (o : Object) : State :=
  match o.holds with
  | none => s
  | some h =>
    { s with
      table := s.table.close h.number
      closes := s.closes ++ [⟨h, s.table.serial h.number⟩] }

end State

inductive Act where
  /-- a system call returns the new descriptor number `n` -/
  | open_ (n : ℕ)
  /-- `fd` is taken over by a new object; with -1 this is the default constructor -/
  | construct (kind : Kind) (this : ℕ) (fd : Int)
  | moveConstruct (this other : ℕ)
  | moveAssign (this other : ℕ)
  /-- `Socket::close` -/
  | close (this : ℕ)
  | destroy (this : ℕ)

def step (s : State) : Act → Option State
  | .open_ n =>
    match s.table.serial n with
    | none => some { s with table := s.table.open_ n }
    | some _ => none
  | .construct kind this fd =>
    match s.objects this with
    | some _ => none
    | none =>
      -- a number is passed on as long as its descriptor is open
      if fd < 0 ∨ s.opened fd then
        some (s.put this (some ⟨kind, fd, s.table.serial fd.toNat⟩))
      else none
  | .moveConstruct this other =>
    match s.objects this, s.objects other with
    | none, some o => some ((s.put this (some o)).put other (some ⟨o.kind, -1, none⟩))
    | _, _ => none
  | .moveAssign this other =>
    match s.objects this, s.objects other with
    | some o, some o' =>
      if o.kind = o'.kind then some ((s.put this (some o')).put other (some o)) else none
    | _, _ => none
  | .close this =>
    match s.objects this with
    | some o =>
      if o.kind = .socket then
        some ((s.closeBy o).put this (some (if o.fd < 0 then o else ⟨.socket, -1, none⟩)))
      else none
    | none => none
  | .destroy this =>
    match s.objects this with
    | some o => some ((s.closeBy o).put this none)
    | none => none

/-! ## Functions of several steps -/

def Socket.fromRaw (this : ℕ) (socket : ℕ) : List Act := [.construct .socket this socket]

/-- `Socket::create`; `accept` makes its socket alike. -/
def Socket.create (this raw : ℕ) : List Act := .open_ raw :: Socket.fromRaw this raw

/-- `malloc_shared(fd, size)`. -/
def mallocSharedFd (this fd : ℕ) : List Act := [.construct .shmMapping this fd]

/-- `malloc_shared(name, size)`. -/
def mallocShared (this fd : ℕ) : List Act := .open_ fd :: mallocSharedFd this fd

def mmapRingBuffer (this fd : ℕ) : List Act := [.construct .wraparoundBuffer this fd]

def mmapSharedRingBuffer (this fd : ℕ) : List Act := .open_ fd :: mmapRingBuffer this fd

/-- `this = other` for a temporary `other`. -/
def assignTemporary (this other : ℕ) : List Act := [.moveAssign this other, .destroy other]

namespace VirtualRingBuffer

/-- A call of the constructor: where the object, its local variables and the temporaries
    are, and the numbers it gets from the kernel. -/
structure Construction where
  this : ℕ
  remoteRwFd : ℕ
  remoteFd : ℕ
  temporary : ℕ
  localRwNumber : ℕ
  localNumber : ℕ
  remoteRwNumber : ℕ
  remoteNumber : ℕ
  /-- the one is still open when the kernel gives out the other -/
  distinct : remoteRwNumber ≠ remoteNumber

/-! The members are at consecutive addresses. -/

def localRw (this : ℕ) : ℕ := this
def local_ (this : ℕ) : ℕ := this + 1
def remoteRw (this : ℕ) : ℕ := this + 2
def remote (this : ℕ) : ℕ := this + 3

def construct (c : Construction) : List Act :=
  [.construct .shmMapping (localRw c.this) (-1), .construct .wraparoundBuffer (local_ c.this) (-1),
    .construct .shmMapping (remoteRw c.this) (-1),
    .construct .wraparoundBuffer (remote c.this) (-1)] ++
  (mallocShared c.temporary c.localRwNumber ++
    assignTemporary (localRw c.this) c.temporary) ++
  (mmapSharedRingBuffer c.temporary c.localNumber ++
    assignTemporary (local_ c.this) c.temporary) ++
  -- `Socket::fromRaw(domain::receive_fd(sock))`
  (.open_ c.remoteRwNumber :: Socket.fromRaw c.remoteRwFd c.remoteRwNumber ++
    mallocSharedFd c.temporary c.remoteRwNumber ++
    assignTemporary (remoteRw c.this) c.temporary) ++
  (.open_ c.remoteNumber :: Socket.fromRaw c.remoteFd c.remoteNumber ++
    mmapRingBuffer c.temporary c.remoteNumber ++
    assignTemporary (remote c.this) c.temporary) ++
  -- the local variables go out of scope
  [.destroy c.remoteFd, .destroy c.remoteRwFd]

def moveConstruct (this other : ℕ) : List Act :=
  [.moveConstruct (localRw this) (localRw other), .moveConstruct (local_ this) (local_ other),
    .moveConstruct (remoteRw this) (remoteRw other), .moveConstruct (remote this) (remote other)]

def destroy (this : ℕ) : List Act :=
  [.destroy (remote this), .destroy (remoteRw this), .destroy (local_ this),
    .destroy (localRw this)]

end VirtualRingBuffer

end Descriptor

end L5RDMA
