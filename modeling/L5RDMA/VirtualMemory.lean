/-
  `util/virtualMemory`: `mmapRingBuffer`, which maps a file twice in a row, and
  `malloc_shared`, which maps it once, system call by system call.

  Any number of processes are in any number of calls.  The kernel chooses an
  address where nothing is mapped, unless the caller fixes it with `MAP_FIXED`;
  it refuses with `EINVAL` what the manual pages exclude, and may fail for other
  reasons.  A mapping covers whole pages.

  Files are in `/dev/shm`; bytes behind the last page of a file cannot be
  accessed.
-/
import L5RDMA.Lib.AddressSpace
import L5RDMA.Lib.Run

namespace L5RDMA

namespace VirtualMemory

/-- The size of a page, and where the addresses of a process end. -/
structure Machine where
  page : ℕ
  top : ℕ
  page_pos : 0 < page
  even : 2 ∣ page
  top_le : top ≤ 2 ^ 63

/-- The bytes of the pages that `len` bytes need. -/
def Machine.roundUp (mc : Machine) (len : ℕ) : ℕ := (len + mc.page - 1) / mc.page * mc.page

/-- A ring of `size` bytes is some whole pages, and twice as many fit into the addresses. -/
def Machine.Mappable (mc : Machine) (size : ℕ) : Prop := mc.page ∣ size ∧ 2 * size ≤ mc.top

instance (mc : Machine) (size : ℕ) : Decidable (mc.Mappable size) :=
  inferInstanceAs (Decidable (mc.page ∣ size ∧ 2 * size ≤ mc.top))

/-- What may be mapped. -/
inductive Object where
  | file (f : ℕ)
  | anonymous
deriving DecidableEq

inductive Errno where
  | einval
  | other (text : String)
deriving DecidableEq

def strerror : Errno → String
  | .einval => "Invalid argument"
  | .other text => text

/-- What `mmap` returns. -/
inductive Result where
  | addr (a : ℕ)
  | failed (errno : Errno)
deriving DecidableEq

/-- `MAP_FAILED`. -/
def mapFailed : ℕ := 2 ^ 64 - 1

namespace Result

def ptr : Result → ℕ
  | addr a => a
  | failed _ => mapFailed

/-- `strerror(errno)` behind the call; there is no error behind one that has succeeded. -/
def error : Result → String
  | addr _ => ""
  | failed errno => strerror errno

end Result

namespace Machine
variable (mc : Machine)

/-- What `mmap(nullptr, len, …)` may return. -/
def MayMap (sp : AddressSpace Object) (len : ℕ) : Result → Prop
  | .addr a =>
    0 < len ∧ mc.page ∣ a ∧ a + mc.roundUp len ≤ mc.top ∧ sp.Free a (mc.roundUp len)
  | .failed .einval => len = 0
  | .failed (.other _) => 0 < len

/-- What `mmap(addr, len, …)` with `MAP_FIXED` may return. -/
def MayMapFixed (addr len : ℕ) : Result → Prop
  | .addr a => a = addr ∧ mc.page ∣ addr ∧ 0 < len ∧ addr + mc.roundUp len ≤ mc.top
  | .failed .einval => ¬ (mc.page ∣ addr ∧ 0 < len)
  | .failed (.other _) => mc.page ∣ addr ∧ 0 < len

instance (sp : AddressSpace Object) (len : ℕ) : DecidablePred (mc.MayMap sp len)
  | .addr a =>
    inferInstanceAs (Decidable (0 < len ∧ mc.page ∣ a ∧ a + mc.roundUp len ≤ mc.top ∧
      sp.Free a (mc.roundUp len)))
  | .failed .einval => inferInstanceAs (Decidable (len = 0))
  | .failed (.other _) => inferInstanceAs (Decidable (0 < len))

instance (addr len : ℕ) : DecidablePred (mc.MayMapFixed addr len)
  | .addr a =>
    inferInstanceAs (Decidable (a = addr ∧ mc.page ∣ addr ∧ 0 < len ∧
      addr + mc.roundUp len ≤ mc.top))
  | .failed .einval => inferInstanceAs (Decidable (¬ (mc.page ∣ addr ∧ 0 < len)))
  | .failed (.other _) => inferInstanceAs (Decidable (mc.page ∣ addr ∧ 0 < len))

end Machine

/-! ## Calls -/

inductive Function where
  | mmapRingBuffer (init : Bool)
  /-- `malloc_shared(name, size)` behind `shm_unlink`, or `malloc_shared(fd, size)` -/
  | mallocShared (byName : Bool)
deriving DecidableEq

/-- Where a call is: before the system call of that name, or at its end. -/
inductive Pc where
  | ftruncate
  /-- `mmap` of enough continuous memory -/
  | reserve
  /-- `mmap` of the first half -/
  | first (ptr : ℕ)
  | second (ptr : ℕ)
  /-- `mmap` of `malloc_shared` -/
  | map
  | memset (ptr : ℕ)
  | returned (ptr : ℕ)
  /-- `leaked` is memory that it has mapped and nobody unmaps -/
  | threw (what : String) (leaked : Option ℕ)
  | segfault
deriving DecidableEq

/-- A call, with the file of its descriptor, and what it has returned. -/
structure Call where
  proc : ℕ
  function : Function
  file : ℕ
  size : UInt64
  pc : Pc

/-- `size * 2`. -/
def Call.twiceSize (call : Call) : ℕ := (call.size * 2).toNat

/-- `&ptr[size]`. -/
def Call.secondHalf (call : Call) (ptr : ℕ) : ℕ := (ptr + call.size.toNat) % 2 ^ 64

/-- The bytes that the deleter unmaps. -/
def Call.mapLength (call : Call) : ℕ :=
  match call.function with
  | .mmapRingBuffer _ => call.twiceSize
  | .mallocShared _ => call.size.toNat

/-- What `mmap` has mapped if it returned `ptr`. -/
def held (ptr : ℕ) : Option ℕ := if ptr = mapFailed then none else some ptr

/-- After the last `mmap`. -/
def Call.mapped (call : Call) (ptr : ℕ) : Call :=
  { call with
    pc := match call.function with
      | .mmapRingBuffer true | .mallocShared true => .memset ptr
      | .mmapRingBuffer false | .mallocShared false => .returned ptr }

structure State where
  /-- of each process -/
  spaces : ℕ → AddressSpace Object
  /-- of each file -/
  length : ℕ → ℕ
  memory : AddressSpace.Objects Object
  calls : ℕ → Option Call

/-- Nothing has been called yet; the processes have mapped something already. -/
def init (spaces : ℕ → AddressSpace Object) (length : ℕ → ℕ)
    (memory : AddressSpace.Objects Object) : State :=
  ⟨spaces, length, memory, fun _ => none⟩

inductive Act where
  | call (c proc : ℕ) (function : Function) (file : ℕ) (size : UInt64)
  | ftruncate (c : ℕ) (ok : Bool)
  | mmap (c : ℕ) (r : Result)
  | memset (c : ℕ)
  /-- the program copies bytes to `&data[off]` -/
  | store (c off : ℕ) (bs : List UInt8)
  /-- the deleter, with the last `shared_ptr` -/
  | destroy (c : ℕ)

namespace State
variable (mc : Machine) (s : State)

/-- What the process can access. -/
def view (proc : ℕ) : AddressSpace Object := fun a =>
  match s.spaces proc a with
  | some (.file f, i) => if i < mc.roundUp (s.length f) then some (.file f, i) else none
  | some (.anonymous, i) => some (.anonymous, i)
  | none => none

def setCall (c : ℕ) (call : Call) : State :=
  { s with calls := Function.update s.calls c (some call) }

def setSpace (proc : ℕ) (sp : AddressSpace Object) : State :=
  { s with spaces := Function.update s.spaces proc sp }

/-- The bytes behind the end are gone. -/
def truncate (f : ℕ) (size : ℕ) : State :=
  { s with
    length := Function.update s.length f size
    memory := Function.update s.memory (.file f) fun i =>
      if i < size then s.memory (.file f) i else 0 }

/-- `ftruncate(fd, size)`, which takes the size as a signed number. -/
def ftruncate (c : ℕ) (call : Call) : Bool → Option State
  | true =>
    if call.size.toNat < 2 ^ 63 then
      let pc := match call.function with
        | .mmapRingBuffer _ => .reserve
        | .mallocShared _ => .map
      some ((s.truncate call.file call.size.toNat).setCall c { call with pc := pc })
    else none
  | false => some (s.setCall c { call with pc := .threw "ftruncate failed" none })

/-- The file of the call is where `mmap` has mapped it. -/
def mapFile (call : Call) : Result → State
  | .addr a =>
    s.setSpace call.proc
      ((s.spaces call.proc).map a (mc.roundUp call.size.toNat) (.file call.file))
  | .failed _ => s

/-- `mmap` returns `r`. -/
def mmap (c : ℕ) (call : Call) (r : Result) : Option State :=
  let sp := s.spaces call.proc
  match call.pc with
  | .reserve =>
    if mc.MayMap sp call.twiceSize r then
      let s := match r with
        | .addr a => s.setSpace call.proc (sp.map a (mc.roundUp call.twiceSize) .anonymous)
        | .failed _ => s
      -- the result is not checked
      some (s.setCall c { call with pc := .first r.ptr })
    else none
  | .first ptr =>
    if mc.MayMapFixed ptr call.size.toNat r then
      -- a failure is not noticed if `ptr` is `MAP_FAILED` itself
      let pc := if r.ptr = ptr then .second ptr
        else .threw ("mmaping the first wraparound failed " ++ r.error) (held ptr)
      some ((s.mapFile mc call r).setCall c { call with pc := pc })
    else none
  | .second ptr =>
    if mc.MayMapFixed (call.secondHalf ptr) call.size.toNat r then
      let call' := if r.ptr = call.secondHalf ptr then call.mapped ptr
        else { call with
          pc := .threw ("mmaping the second wraparound failed " ++ r.error) (held ptr) }
      some ((s.mapFile mc call r).setCall c call')
    else none
  | .map =>
    if mc.MayMap sp call.size.toNat r then
      -- the result is not checked
      some ((s.mapFile mc call r).setCall c (call.mapped r.ptr))
    else none
  | _ => none

/-- `memset(ptr, 0, size)`. -/
def memset (c : ℕ) (call : Call) (ptr : ℕ) : State :=
  match (s.view mc call.proc).store s.memory ptr (List.replicate call.size.toNat 0) with
  | some memory => { s with memory := memory }.setCall c { call with pc := .returned ptr }
  | none => s.setCall c { call with pc := .segfault }

/-- The deleter of `data`: `munmap` refuses an address that is not the start of a page. -/
def unmap (call : Call) (ptr : ℕ) : State :=
  if mc.page ∣ ptr then
    s.setSpace call.proc ((s.spaces call.proc).unmap ptr (mc.roundUp call.mapLength))
  else s

/-- The bytes that the program finds at `&data[off]`. -/
def load (c off len : ℕ) : Option (List UInt8) :=
  match s.calls c with
  | some call =>
    match call.pc with
    | .returned ptr => (s.view mc call.proc).load s.memory (ptr + off) len
    | _ => none
  | none => none

end State

def step (mc : Machine) (s : State) : Act → Option State
  | .call c proc function file size =>
    match s.calls c with
    | some _ => none
    | none =>
      let pc := match function with
        | .mmapRingBuffer _ | .mallocShared true => .ftruncate
        | .mallocShared false => .map
      some (s.setCall c ⟨proc, function, file, size, pc⟩)
  | .ftruncate c ok =>
    match s.calls c with
    | some call => if call.pc = .ftruncate then s.ftruncate c call ok else none
    | none => none
  | .mmap c r =>
    match s.calls c with
    | some call => s.mmap mc c call r
    | none => none
  | .memset c =>
    match s.calls c with
    | some call =>
      match call.pc with
      | .memset ptr => some (s.memset mc c call ptr)
      | _ => none
    | none => none
  | .store c off bs =>
    match s.calls c with
    | some call =>
      match call.pc with
      | .returned ptr =>
        ((s.view mc call.proc).store s.memory (ptr + off) bs).map fun memory =>
          { s with memory := memory }
      | _ => none
    | none => none
  | .destroy c =>
    match s.calls c with
    | some call =>
      match call.pc with
      | .returned ptr =>
        some { s.unmap mc call ptr with calls := Function.update s.calls c none }
      | _ => none
    | none => none

end VirtualMemory

end L5RDMA
