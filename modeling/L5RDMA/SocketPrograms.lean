/-
  Two programs at the ends of a socket connection.

  A program calls `write` and `read` of `util/socket`, one call after the other;
  in between it may do something else, or throw.  A call is the loop of
  `L5RDMA.Sockets` around `::send` or `::recv`, each of which moves some bytes
  or fails; a failure throws, and so does the program that made the call.

  The kernel holds at most `capacity` bytes of each direction.  A `read` is into
  an object of the program's own.
-/
import L5RDMA.Sockets
import L5RDMA.Lib.Duplex

namespace L5RDMA

namespace SocketPrograms

open Duplex (Side Call)
open Socket (Kind Result Stream Writer Reader MaySend)

/-- Where a program is: between two calls, or in the call that it makes in state `x`. -/
inductive Pos (ρ : Type) where
  | between (x : ρ)
  | writing (x : ρ) (w : Writer) (next : ρ)
  | reading (x : ρ) (size : ℕ) (r : Reader) (next : List UInt8 → ρ)

structure End (ρ : Type) where
  pos : Pos ρ
  /-- what it has thrown -/
  threw : Option String

/-- The streams are named after the end that writes to them. -/
structure State (ρ : Type) where
  ends : Side → End ρ
  stream : Side → Stream

inductive Act where
  /-- an end makes its next call, or does something else -/
  | call (e : Side)
  | send (e : Side) (res : Result)
  | recv (e : Side) (res : Result)
  /-- what an end does between two calls throws -/
  | throw (e : Side) (what : String)
deriving DecidableEq

variable {ρ : Type}

def start (x : Side → ρ) : State ρ where
  ends e := ⟨.between (x e), none⟩
  stream _ := ⟨[], false⟩

def State.setEnd (s : State ρ) (e : Side) (p : End ρ) : State ρ :=
  { s with ends := Function.update s.ends e p }

/-- The end `e` in a `write` whose loop is at `w.pc`. -/
def inWrite (x : ρ) (w : Writer) (next : ρ) : End ρ :=
  match w.pc with
  | .returned => ⟨.between next, none⟩
  | .call _ _ => ⟨.writing x w next, none⟩
  | .threw what => ⟨.writing x w next, some what⟩

/-- The end `e` in a `read` whose loop is at `r.pc`; the object is at address 0. -/
def inRead (x : ρ) (size : ℕ) (r : Reader) (next : List UInt8 → ρ) : End ρ :=
  match r.pc with
  | .returned => ⟨.between (next (Mem.read id r.mem 0 size)), none⟩
  | .call _ _ => ⟨.reading x size r next, none⟩
  | .threw what => ⟨.reading x size r next, some what⟩

/-- The call that a program makes in state `x`. -/
def begin_ (x : ρ) : Call UInt8 ρ → Option (End ρ)
  | .write data next => some (inWrite x (.start data) next)
  | .read size next => some (inRead x size (.start 0 size fun _ => 0) next)
  | .change next => some ⟨.between next, none⟩
  | .stop => none

/-- There is room for what `::send` takes. -/
def HasRoom (capacity : ℕ) (st : Stream) : Result → Prop
  | .count n => st.pending.length + n ≤ capacity
  | .failed _ => True

instance (capacity : ℕ) (st : Stream) : DecidablePred (HasRoom capacity st)
  | .count n => inferInstanceAs (Decidable (st.pending.length + n ≤ capacity))
  | .failed _ => .isTrue trivial

def step (kind : Kind) (capacity : ℕ) (prog : Side → ρ → Call UInt8 ρ) (s : State ρ) :
    Act → Option (State ρ)
  | .call e =>
    match s.ends e with
    | ⟨.between x, none⟩ => (begin_ x (prog e x)).map (s.setEnd e)
    | _ => none
  | .send e res =>
    match s.ends e with
    | ⟨.writing x w next, none⟩ =>
      if HasRoom capacity (s.stream e) res then
        (w.send kind res).map fun (sent, w) =>
          { s.setEnd e (inWrite x w next) with
            stream := Function.update s.stream e
              { s.stream e with pending := (s.stream e).pending ++ sent } }
      else none
    | _ => none
  | .recv e res =>
    match s.ends e with
    | ⟨.reading x size r next, none⟩ =>
      (r.recv kind (s.stream e.other) res).map fun (st, r) =>
        { s.setEnd e (inRead x size r next) with
          stream := Function.update s.stream e.other st }
    | _ => none
  | .throw e what =>
    match s.ends e with
    | ⟨.between x, none⟩ => some (s.setEnd e ⟨.between x, some what⟩)
    | _ => none

/-- The state of a program, as it was before the call that it is in. -/
def Pos.state : Pos ρ → ρ
  | .between x | .writing x _ _ | .reading x _ _ _ => x

/-- Nothing fails. -/
def Act.moves : Act → Bool
  | .call _ => true
  | .send _ (.count _) | .recv _ (.count _) => true
  | _ => false

end SocketPrograms

end L5RDMA
