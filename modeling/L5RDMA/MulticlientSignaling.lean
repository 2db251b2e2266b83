/-
  The servers' calls of `accept` and `send`, with the queue pairs of the
  connections and the completion queue that they share.

  A call is the program of `WorkRequests`, taken one step after the other; in
  between, the network card executes what is posted.  A post goes to the queue
  pair of the connection that `send` answers.  `sharedCq` gives a poll whatever
  completion is the oldest.
-/
import L5RDMA.Lib.SharedQueue
import L5RDMA.WorkRequests

namespace L5RDMA

namespace Posting

open Fallible (Op)
open SharedQueue (Queues Completion)
open Verbs (WorkRequests)

/-- The connection on whose queue pair the call posts. -/
def Server.Method.connection : Server.Method → Option ℕ
  | .accept _ => none
  | .send receiverId _ | .sendWork receiverId _ => some receiverId

/-- A call in progress, and what it has left to do. -/
structure Call (M W : Type) where
  method : Server.Method
  rest : List (Op (Server M W) (NetCall W))

/-- A server at work.  `lastPost` and `polled` serve only to say what is right: the request
    posted last, and for each poll, the request posted last before and the completion that it
    has consumed. -/
structure Serving (M W : Type) where
  server : Server M W
  queues : Queues ℕ
  call : Option (Call M W)
  lastPost : Option (Completion ℕ)
  polled : List (Option (Completion ℕ) × Completion ℕ)

namespace Serving
variable {M S W : Type} (v : WorkRequests M S W)

def init (t : Multiclient.Transport) : Serving M W where
  server := Server.create v t
  queues := Queues.init
  call := none
  lastPost := none
  polled := []

/-- A call on the network, made on behalf of `connection`. -/
def netCall (s : Serving M W) (connection : Option ℕ) : NetCall W → Option (Serving M W)
  | .connect => some s
  | .post wr =>
    connection.map fun i =>
      { s with
        queues := s.queues.post i (v.flags wr .SIGNALED)
        lastPost := some ⟨i, (s.queues.queuePairs i).posted⟩ }
  -- pollSendCompletionQueueBlocking
  | .completion =>
    s.queues.poll.map fun (c, queues) =>
      { s with queues := queues, polled := s.polled ++ [(s.lastPost, c)] }

/-- The server takes its next step. -/
def advance (s : Serving M W) : Option (Serving M W) :=
  match s.call with
  | none => none
  | some ⟨_, []⟩ => some { s with call := none }
  | some ⟨m, .change f :: rest⟩ => some { s with server := f s.server, call := some ⟨m, rest⟩ }
  | some ⟨m, .call c :: rest⟩ =>
    (s.netCall v m.connection c).map fun s => { s with call := some ⟨m, rest⟩ }

/-- The choices of the caller, of the scheduler and of the network card. -/
inductive Act where
  | call (m : Server.Method)
  | server
  /-- the card executes the oldest request of connection `i` -/
  | card (i : ℕ)

def step (t : Multiclient.Transport) (s : Serving M W) : Act → Option (Serving M W)
  | .call m =>
    match s.call with
    | none => (Server.method v t s.server m).map fun ops => { s with call := some ⟨m, ops⟩ }
    | some _ => none
  | .server => s.advance v
  | .card i => (s.queues.execute i).map fun queues => { s with queues := queues }

end Serving

end Posting

end L5RDMA
