/-
  What the rings use of `util/RDMANetworking`, `rdma/QueuePair` and
  `rdma/CompletionQueuePair`: the limits of the queues, and polling and waiting
  for completions of the send queue.

  Nothing is posted to the receive queue of a ring's queue pair, so that every
  event of the channel comes from the send queue.
-/
import L5RDMA.Lib.Channel

namespace L5RDMA

open Verbs

/-- `QueuePair::maxInlineSize`. -/
def maxInlineSize : UInt64 := 512

/-- `QueuePair::maxOutstandingSendWrs`. -/
def maxOutstandingSendWrs : ℕ := 16351

/-- `CompletionQueuePair::CQ_SIZE`. -/
def cqSize : ℕ := 100

/-- `pollSendCompletionQueue`: the id of the oldest completion, or the largest number if
    there is none. -/
def pollSendCompletionQueue (cq : CompletionQueue) : UInt64 × CompletionQueue :=
  match cq.poll with
  | some r => r
  | none => (0xFFFFFFFFFFFFFFFF, cq)

/-- Where a call of `waitForCompletion` is. -/
inductive WaitPc where
  | getEvent
  | requestNotify
  /-- in the loop that polls all work completions -/
  | poll
deriving DecidableEq

/-- The next step of `waitForCompletion`; no position is left when it returns.  Blocks
    while there is no event. -/
def waitForCompletion (cq : CompletionQueue) : WaitPc → Option (Option WaitPc × CompletionQueue)
  | .getEvent => cq.getEvent.map fun cq => (some .requestNotify, cq)
  | .requestNotify => some (some .poll, cq.requestNotify)
  | .poll =>
    match cq.poll with
    | some (_, cq) => some (some .poll, cq)
    | none => some (none, cq)

/-- A step of `waitForCompletion` polls one completion, or none. -/
theorem waitForCompletion_polls {cq : CompletionQueue} {pc : WaitPc}
    {r : Option WaitPc × CompletionQueue} (h : waitForCompletion cq pc = some r) :
    r.2.entries = cq.entries ∨ ∃ i, cq.entries = i :: r.2.entries := by
  cases pc with
  | getEvent =>
    simp only [waitForCompletion, CompletionQueue.getEvent, Option.map_eq_some_iff] at h
    obtain ⟨cq', h, rfl⟩ := h
    split_ifs at h
    cases h
    exact Or.inl rfl
  | requestNotify => cases h; exact Or.inl rfl
  | poll =>
    unfold waitForCompletion CompletionQueue.poll at h
    cases he : cq.entries with
    | nil => simp only [he] at h; cases h; exact Or.inl he
    | cons i ids => simp only [he] at h; cases h; exact Or.inr ⟨i, rfl⟩

/-- The eight bytes of a `size_t`. -/
def bytesOf (n : UInt64) : List UInt8 := Bytes.le64 n.toNat

end L5RDMA
