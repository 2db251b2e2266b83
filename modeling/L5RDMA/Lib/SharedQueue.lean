/-
  Queue pairs that share one completion queue.

  The network card works on each queue pair in post order and on the queue
  pairs in any order.  The completions of all signaled requests arrive in the
  one queue, and a poll takes the oldest, which retires its request and all
  earlier ones of its queue pair.

  Who polls right after each signaled post, and never else, goes from `Quiet`,
  with no completion there or to come, to `Waiting i`, with that of the last
  request of `i` alone, and back (`Quiet.post`, `Waiting.poll`).
-/
import Mathlib.Data.List.Basic
import Mathlib.Logic.Function.Basic

namespace SharedQueue

structure QueuePair where
  posted : ℕ
  /-- requests whose place in the send queue is free again -/
  retired : ℕ
  /-- the requests to be executed, oldest first, and whether they are signaled -/
  sq : List Bool

namespace QueuePair

def unretired (p : QueuePair) : ℕ := p.posted - p.retired

def post (p : QueuePair) (signaled : Bool) : QueuePair :=
  { p with posted := p.posted + 1, sq := p.sq ++ [signaled] }

end QueuePair

/-- Request number `request` of a queue pair, counted from 0, is complete. -/
structure Completion (ι : Type) where
  queuePair : ι
  request : ℕ

structure Queues (ι : Type) where
  queuePairs : ι → QueuePair
  cq : List (Completion ι)

namespace Queues
variable {ι : Type}

def init : Queues ι where
  queuePairs := fun _ => { posted := 0, retired := 0, sq := [] }
  cq := []

section
variable [DecidableEq ι]

def post (q : Queues ι) (i : ι) (signaled : Bool) : Queues ι :=
  { q with queuePairs := Function.update q.queuePairs i ((q.queuePairs i).post signaled) }

/-- The card executes the oldest request of queue pair `i`. -/
def execute (q : Queues ι) (i : ι) : Option (Queues ι) :=
  let p := q.queuePairs i
  match p.sq with
  | [] => none
  | signaled :: sq =>
    some
      { queuePairs := Function.update q.queuePairs i { p with sq := sq }
        cq := if signaled then q.cq ++ [⟨i, p.posted - p.sq.length⟩] else q.cq }

def poll (q : Queues ι) : Option (Completion ι × Queues ι) :=
  match q.cq with
  | [] => none
  | c :: cq =>
    let p := q.queuePairs c.queuePair
    some (c,
      { queuePairs := Function.update q.queuePairs c.queuePair { p with retired := c.request + 1 }
        cq := cq })

end

/-- The last `k` requests of `i` are not retired. -/
def Lag (q : Queues ι) (i : ι) (k : ℕ) : Prop :=
  (q.queuePairs i).posted = (q.queuePairs i).retired + k

/-- The requests to be executed have been posted. -/
def Numbered (q : Queues ι) : Prop :=
  ∀ i, (q.queuePairs i).sq.length ≤ (q.queuePairs i).posted

/-- No completion is there or to come. -/
structure Quiet (q : Queues ι) : Prop where
  cq : q.cq = []
  sq : ∀ i, true ∉ (q.queuePairs i).sq
  numbered : q.Numbered

/-- Only the completion of the last request of `i` is there or to come. -/
structure Waiting (q : Queues ι) (i : ι) : Prop where
  others : ∀ j ≠ i, true ∉ (q.queuePairs j).sq
  numbered : q.Numbered
  last : (q.cq = [] ∧ ∃ sq, (q.queuePairs i).sq = sq ++ [true] ∧ true ∉ sq) ∨
    q.cq = [⟨i, (q.queuePairs i).posted - 1⟩] ∧ (q.queuePairs i).sq = [] ∧
      0 < (q.queuePairs i).posted

theorem quiet_init : Quiet (init : Queues ι) where
  cq := rfl
  sq := fun _ => List.not_mem_nil
  numbered := fun _ => Nat.zero_le _

theorem Lag.unretired {q : Queues ι} {i : ι} {k : ℕ} (h : q.Lag i k) :
    (q.queuePairs i).unretired = k := by
  rw [QueuePair.unretired, h, Nat.add_sub_cancel_left]

section
variable [DecidableEq ι] {q q' : Queues ι} {i j : ι} {signaled : Bool} {c : Completion ι}

theorem post_self : (q.post i signaled).queuePairs i = (q.queuePairs i).post signaled :=
  Function.update_self ..

theorem post_of_ne (h : j ≠ i) : (q.post i signaled).queuePairs j = q.queuePairs j :=
  Function.update_of_ne h ..

theorem execute_cases (h : q.execute i = some q') : ∃ signaled sq,
    (q.queuePairs i).sq = signaled :: sq ∧ q' =
      { queuePairs := Function.update q.queuePairs i { q.queuePairs i with sq := sq }
        cq := if signaled then q.cq ++ [⟨i, (q.queuePairs i).posted - (sq.length + 1)⟩]
          else q.cq } := by
  unfold execute at h
  dsimp only at h
  split at h
  next => cases h
  next signaled sq hsq =>
    cases h
    exact ⟨signaled, sq, hsq, by rw [hsq, List.length_cons]⟩

/-- The card changes only what it has yet to execute. -/
theorem execute_keeps (h : q.execute i = some q') (j : ι) :
    (q'.queuePairs j).posted = (q.queuePairs j).posted ∧
      (q'.queuePairs j).retired = (q.queuePairs j).retired ∧
      (q'.queuePairs j).sq.length ≤ (q.queuePairs j).sq.length := by
  obtain ⟨signaled, sq, hsq, rfl⟩ := execute_cases h
  by_cases hj : j = i
  · subst hj
    simp [hsq]
  · simp [hj]

theorem Numbered.post (h : q.Numbered) (i : ι) (signaled : Bool) :
    (q.post i signaled).Numbered := by
  intro j
  by_cases hj : j = i
  · subst hj
    rw [post_self]
    simpa [QueuePair.post] using h j
  · rw [post_of_ne hj]
    exact h j

theorem Numbered.execute (h : q.Numbered) (hs : q.execute i = some q') : q'.Numbered := by
  intro j
  obtain ⟨hp, -, hlen⟩ := execute_keeps hs j
  have := h j
  omega

/-! ## The rules -/

theorem Quiet.postUnsignaled (h : q.Quiet) (i : ι) : (q.post i false).Quiet := by
  refine ⟨h.cq, fun j => ?_, h.numbered.post i false⟩
  by_cases hj : j = i
  · subst hj
    rw [post_self]
    simpa [QueuePair.post] using h.sq j
  · rw [post_of_ne hj]
    exact h.sq j

/-- A signaled request is posted, and its completion is to come. -/
theorem Quiet.post (h : q.Quiet) (i : ι) : (q.post i true).Waiting i := by
  refine ⟨fun j hj => ?_, h.numbered.post i true,
    Or.inl ⟨h.cq, (q.queuePairs i).sq, ?_, h.sq i⟩⟩
  · rw [post_of_ne hj]
    exact h.sq j
  · rw [post_self, QueuePair.post]

theorem Quiet.execute (h : q.Quiet) (hs : q.execute i = some q') : q'.Quiet := by
  have hnumbered := h.numbered.execute hs
  obtain ⟨signaled, sq, hsq, rfl⟩ := execute_cases hs
  have hi := h.sq i
  rw [hsq, List.mem_cons, not_or] at hi
  have hsig : signaled = false := by simpa using hi.1
  refine ⟨by simp [hsig, h.cq], fun j => ?_, hnumbered⟩
  by_cases hj : j = i
  · subst hj
    simpa using hi.2
  · simpa [hj] using h.sq j

/-- Whatever the card executes, the next completion is the one waited for. -/
theorem Waiting.execute (h : q.Waiting i) (hs : q.execute j = some q') : q'.Waiting i := by
  have hnumbered := h.numbered.execute hs
  obtain ⟨signaled, sq, hsq, rfl⟩ := execute_cases hs
  by_cases hji : j = i
  · subst hji
    refine ⟨fun k hk => by simpa [hk] using h.others k hk, hnumbered, ?_⟩
    rcases h.last with ⟨hcq, l, hl, hno⟩ | ⟨-, hnil, -⟩
    · rw [hsq] at hl
      cases l with
      | nil =>
        -- it is the last one
        have hpos := h.numbered j
        rw [List.nil_append] at hl
        obtain ⟨rfl, rfl⟩ := List.cons.inj hl
        rw [hsq, List.length_singleton] at hpos
        right
        simp [hcq]
        omega
      | cons b l =>
        obtain ⟨rfl, rfl⟩ := List.cons.inj hl
        rw [List.mem_cons, not_or] at hno
        have hb : signaled = false := by simpa using hno.1
        left
        simp [hcq, hb, hno.2]
    · rw [hnil] at hsq
      cases hsq
  · have hj := h.others j hji
    rw [hsq, List.mem_cons, not_or] at hj
    have hb : signaled = false := by simpa using hj.1
    refine ⟨fun k hk => ?_, hnumbered, ?_⟩
    · by_cases hkj : k = j
      · subst hkj
        simpa using hj.2
      · simpa [hkj] using h.others k hk
    · simpa [hb, Ne.symm hji] using h.last

/-- **The completion polled is the one waited for**, and it retires all that is posted on its
    queue pair. -/
theorem Waiting.poll (h : q.Waiting i) (hs : q.poll = some (c, q')) :
    c = ⟨i, (q.queuePairs i).posted - 1⟩ ∧ q'.Quiet ∧
      q'.queuePairs = Function.update q.queuePairs i
        { q.queuePairs i with retired := (q.queuePairs i).posted } := by
  rcases h.last with ⟨hcq, -⟩ | ⟨hcq, hsq, hpos⟩
  · rw [Queues.poll, hcq] at hs
    cases hs
  · rw [Queues.poll, hcq] at hs
    cases hs
    have hretired : (q.queuePairs i).posted - 1 + 1 = (q.queuePairs i).posted := by omega
    refine ⟨rfl, ⟨rfl, fun j => ?_, fun j => ?_⟩, by rw [hretired]⟩
    · by_cases hj : j = i
      · subst hj
        simp [hsq]
      · simpa [hj] using h.others j hj
    · by_cases hj : j = i
      · subst hj
        simp [hsq]
      · simpa [hj] using h.numbered j

/-! ## The requests that are not retired -/

theorem Lag.post {k : ℕ} (h : q.Lag i k) (signaled : Bool) : (q.post i signaled).Lag i (k + 1) := by
  rw [Lag, post_self, QueuePair.post, h]
  rfl

theorem Lag.postOther {k : ℕ} (h : q.Lag j k) (hj : j ≠ i) (signaled : Bool) :
    (q.post i signaled).Lag j k := by
  rw [Lag, post_of_ne hj]
  exact h

theorem Lag.execute {k : ℕ} (h : q.Lag j k) (hs : q.execute i = some q') : q'.Lag j k := by
  obtain ⟨hp, hr, -⟩ := execute_keeps hs j
  rw [Lag, hp, hr]
  exact h

theorem Lag.poll (hw : q.Waiting i) (hs : q.poll = some (c, q')) : q'.Lag i 0 := by
  rw [Lag, (hw.poll hs).2.2, Function.update_self]
  rfl

theorem Lag.pollOther {k : ℕ} (h : q.Lag j k) (hw : q.Waiting i) (hj : j ≠ i)
    (hs : q.poll = some (c, q')) : q'.Lag j k := by
  rw [Lag, (hw.poll hs).2.2, Function.update_of_ne hj]
  exact h

end

end Queues

end SharedQueue
