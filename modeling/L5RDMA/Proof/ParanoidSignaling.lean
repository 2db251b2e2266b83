/-
  Selective signaling of `sendParanoid`.

  A message is two requests, and of every 4096th message the second one is
  signaled and waited for.  From one such request to the next there are 8192,
  so that the send queue has room for the requests of one round, but not of two:
  a wait that an older event has ended leaves a round unretired.

  `Tracked` is the ring with the log of the requests posted and not yet
  retired.  `outstanding_ok`: the log stays below `maxOutstandingSendWrs` in every
  run in which each wait is for its own request, or there is room for another
  round.  `outstanding_overrun`: after a read whose event is left, two rounds of
  small messages are too many.
-/
import L5RDMA.Lib.Card
import L5RDMA.Proof.ParanoidProgress
import L5RDMA.Proof.Waiter

namespace Placement

open Verbs

/-- Bytes that arrive leave the requests in the queue. -/
theorem place_signals {placed placed' : List ℕ} {i : ℕ} {sq sq' : List Request} {w : Write}
    (h : place placed i sq = some (w, sq', placed')) :
    sq'.map Request.signal = sq.map Request.signal := by
  induction sq generalizing sq' with
  | nil => cases h
  | cons r sq ih =>
    cases r with
    | read id => cases h
    | write w' =>
      rw [place] at h
      split_ifs at h
      · obtain ⟨⟨w₁, sq₁, placed₁⟩, hp, he⟩ := Option.map_eq_some_iff.1 h
        cases he
        rw [List.map_cons, List.map_cons, ih hp]
      · cases h
        rfl
      · cases h
        rfl

end Placement

namespace L5RDMA

namespace VirtualRDMARingBuffer

namespace Paranoid

open Run Verbs Channel Frame
open Pos (lengthOf)

/-! ## Waiting -/

def SendPc.wait : SendPc → Option WaitPc
  | .waitForCompletion pc _ => some pc
  | _ => none

def waiter : Waiter State Act where
  step := step
  sender := .sender
  wait := fun s => s.sendPc.wait
  conn := fun s => s.ring.conn

/-- The ring and, as ghost state, its requests posted and not retired, oldest first. -/
structure Tracked where
  state : State
  unretired : List (Option UInt64)

/-- The log after a step of the sender that leads to `ring`. -/
def Tracked.log (t : Tracked) (ring : VirtualRDMARingBuffer.State) : List (Option UInt64) :=
  VirtualRDMARingBuffer.Tracked.log ⟨t.state.ring, t.unretired⟩ ring

def Tracked.step (t : Tracked) (a : Act) : Option Tracked :=
  (Paranoid.step t.state a).map fun state =>
    { state := state
      unretired :=
        match a with
        | .sender => t.log state.ring
        | _ => t.unretired }

/-- A connection before its first request. -/
def Tracked.start (size pos : UInt64) : Tracked := ⟨Paranoid.start size pos, []⟩

/-- The next request that the sender posts is signaled. -/
def State.signals (s : State) : Prop :=
  match s.sendPc with
  | .postSize _ => s.ring.messageCounter % (4 * 1024) = 0
  | _ => False

/-- If the step posts a signaled request, `waitForCompletion` can only be for that one, or
    there is room for it and for the requests of the next 4096 messages. -/
def Tracked.StartsWell (t : Tracked) : Act → Prop
  | .sender => t.state.signals →
    waiter.Alone t.state ∨ t.unretired.length + (1 + 2 * 4096) ≤ maxOutstandingSendWrs
  | _ => True

instance (s : State) : Decidable s.signals :=
  match h : s.sendPc with
  | .postSize _ => decidable_of_iff (s.ring.messageCounter % (4 * 1024) = 0) (by
      rw [State.signals, h])
  | .idle | .waitUntilSendFree _ | .pollRead _ | .postData _ | .waitForCompletion _ _
  | .advance _ => isFalse (by rw [State.signals, h]; exact id)

instance (t : Tracked) : DecidablePred t.StartsWell
  | .sender => inferInstanceAs (Decidable (t.state.signals →
      waiter.Alone t.state ∨ t.unretired.length + (1 + 2 * 4096) ≤ maxOutstandingSendWrs))
  | .sendParanoid _ | .receive _ | .load _ | .receiver | .place _ | .complete => isTrue trivial

/-! ## The invariant -/

/-- The requests that may be unretired before message number `messageCounter`. -/
def bound (messageCounter : UInt64) : ℕ :=
  maxOutstandingSendWrs - 2 * 4096 + 2 * since messageCounter

theorem bound_le (messageCounter : UInt64) : bound messageCounter + 2 ≤ maxOutstandingSendWrs := by
  have : since messageCounter < 4096 := Nat.mod_lt _ (by omega)
  rw [bound, maxOutstandingSendWrs]
  omega

/-- One message later, which is a signaled one, or not. -/
theorem bound_signaled {c : UInt64} (h : since (c + 1) = 0) :
    bound c + 2 = maxOutstandingSendWrs ∧ bound (c + 1) + 2 * 4096 = maxOutstandingSendWrs := by
  rw [bound, bound, since_signaled h, h]
  exact ⟨rfl, rfl⟩

theorem bound_unsignaled {c : UInt64} (h : since (c + 1) ≠ 0) : bound (c + 1) = bound c + 2 := by
  rw [bound, bound, since_unsignaled h]
  omega

/-- The requests posted and not retired, at each position of the sender. -/
def LagOk (t : Tracked) : Prop :=
  let c := t.state.ring.messageCounter
  match t.state.sendPc with
  | .idle | .waitUntilSendFree _ | .postData _ => t.unretired.length ≤ bound c
  | .pollRead _ | .postSize _ => t.unretired.length ≤ bound c + 1
  | .waitForCompletion _ _ => since (c + 1) = 0 ∧
    (t.unretired.length ≤ bound (c + 1) ∨
      (waiter.view t.state).Served ∧ t.unretired.length ≤ maxOutstandingSendWrs ∧
        LastSignaled t.unretired)
  | .advance _ => t.unretired.length ≤ bound (c + 1)

structure Tracked.Inv (t : Tracked) : Prop where
  log : t.state.ring.conn.Log t.unretired
  lag : LagOk t

theorem Tracked.inv_start (size pos : UInt64) : (Tracked.start size pos).Inv where
  log := ⟨[], rfl, rfl⟩
  lag := Nat.zero_le _

section
variable {t t' : Tracked}

theorem Tracked.Inv.outstanding_le (h : t.Inv) : t.unretired.length ≤ maxOutstandingSendWrs := by
  have hlag := h.lag
  have hbound := bound_le
  unfold LagOk at hlag
  dsimp only at hlag
  split at hlag
  · have := hbound t.state.ring.messageCounter
    omega
  · have := hbound t.state.ring.messageCounter
    omega
  · have := hbound t.state.ring.messageCounter
    omega
  · have := hbound t.state.ring.messageCounter
    omega
  · have := hbound t.state.ring.messageCounter
    omega
  · rcases hlag.2 with hle | ⟨-, hle, -⟩
    · have := hbound (t.state.ring.messageCounter + 1)
      omega
    · exact hle
  · have := hbound (t.state.ring.messageCounter + 1)
    omega

/-! ## The steps -/

theorem Tracked.log_keep {ring : VirtualRDMARingBuffer.State}
    (hsq : ring.conn.sq = t.state.ring.conn.sq)
    (hcq : ring.conn.cq.entries = t.state.ring.conn.cq.entries) : t.log ring = t.unretired :=
  VirtualRDMARingBuffer.Tracked.log_keep hsq hcq

theorem Tracked.log_post {ring : VirtualRDMARingBuffer.State} {r : Request}
    (hsq : ring.conn.sq = t.state.ring.conn.sq ++ [r])
    (hcq : ring.conn.cq.entries = t.state.ring.conn.cq.entries) :
    t.log ring = t.unretired ++ [r.signal] :=
  VirtualRDMARingBuffer.Tracked.log_post hsq hcq

theorem Tracked.log_poll {ring : VirtualRDMARingBuffer.State} {i : UInt64}
    (hsq : ring.conn.sq = t.state.ring.conn.sq)
    (hcq : t.state.ring.conn.cq.entries = i :: ring.conn.cq.entries) :
    t.log ring = retire t.unretired :=
  VirtualRDMARingBuffer.Tracked.log_poll hsq hcq

/-- What the sender does to the queues: nothing, or it posts, or it polls. -/
theorem sendStep_queues {s s' : State} (hs : sendStep s = some s') :
    (s'.ring.conn.sq = s.ring.conn.sq ∧ s'.ring.conn.cq.entries = s.ring.conn.cq.entries) ∨
      (∃ r, s'.ring.conn.sq = s.ring.conn.sq ++ [r] ∧
        s'.ring.conn.cq.entries = s.ring.conn.cq.entries) ∨
      (s'.ring.conn.sq = s.ring.conn.sq ∧
        ∃ i, s.ring.conn.cq.entries = i :: s'.ring.conn.cq.entries) := by
  cases sendStep_cases hs with
  | room | advance => exact Or.inl ⟨rfl, rfl⟩
  | full | data | signaled | unsignaled => exact Or.inr (Or.inl ⟨_, rfl, rfl⟩)
  | polled | polling =>
    dsimp only
    cases he : s.ring.conn.cq.entries with
    | nil =>
      left
      rw [pollSendCompletionQueue, CompletionQueue.poll, he]
      exact ⟨rfl, he⟩
    | cons i ids =>
      right; right
      rw [pollSendCompletionQueue, CompletionQueue.poll, he]
      exact ⟨rfl, i, rfl⟩
  | waiting hpc hw | waited hpc hw =>
    rcases waitForCompletion_polls hw with he | ⟨i, he⟩
    · exact Or.inl ⟨rfl, he⟩
    · exact Or.inr (Or.inr ⟨rfl, i, he⟩)

theorem Tracked.step_log {a : Act} (h : t.state.ring.conn.Log t.unretired)
    (hs : t.step a = some t') : t'.state.ring.conn.Log t'.unretired := by
  obtain ⟨s, hstep, rfl⟩ := Option.map_eq_some_iff.1 hs
  cases a with
  | sender =>
    dsimp only
    rcases sendStep_queues hstep with ⟨hsq, hcq⟩ | ⟨r, hsq, hcq⟩ | ⟨hsq, i, hcq⟩
    · rw [Tracked.log_keep hsq hcq]
      exact h.congr (congrArg (List.map Request.signal) hsq) hcq
    · rw [Tracked.log_post hsq hcq]
      exact h.post hsq hcq
    · rw [Tracked.log_poll hsq hcq]
      exact h.poll hsq hcq
  | sendParanoid data =>
    simp only [Paranoid.step] at hstep
    split at hstep
    next =>
      cases hstep
      unfold sendParanoid
      dsimp only
      split_ifs
      · exact h.congr rfl rfl
      · exact h.congr rfl rfl
    next => cases hstep
  | place i =>
    obtain ⟨⟨conn, placed⟩, hl, rfl⟩ := Option.map_eq_some_iff.1 hstep
    obtain ⟨⟨w, sq, placed'⟩, hp, he⟩ := Option.map_eq_some_iff.1 hl
    cases he
    exact h.congr (Placement.place_signals hp) rfl
  | complete =>
    obtain ⟨ring, hring, rfl⟩ := Option.map_eq_some_iff.1 hstep
    obtain ⟨conn, hc, rfl⟩ := Option.map_eq_some_iff.1 hring
    exact h.complete hc
  | receive | load | receiver =>
    obtain ⟨ring, hring, rfl⟩ := Option.map_eq_some_iff.1 hstep
    have hf := step_senderFrame hring (by simp) (by simp) (by simp)
    exact h.congr hf.signals (by rw [hf.cq])

/-- What is polled was not retired before. -/
theorem Tracked.Inv.retire_lt (h : t.Inv) {i : UInt64} {ids : List UInt64}
    (he : t.state.ring.conn.cq.entries = i :: ids) :
    (retire t.unretired).length < t.unretired.length := by
  refine length_retire_lt ?_
  rw [h.log.ids, Conn.outstanding, he]
  exact List.cons_ne_nil _ _

theorem Tracked.lag_keep {s : State} (hsq : s.ring.conn.sq = t.state.ring.conn.sq)
    (hcq : s.ring.conn.cq.entries = t.state.ring.conn.cq.entries)
    (hlag : LagOk ⟨s, t.unretired⟩) : LagOk ⟨s, t.log s.ring⟩ := by
  rwa [Tracked.log_keep hsq hcq]

theorem Tracked.lag_post {s : State} {r : Request}
    (hsq : s.ring.conn.sq = t.state.ring.conn.sq ++ [r])
    (hcq : s.ring.conn.cq.entries = t.state.ring.conn.cq.entries)
    (hlag : LagOk ⟨s, t.unretired ++ [r.signal]⟩) : LagOk ⟨s, t.log s.ring⟩ := by
  rwa [Tracked.log_post hsq hcq]

theorem Tracked.lag_poll {s : State} {i : UInt64} (hsq : s.ring.conn.sq = t.state.ring.conn.sq)
    (hcq : t.state.ring.conn.cq.entries = i :: s.ring.conn.cq.entries)
    (hlag : LagOk ⟨s, retire t.unretired⟩) : LagOk ⟨s, t.log s.ring⟩ := by
  rwa [Tracked.log_poll hsq hcq]

theorem Tracked.pollRead_lag (h : t.Inv) {dataSizeToWrite : UInt64} {s : State}
    (hpc : t.state.sendPc = .pollRead dataSizeToWrite) (hs : sendStep t.state = some s) :
    LagOk ⟨s, t.log s.ring⟩ := by
  have hlag := h.lag
  simp only [LagOk, hpc] at hlag
  simp only [sendStep, hpc] at hs
  cases hs
  cases he : t.state.ring.conn.cq.entries with
  | nil =>
    have hp : pollSendCompletionQueue t.state.ring.conn.cq =
        (0xFFFFFFFFFFFFFFFF, t.state.ring.conn.cq) := by
      rw [pollSendCompletionQueue, CompletionQueue.poll, he]
    rw [hp]
    exact Tracked.lag_keep rfl rfl hlag
  | cons i ids =>
    have hp : pollSendCompletionQueue t.state.ring.conn.cq =
        (i, { t.state.ring.conn.cq with entries := ids }) := by
      rw [pollSendCompletionQueue, CompletionQueue.poll, he]
    have hlt := h.retire_lt he
    rw [hp]
    refine Tracked.lag_poll rfl he ?_
    by_cases hi : i = 42
    · simp only [LagOk, if_pos hi]
      omega
    · simp only [LagOk, if_neg hi]
      omega

theorem Tracked.postSize_lag (h : t.Inv) (hwell : t.StartsWell .sender) {dataSizeToWrite : UInt64}
    {s : State} (hpc : t.state.sendPc = .postSize dataSizeToWrite)
    (hs : sendStep t.state = some s) : LagOk ⟨s, t.log s.ring⟩ := by
  have hlag := h.lag
  have hsig := since_succ_eq_zero t.state.ring.messageCounter
  have hsignals : t.state.ring.messageCounter % (4 * 1024) = 0 → t.state.signals := by
    rw [State.signals, hpc]
    exact id
  have hwell := fun h0 => hwell (hsignals h0)
  simp only [LagOk, hpc] at hlag
  simp only [sendStep, hpc, sizeRequest, ← hsig] at hs
  rw [← hsig] at hwell
  by_cases hz : since (t.state.ring.messageCounter + 1) = 0
  · simp only [hz, decide_true, if_true] at hs
    cases hs
    refine Tracked.lag_post rfl rfl ⟨hz, ?_⟩
    obtain ⟨hc, hc'⟩ := bound_signaled hz
    rcases hwell hz with halone | hle
    · -- nothing else can end the wait
      right
      refine ⟨?_, ?_, Or.inr ⟨t.unretired, 0, rfl⟩⟩
      · obtain ⟨hev, hsq⟩ := Waiter.alone_iff.1 halone
        have hm := View.Move.starts (waiter.view t.state).signals (waiter.view t.state).cq 0
        have hserved := hm.served trivial fun _ _ => ⟨hev, hsq⟩
        convert hserved using 1
        simp only [Waiter.view, waiter, post, List.map_append, List.map_singleton]
        rfl
      · rw [List.length_append, List.length_singleton]
        omega
    · left
      rw [List.length_append, List.length_singleton]
      dsimp only [post]
      omega
  · simp only [hz, decide_false] at hs
    cases hs
    refine Tracked.lag_post rfl rfl ?_
    show (t.unretired ++ [none]).length ≤ bound (t.state.ring.messageCounter + 1)
    rw [bound_unsignaled hz, List.length_append, List.length_singleton]
    omega

theorem Tracked.wait_lag (h : t.Inv) {pc : WaitPc} {dataSizeToWrite : UInt64} {s : State}
    (hpc : t.state.sendPc = .waitForCompletion pc dataSizeToWrite)
    (hs : sendStep t.state = some s) : LagOk ⟨s, t.log s.ring⟩ := by
  have hlag := h.lag
  simp only [LagOk, hpc] at hlag
  obtain ⟨hsince, hlag⟩ := hlag
  simp only [sendStep, hpc, Option.map_eq_some_iff] at hs
  obtain ⟨⟨pc', cq⟩, hw, rfl⟩ := hs
  have hm := View.Move.waits (waiter.view t.state).signals hw
  have hview : waiter.view t.state =
      ⟨some pc, (waiter.view t.state).signals, t.state.ring.conn.cq⟩ := by
    simp only [Waiter.view, waiter, hpc, SendPc.wait]
  cases pc with
  | getEvent =>
    simp only [waitForCompletion, CompletionQueue.getEvent, Option.map_eq_some_iff] at hw
    obtain ⟨_, hw, he⟩ := hw
    split_ifs at hw
    cases hw
    cases he
    refine Tracked.lag_keep rfl rfl ⟨hsince, ?_⟩
    rcases hlag with hle | ⟨hserved, hle, hlast⟩
    · left; exact hle
    · right
      rw [hview] at hserved
      exact ⟨hm.served hserved (by simp), hle, hlast⟩
  | requestNotify =>
    cases hw
    refine Tracked.lag_keep rfl rfl ⟨hsince, ?_⟩
    rcases hlag with hle | ⟨hserved, hle, hlast⟩
    · left; exact hle
    · right
      rw [hview] at hserved
      exact ⟨hm.served hserved (by simp), hle, hlast⟩
  | poll =>
    cases he : t.state.ring.conn.cq.entries with
    | cons i ids =>
      have hlt := h.retire_lt he
      simp only [waitForCompletion, CompletionQueue.poll, he] at hw
      cases hw
      refine Tracked.lag_poll rfl he ⟨hsince, ?_⟩
      rcases hlag with hle | ⟨hserved, hle, hlast⟩
      · left; exact hlt.le.trans hle
      · right
        rw [hview] at hserved
        exact ⟨hm.served hserved (by simp), hlt.le.trans hle, hlast.retire⟩
    | nil =>
      simp only [waitForCompletion, CompletionQueue.poll, he] at hw
      cases hw
      refine Tracked.lag_keep rfl rfl ?_
      show t.unretired.length ≤ bound (t.state.ring.messageCounter + 1)
      rcases hlag with hle | ⟨hserved, hle, hlast⟩
      · exact hle
      · -- the send queue is empty, so that everything is retired
        rw [hview] at hserved
        have hsq : t.state.ring.conn.sq.map Request.signal = [] := hserved
        have hids := h.log.ids
        rw [Conn.outstanding, he, List.map_eq_nil_iff.1 hsq] at hids
        rw [hlast.eq_nil hids]
        exact Nat.zero_le _

theorem Tracked.sender_lag (h : t.Inv) (hwell : t.StartsWell .sender) {s : State}
    (hs : sendStep t.state = some s) : LagOk ⟨s, t.log s.ring⟩ := by
  have hlag := h.lag
  cases sendStep_cases hs with
  | full hpc =>
    -- the RDMA read
    simp only [LagOk, hpc] at hlag
    refine Tracked.lag_post rfl rfl ?_
    show (t.unretired ++ [some 42]).length ≤ bound t.state.ring.messageCounter + 1
    rw [List.length_append, List.length_singleton]
    omega
  | room hpc | advance hpc =>
    simp only [LagOk, hpc] at hlag
    exact Tracked.lag_keep rfl rfl hlag
  | data hpc =>
    simp only [LagOk, hpc] at hlag
    refine Tracked.lag_post rfl rfl ?_
    show (t.unretired ++ [none]).length ≤ bound t.state.ring.messageCounter + 1
    rw [List.length_append, List.length_singleton]
    omega
  | polled hpc | polling hpc => exact Tracked.pollRead_lag h hpc hs
  | signaled hpc | unsignaled hpc => exact Tracked.postSize_lag h hwell hpc hs
  | waiting hpc | waited hpc => exact Tracked.wait_lag h hpc hs

/-- A step of another party. -/
theorem LagOk.frame (hlag : LagOk t) {s : State} (hm : (waiter.view t.state).Move (waiter.view s))
    (hcount : s.ring.messageCounter = t.state.ring.messageCounter)
    (hpc : s.sendPc = t.state.sendPc) : LagOk ⟨s, t.unretired⟩ := by
  cases hp : t.state.sendPc with
  | idle | waitUntilSendFree | pollRead | postData | postSize | advance =>
    simp only [LagOk, hp, hpc, hcount] at hlag ⊢
    exact hlag
  | waitForCompletion pc dataSizeToWrite =>
    simp only [LagOk, hp, hpc, hcount] at hlag ⊢
    obtain ⟨hsince, hle | ⟨hserved, hle⟩⟩ := hlag
    · exact ⟨hsince, Or.inl hle⟩
    · refine ⟨hsince, Or.inr ⟨hm.served hserved fun hnone => ?_, hle⟩⟩
      simp [Waiter.view, waiter, hp, SendPc.wait] at hnone

theorem Tracked.step_lag {a : Act} (h : t.Inv) (hwell : t.StartsWell a)
    (hs : t.step a = some t') : LagOk t' := by
  obtain ⟨s, hstep, rfl⟩ := Option.map_eq_some_iff.1 hs
  cases a with
  | sender => exact Tracked.sender_lag h hwell hstep
  | sendParanoid data =>
    simp only [Paranoid.step] at hstep
    split at hstep
    next hpc =>
      cases hstep
      have hlag := h.lag
      simp only [LagOk, hpc] at hlag
      unfold sendParanoid
      dsimp only
      split_ifs
      · simp only [LagOk, hpc]
        exact hlag
      · exact hlag
    next => cases hstep
  | place i =>
    obtain ⟨⟨conn, placed⟩, hl, rfl⟩ := Option.map_eq_some_iff.1 hstep
    obtain ⟨⟨w, sq, placed'⟩, hp, he⟩ := Option.map_eq_some_iff.1 hl
    cases he
    exact h.lag.frame (Waiter.move_of_eq rfl (Placement.place_signals hp) rfl) rfl rfl
  | complete =>
    obtain ⟨ring, hring, rfl⟩ := Option.map_eq_some_iff.1 hstep
    obtain ⟨conn, hc, rfl⟩ := Option.map_eq_some_iff.1 hring
    exact h.lag.frame (Waiter.move_of_complete rfl hc) rfl rfl
  | receive | load | receiver =>
    obtain ⟨ring, hring, rfl⟩ := Option.map_eq_some_iff.1 hstep
    have hf := step_senderFrame hring (by simp) (by simp) (by simp)
    exact h.lag.frame (Waiter.move_of_eq rfl hf.signals hf.cq) hf.messageCounter rfl

theorem Tracked.step_inv {a : Act} (h : t.Inv) (hwell : t.StartsWell a)
    (hs : t.step a = some t') : t'.Inv :=
  ⟨Tracked.step_log h.log hs, Tracked.step_lag h hwell hs⟩

end

/-- **The send queue is never overrun** if each `waitForCompletion` can only be for its own
    request, or there is room for another round when it is called. -/
theorem outstanding_ok (size pos : UInt64) {acts : List Act}
    (h : Along Tracked.step Tracked.StartsWell (Tracked.start size pos) acts) :
    AllStates Tracked.step (fun t => t.unretired.length ≤ maxOutstandingSendWrs)
      (Tracked.start size pos) acts :=
  allStates_of_along (fun _ h => Tracked.Inv.outstanding_le h)
    (fun _ _ _ h hwell hs => Tracked.step_inv h hwell hs) (Tracked.inv_start size pos) h

/-- The run of `fifo_anyOrder`, with a wait for the first message. -/
theorem outstanding_anyOrder :
    ((run Tracked.step (Tracked.start 4096 4064) anyOrder).map fun t => t.unretired.length) =
        some 2 ∧
      AllStates Tracked.step (fun t => t.unretired.length ≤ maxOutstandingSendWrs)
        (Tracked.start 4096 4064) anyOrder :=
  ⟨by decide +kernel, outstanding_ok 4096 4064 (by decide +kernel)⟩

/-! ## A round that is left -/

/-- The payload of a message that fills a ring of 131072 bytes. -/
def zeros : List UInt8 := List.replicate 131056 0

/-- The first message has filled the ring and is received. -/
structure FirstReceived (s : State) : Prop where
  size : s.ring.size = 131072
  messageCounter : s.ring.messageCounter = 1
  sendPos : s.ring.sendPos = 131072
  sendPc : s.sendPc = .idle
  remoteReadPos : s.ring.conn.remoteReadPos = 0
  readPos : s.ring.conn.readPos = 131072
  sq : s.ring.conn.sq = []
  cq : s.ring.conn.cq = ⟨[], true, 0⟩

/-- A ring during the first message. -/
def during (m buf : Mem) (sq : List Request) (cq : CompletionQueue) (sendPc : SendPc) : State where
  ring :=
    { size := 131072, messageCounter := 0, sendPos := 0
      conn := ⟨m, buf, 0, 0, sq, cq⟩
      sendPc := .idle, recvPc := .idle, sent := [zeros], received := [] }
  sendPc := sendPc
  placed := []

/-- The first message is sent, and waited for. -/
theorem exists_firstSent : ∃ as m buf, (∀ a ∈ as, Admitted 131072 a) ∧
    run step (start 131072 0) as =
      some (during m buf [] ⟨[], true, 0⟩ (.advance 131064)) := by
  have hn : lengthOf zeros + 8 = 131064 := by
    rw [lengthOf, zeros, List.length_replicate]
    rfl
  obtain ⟨m, h₁⟩ := step_sendParanoid (s := start 131072 0) rfl hn (by decide)
  change _ = some (during m (fun _ => 0) [] ⟨[], true, 0⟩ (.waitUntilSendFree 131064)) at h₁
  obtain ⟨w, w', h₂, hw, hws, hw', hid, hsig⟩ := run_posts
    (s := during m (fun _ => 0) [] ⟨[], true, 0⟩ (.waitUntilSendFree 131064)) rfl
    (show ¬ (8 + 131064 : UInt64) > 131072 - (0 - 0) by decide)
  change _ = some (during m (fun _ => 0) [.write w, .write w'] ⟨[], true, 0⟩
    (.waitForCompletion .getEvent 131064)) at h₂
  change w.length = 131064 at hw
  change w'.signaled = true at hsig
  obtain ⟨buf, h₃⟩ := run_deliver (s := during m (fun _ => 0) [.write w, .write w'] ⟨[], true, 0⟩
    (.waitForCompletion .getEvent 131064)) rfl rfl (by omega)
  rw [hws] at h₃
  change _ = some (during m buf [.write w'] ⟨[], true, 0⟩
    (.waitForCompletion .getEvent 131064)) at h₃
  obtain ⟨buf', h₄⟩ := run_deliver (s := during m buf [.write w'] ⟨[], true, 0⟩
    (.waitForCompletion .getEvent 131064)) rfl rfl (by omega)
  rw [hsig] at h₄
  change _ = some (during m buf' [] ⟨[w'.id], false, 1⟩
    (.waitForCompletion .getEvent 131064)) at h₄
  have h₅ : run step (during m buf' [] ⟨[w'.id], false, 1⟩ (.waitForCompletion .getEvent 131064))
      [.sender, .sender, .sender, .sender] =
      some (during m buf' [] ⟨[], true, 0⟩ (.advance 131064)) := rfl
  refine ⟨_, m, buf', ?_, (run_cons h₁ _).trans ((run_append h₂ _).trans ((run_append h₃ _).trans
    ((run_append h₄ _).trans h₅)))⟩
  intro a ha
  cases a with
  | sendParanoid data =>
    obtain rfl : data = zeros := by simpa using ha
    refine ⟨by rw [zeros, List.length_replicate]; decide, fun hinfix => ?_⟩
    have hmem : V.head (by decide) ∈ zeros := hinfix.subset (List.head_mem _)
    exact absurd (List.eq_of_mem_replicate hmem) (by decide)
  | _ => trivial

/-- The first message has filled the ring and is received. -/
theorem exists_firstReceived : ∃ as s, run step (start 131072 0) as = some s ∧
    FirstReceived s := by
  obtain ⟨as, m, buf, has, hr⟩ := exists_firstSent
  have hr' := (run_append hr [.sender]).trans (show run step
    (during m buf [] ⟨[], true, 0⟩ (.advance 131064)) [.sender] = some _ from rfl)
  obtain ⟨F, H, t, C, hinv⟩ := (inv_of_run (I := fun s => Inv 0 s ∧ s.ring.size = 131072)
    (D := Admitted 131072) (fun s a s' hi hadm hs => by
      obtain ⟨⟨F, H, t, C, hi⟩, hsize⟩ := hi
      exact ⟨step_inv hi (hsize ▸ hadm) hs, (step_size hs).trans hsize⟩)
    ⟨inv_start (by decide) 0, rfl⟩ (fun a ha => by
      rcases List.mem_append.1 ha with ha | ha
      · exact has a ha
      · rw [List.mem_singleton.1 ha]; trivial) hr').1
  obtain ⟨hposted, hF, -⟩ := hinv.send
  obtain ⟨r, hreceive, hframe, hread⟩ := hinv.receives rfl rfl hposted (T := []) hF.symm
  refine ⟨_, _, (run_append hr' _).trans hreceive, ?_⟩
  exact
    { size := hframe.size
      messageCounter := hframe.messageCounter
      sendPos := hframe.sendPos.trans (show (0 : UInt64) + (8 + 131064) = 131072 by decide)
      sendPc := rfl
      remoteReadPos := hframe.remoteReadPos
      readPos := by
        rw [hread, zeros, List.length_replicate]
        exact (show (0 : UInt64) + UInt64.ofNat (131056 + 16) = 131072 by decide)
      sq := List.map_eq_nil_iff.1 hframe.signals
      cq := hframe.cq }

variable {s : State}

/-- After `j` more messages, without payload, when nothing of what is posted is executed. -/
structure Behind (j posted : ℕ) (sendPc : SendPc) (cq : CompletionQueue) (s : State) : Prop where
  size : s.ring.size = 131072
  messageCounter : s.ring.messageCounter = UInt64.ofNat (j + 1)
  sendPos : s.ring.sendPos = UInt64.ofNat (131072 + 16 * j)
  sendPc : s.sendPc = sendPc
  remoteReadPos : s.ring.conn.remoteReadPos = UInt64.ofNat 131072
  sq : s.ring.conn.sq.length = posted
  cq : s.ring.conn.cq = cq

/-- The ring is full: the position of the receiver is read, and the event of the read is
    left. -/
theorem FirstReceived.read (h : FirstReceived s) : ∃ s',
    run step s [.sendParanoid [], .sender, .complete, .sender] = some s' ∧
      Behind 0 0 (.waitUntilSendFree 8) ⟨[], false, 1⟩ s' := by
  have hfull : (8 + 8 : UInt64) > s.ring.size - (s.ring.sendPos - s.ring.conn.remoteReadPos) := by
    rw [h.size, h.sendPos, h.remoteReadPos]
    decide
  obtain ⟨m, h₁⟩ := step_sendParanoid h.sendPc (show lengthOf [] + 8 = 8 from rfl)
    (by rw [h.size]; decide)
  rw [run_cons h₁]
  simp only [run, step, sendStep, hfull, if_true, h.sq, List.nil_append,
    VirtualRDMARingBuffer.step, Conn.complete, Option.map_some, h.cq, CompletionQueue.push,
    pollSendCompletionQueue, CompletionQueue.poll]
  exact ⟨_, rfl, h.size, h.messageCounter, h.sendPos, rfl, h.readPos, rfl, rfl⟩

section
variable {j posted : ℕ} {cq : CompletionQueue}

theorem Behind.send (h : Behind j posted .idle cq s) : ∃ s',
    step s (.sendParanoid []) = some s' ∧ Behind j posted (.waitUntilSendFree 8) cq s' := by
  obtain ⟨m, hs⟩ := step_sendParanoid h.sendPc (show lengthOf [] + 8 = 8 from rfl)
    (by rw [h.size]; decide)
  exact ⟨_, hs, { h with sendPc := rfl }⟩

theorem Behind.post (h : Behind j posted (.waitUntilSendFree 8) cq s) (hj : j < 8192) : ∃ s',
    run step s [.sender, .sender, .sender] = some s' ∧ Behind j (posted + 2)
      (if (j + 1) % 4096 = 0 then .waitForCompletion .getEvent 8 else .advance 8) cq s' := by
  have hroom : ¬ (8 + 8 : UInt64) > s.ring.size -
      (s.ring.sendPos - s.ring.conn.remoteReadPos) := by
    rw [h.size, h.sendPos, h.remoteReadPos, Pos.room_iff (Nat.le_add_right _ _)]
    · show 131072 + 16 * j + 16 ≤ 131072 + 131072
      omega
    · show 131072 + 16 * j ≤ 131072 + 131072
      omega
  have hsig : s.ring.messageCounter % (4 * 1024) = 0 ↔ (j + 1) % 4096 = 0 := by
    rw [h.messageCounter, UInt64.ext_iff, UInt64.toNat_mod, Pos.ofNat_toNat,
      Nat.mod_eq_of_lt (show j + 1 < 2 ^ 64 by omega)]
    rfl
  obtain ⟨w, w', hs, -⟩ := run_posts h.sendPc hroom
  refine ⟨_, hs, { h with sendPc := by simp only [hsig], sq := ?_ }⟩
  simp only [List.length_append, List.length_singleton, h.sq]

theorem Behind.advance (h : Behind j posted (.advance 8) cq s) : ∃ s',
    step s .sender = some s' ∧ Behind (j + 1) posted .idle cq s' := by
  simp only [step, sendStep, h.sendPc]
  refine ⟨_, rfl, { h with messageCounter := ?_, sendPos := ?_, sendPc := rfl }⟩
  · dsimp only
    rw [h.messageCounter]
    exact Pos.ofNat_add (j + 1) 1
  · dsimp only
    rw [h.sendPos]
    exact Pos.ofNat_add (131072 + 16 * j) 16

/-- The event that is left ends the wait at once. -/
theorem Behind.wait (h : Behind j posted (.waitForCompletion .getEvent 8) ⟨[], false, 1⟩ s) :
    ∃ s', run step s [.sender, .sender, .sender] = some s' ∧
      Behind j posted (.advance 8) ⟨[], true, 0⟩ s' := by
  simp only [run, step, sendStep, h.sendPc, h.cq, waitForCompletion, CompletionQueue.getEvent,
    CompletionQueue.requestNotify, CompletionQueue.poll]
  exact ⟨_, rfl, { h with sendPc := rfl, cq := rfl }⟩

end

/-- The events that are left before message `j + 1`: that of the read, and later none. -/
def eventsAt (j : ℕ) : CompletionQueue := if j < 4096 then ⟨[], false, 1⟩ else ⟨[], true, 0⟩

theorem Behind.next {j : ℕ} (h : Behind j (2 * j) (.waitUntilSendFree 8) (eventsAt j) s)
    (hj : j < 8191) : ∃ as s', run step s as = some s' ∧
      Behind (j + 1) (2 * (j + 1)) .idle (eventsAt (j + 1)) s' := by
  obtain ⟨s₁, h₁, hb⟩ := h.post (by omega)
  by_cases hsig : (j + 1) % 4096 = 0
  · -- the only signaled one
    obtain rfl : j = 4095 := by omega
    obtain ⟨s₂, h₂, hb⟩ := hb.wait
    obtain ⟨s₃, h₃, hb⟩ := hb.advance
    exact ⟨_, s₃, (run_append h₁ _).trans ((run_append h₂ _).trans (run_cons h₃ [])), hb⟩
  · rw [if_neg hsig] at hb
    obtain ⟨s₂, h₂, hb⟩ := hb.advance
    have hev : eventsAt (j + 1) = eventsAt j := by
      have : j + 1 < 4096 ↔ j < 4096 := by omega
      simp only [eventsAt, this]
    exact ⟨_, s₂, (run_append h₁ _).trans (run_cons h₂ []), hev ▸ hb⟩

theorem exists_behind {j : ℕ} (hj : j + 1 ≤ 8191) : ∃ as s,
    run step (start 131072 0) as = some s ∧
      Behind (j + 1) (2 * (j + 1)) .idle (eventsAt (j + 1)) s := by
  induction j with
  | zero =>
    obtain ⟨as, s, hs, h⟩ := exists_firstReceived
    obtain ⟨s₁, h₁, hb⟩ := h.read
    obtain ⟨bs, s₂, h₂, hb⟩ := Behind.next hb (by omega)
    exact ⟨_, s₂, (run_append hs _).trans ((run_append h₁ _).trans h₂), hb⟩
  | succ j ih =>
    obtain ⟨as, s, hs, h⟩ := ih (by omega)
    obtain ⟨s₁, h₁, hb⟩ := h.send
    obtain ⟨bs, s₂, h₂, hb⟩ := hb.next (by omega)
    exact ⟨_, s₂, (run_append hs _).trans ((run_cons h₁ _).trans h₂), hb⟩

/-- The log follows every run. -/
theorem exists_tracked {s s' : State} {l : List (Option UInt64)} {as : List Act}
    (hlog : s.ring.conn.Log l) (hr : run step s as = some s') :
    ∃ l', run Tracked.step ⟨s, l⟩ as = some ⟨s', l'⟩ ∧ s'.ring.conn.Log l' := by
  induction as generalizing s l with
  | nil => cases hr; exact ⟨l, rfl, hlog⟩
  | cons a as ih =>
    rw [run] at hr
    cases hs : step s a with
    | none => rw [hs] at hr; cases hr
    | some s₁ =>
      rw [hs] at hr
      obtain ⟨l₁, ht⟩ : ∃ l₁, Tracked.step ⟨s, l⟩ a = some ⟨s₁, l₁⟩ := by
        simp only [Tracked.step, hs, Option.map_some]
        exact ⟨_, rfl⟩
      rw [run_cons ht]
      exact ih (Tracked.step_log (t := ⟨s, l⟩) hlog ht) hr

/-- Two rounds are unretired: more requests than the send queue holds. -/
theorem outstanding_overrun : ∃ acts, ¬ AllStates Tracked.step
    (fun t => t.unretired.length ≤ maxOutstandingSendWrs) (Tracked.start 131072 0) acts := by
  obtain ⟨as, s, hs, h⟩ := exists_behind (j := 8190) (by omega)
  obtain ⟨l, hr, done, hl, -⟩ := exists_tracked ⟨[], rfl, rfl⟩ hs
  refine ⟨as, fun hall => ?_⟩
  have hle := hall.last hr
  have hlen := h.sq
  rw [hl, List.length_append, List.length_map, hlen, maxOutstandingSendWrs] at hle
  omega

end Paranoid

end VirtualRDMARingBuffer

end L5RDMA
