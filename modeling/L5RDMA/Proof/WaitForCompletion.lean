/-
  What `waitForCompletion` waits for in the two RDMA rings.

  Both rings are senders that wait (`waiter_lawful`), so that a wait is for the
  write it was called for exactly if there is nothing else it could be for
  (`waitForCompletion_exact`).  A read of the receiver's position leaves an event
  behind, which ends the wait of a later message at once
  (`waitedFor_staleEvent`).
-/
import L5RDMA.Proof.RDMAMessageBuffer
import L5RDMA.Proof.Signaling
import L5RDMA.Proof.Waiter

namespace L5RDMA

open Run Verbs Channel

/-! ## The two rings -/

namespace VirtualRDMARingBuffer

def SendPc.wait : SendPc → Option WaitPc
  | .waitForCompletion pc _ => some pc
  | _ => none

theorem SendPc.of_wait {sendPc : SendPc} {pc : WaitPc} (h : sendPc.wait = some pc) :
    ∃ sizeToWrite, sendPc = .waitForCompletion pc sizeToWrite := by
  cases sendPc with
  | waitForCompletion pc' sizeToWrite => cases h; exact ⟨sizeToWrite, rfl⟩
  | _ => cases h

def waiter : Waiter State Act where
  step := step
  sender := .sender
  wait := fun s => s.sendPc.wait
  conn := State.conn

section
variable {s s' : State}

theorem sendStep_move (hs : sendStep s = some s') : (waiter.view s).Move (waiter.view s') := by
  have hmap : ∀ r : Request, (s.conn.sq ++ [r]).map Request.signal =
      s.conn.sq.map Request.signal ++ [r.signal] := fun r => List.map_append
  cases sendStep_cases hs with
  | full hpc =>
    simp only [Waiter.view, waiter, hpc, SendPc.wait, hmap]
    exact .posts _ _ _
  | room hpc | advance hpc =>
    simp only [Waiter.view, waiter, hpc, SendPc.wait]
    exact .stays _
  | polled hpc | polling hpc =>
    simp only [Waiter.view, waiter, hpc, SendPc.wait]
    exact .polls _ _
  | signaled hpc hsig =>
    simp only [Waiter.view, waiter, hpc, hmap, Request.signal, if_pos hsig]
    exact .starts _ _ _
  | unsignaled hpc hsig =>
    simp only [Waiter.view, waiter, hpc, hmap, Request.signal, if_neg hsig]
    exact .posts _ _ _
  | waiting hpc hw | waited hpc hw =>
    simp only [Waiter.view, waiter, hpc, SendPc.wait]
    exact .waits _ hw

theorem step_move {a : Act} (hs : step s a = some s') :
    (waiter.view s).Move (waiter.view s') := by
  cases a with
  | send data =>
    simp only [step] at hs
    split at hs
    next hpc =>
      cases hs
      unfold send
      dsimp only
      split_ifs
      · exact Waiter.move_of_eq (by simp [waiter]) rfl rfl
      · exact Waiter.move_of_eq (by simp [waiter, hpc, SendPc.wait]) rfl rfl
    next => cases hs
  | sender => exact sendStep_move hs
  | complete =>
    simp only [step, Option.map_eq_some_iff] at hs
    obtain ⟨conn, hc, rfl⟩ := hs
    exact Waiter.move_of_complete rfl hc
  | receive | load | receiver | land =>
    have hf := step_senderFrame hs (by simp) (by simp) (by simp)
    exact Waiter.move_of_eq (by simp [waiter, hf.sendPc]) hf.signals hf.cq

theorem waiter_lawful : waiter.Lawful where
  moves := step_move
  waits := by
    intro s pc pc' cq hw hc
    obtain ⟨sizeToWrite, hpc⟩ := SendPc.of_wait hw
    have hc' : waitForCompletion s.conn.cq pc = some (pc', cq) := hc
    refine ⟨_, by simp only [waiter, step, sendStep, hpc, hc', Option.map_some]; rfl, ?_, rfl⟩
    cases pc' <;> rfl
  lands := by
    intro s w sq hsq
    have hsq' : s.conn.sq = .write w :: sq := hsq
    obtain ⟨conn, hl, hsq', hcq⟩ := Conn.exists_land s.phys hsq'
    exact ⟨.land w.length, { s with conn := conn },
      by simp only [waiter, step, hl, Option.map_some], rfl, hsq', hcq⟩
  completes := by
    intro s conn hc
    have hc' : s.conn.complete = some conn := hc
    exact ⟨.complete, { s with conn := conn }, by simp only [waiter, step, hc', Option.map_some],
      rfl, rfl⟩

end

end VirtualRDMARingBuffer

namespace RDMAMessageBuffer

def SendPc.wait : SendPc → Option WaitPc
  | .waitForCompletion pc _ _ => some pc
  | _ => none

theorem SendPc.of_wait {sendPc : SendPc} {pc : WaitPc} (h : sendPc.wait = some pc) :
    ∃ inln parts, sendPc = .waitForCompletion pc inln parts := by
  cases sendPc with
  | waitForCompletion pc' inln parts => cases h; exact ⟨inln, parts, rfl⟩
  | _ => cases h

def waiter : Waiter State Act where
  step := step
  sender := .sender
  wait := fun s => s.sendPc.wait
  conn := State.conn

section
variable {s s' : State}

theorem wait_nextPart (inln : Bool) (parts : List Part) : (nextPart inln parts).wait = none := by
  cases parts <;> rfl

theorem sendStep_move (hs : sendStep s = some s') : (waiter.view s).Move (waiter.view s') := by
  have hmap : ∀ r : Request, (s.conn.sq ++ [r]).map Request.signal =
      s.conn.sq.map Request.signal ++ [r.signal] := fun r => List.map_append
  cases sendStep_cases hs with
  | full hpc =>
    simp only [Waiter.view, waiter, hpc, SendPc.wait, hmap]
    exact .posts _ _ _
  | copied hpc | staged hpc => exact Waiter.move_of_eq (by simp [waiter, hpc, SendPc.wait]) rfl rfl
  | polled hpc | polling hpc =>
    simp only [Waiter.view, waiter, hpc, SendPc.wait]
    exact .polls _ _
  | @signaled inln c _ hpc hsig =>
    have hr : (Request.write (writeRequest s inln c)).signal = some _ := if_pos hsig
    simp only [Waiter.view, waiter, hpc, hmap, hr, SendPc.wait]
    exact .starts _ _ _
  | unsignaled hpc =>
    simp only [Waiter.view, waiter, hpc, hmap, wait_nextPart]
    exact .posts _ _ _
  | waiting hpc hw =>
    simp only [Waiter.view, waiter, hpc, SendPc.wait]
    exact .waits _ hw
  | waited hpc hw =>
    simp only [Waiter.view, waiter, hpc, wait_nextPart]
    exact .waits _ hw

theorem step_move {a : Act} (hs : step s a = some s') :
    (waiter.view s).Move (waiter.view s') := by
  cases a with
  | send data inln =>
    simp only [step] at hs
    split at hs
    next hpc =>
      cases hs
      unfold send
      dsimp only
      split_ifs
      · exact .stays _
      · exact Waiter.move_of_eq (by simp [waiter, hpc, SendPc.wait]) rfl rfl
    next => cases hs
  | sender => exact sendStep_move hs
  | complete =>
    simp only [step, Option.map_eq_some_iff] at hs
    obtain ⟨conn, hc, rfl⟩ := hs
    exact Waiter.move_of_complete rfl hc
  | receive maxSize =>
    simp only [step] at hs
    split at hs
    next => cases hs; exact Waiter.move_of_eq rfl rfl rfl
    next => cases hs
  | load is =>
    simp only [step, Option.map_eq_some_iff] at hs
    obtain ⟨pc, -, rfl⟩ := hs
    exact Waiter.move_of_eq rfl rfl rfl
  | receiver =>
    simp only [step, recvStep] at hs
    split at hs
    next => split_ifs at hs <;> (cases hs; exact Waiter.move_of_eq rfl rfl rfl)
    next => cases hs; exact Waiter.move_of_eq rfl rfl rfl
    next => cases hs; exact Waiter.move_of_eq rfl rfl rfl
    next => cases hs
  | land k =>
    simp only [step, Option.map_eq_some_iff] at hs
    obtain ⟨conn, hland, rfl⟩ := hs
    obtain ⟨w, sq, hsq, -, rfl⟩ := Conn.land_cases hland
    refine Waiter.move_of_eq rfl ?_ rfl
    simp only [waiter, hsq]
    rfl

theorem waiter_lawful : waiter.Lawful where
  moves := step_move
  waits := by
    intro s pc pc' cq hw hc
    obtain ⟨inln, parts, hpc⟩ := SendPc.of_wait hw
    have hc' : waitForCompletion s.conn.cq pc = some (pc', cq) := hc
    refine ⟨_, by simp only [waiter, step, sendStep, hpc, hc', Option.map_some]; rfl, ?_, ?_⟩
    · cases pc' with
      | none => exact wait_nextPart inln parts
      | some pc' => rfl
    · cases pc' <;> rfl
  lands := by
    intro s w sq hsq
    obtain ⟨conn, hl, hsq', hcq⟩ := Conn.exists_land id hsq
    have hl' : s.conn.land id w.length = some conn := hl
    exact ⟨.land w.length, { s with conn := conn },
      by simp only [waiter, step, hl', Option.map_some], rfl, hsq', hcq⟩
  completes := by
    intro s conn hc
    have hc' : s.conn.complete = some conn := hc
    exact ⟨.complete, { s with conn := conn }, by simp only [waiter, step, hc', Option.map_some],
      rfl, rfl⟩

end

end RDMAMessageBuffer

/-- **`waitForCompletion` waits for its write** exactly if, when the write is posted, no event
    is left in the channel and no signaled request is incomplete. -/
theorem waitForCompletion_exact (size pos : UInt64) :
    VirtualRDMARingBuffer.waiter.WaitsExactly (VirtualRDMARingBuffer.start size pos) ∧
      RDMAMessageBuffer.waiter.WaitsExactly (RDMAMessageBuffer.start size pos) := by
  constructor
  · exact VirtualRDMARingBuffer.waiter_lawful.exact rfl rfl
  · exact RDMAMessageBuffer.waiter_lawful.exact rfl rfl

/-! ## An event that is left -/

namespace VirtualRDMARingBuffer

/-- The first message, which is signaled, is waited for and received. -/
def firstMessage : List Act :=
  [.send [], .sender, .sender, .land 16, .complete, .sender, .sender, .sender, .sender, .sender,
    .receive none, .load (List.range 8), .load (List.range 8), .receiver, .receiver, .receiver]

/-- A message that is not signaled. -/
def nextMessage : List Act := [.send [], .sender, .sender, .land 16, .complete, .sender]

/-- A message for which there is no room until the receiver's position is read. -/
def fullMessage : List Act := [.send [], .sender, .complete, .sender, .sender]

/-- After `k` messages without payload, of which the first is received. -/
structure SentEmpty (k : ℕ) (s : State) : Prop where
  size : s.size = 65536
  messageCounter : s.messageCounter = UInt64.ofNat k
  sendPos : s.sendPos = UInt64.ofNat (16 * k)
  sendPc : s.sendPc = .idle
  remoteReadPos : s.conn.remoteReadPos = UInt64.ofNat 0
  readPos : s.conn.readPos = 16
  sq : s.conn.sq = []
  cq : s.conn.cq = ⟨[], true, 0⟩

theorem firstMessage_sent :
    ∃ s, run step (start 65536 0) firstMessage = some s ∧ SentEmpty 1 s := by
  have hrun : ((run step (start 65536 0) firstMessage).map fun s =>
      ((s.size, s.messageCounter, s.sendPos, s.sendPc.ctorIdx),
        (s.conn.remoteReadPos, s.conn.readPos, s.conn.sq.length),
        s.conn.cq.entries, s.conn.cq.armed, s.conn.cq.events)) =
      some ((65536, 1, 16, 0), (0, 16, 0), [], true, 0) := by decide +kernel
  obtain ⟨s, hs, he⟩ := Option.map_eq_some_iff.1 hrun
  simp only [Prod.mk.injEq] at he
  obtain ⟨⟨hsize, hcount, hpos, hpc⟩, ⟨hrem, hread, hsq⟩, hent, harm, hev⟩ := he
  refine ⟨s, hs, hsize, hcount, hpos, ?_, hrem, hread, List.length_eq_zero_iff.1 hsq, ?_⟩
  · cases hp : s.sendPc <;> rw [hp] at hpc <;> first | rfl | cases hpc
  · rw [← hent, ← harm, ← hev]

theorem send_nil (s : State) (hsize : ¬ (16 : UInt64) > s.size) : ∃ m, send s [] = { s with
    conn := { s.conn with sendBuf := m }, sendPc := .waitUntilSendFree 16
    sent := s.sent ++ [[]] } := by
  have h16 : 8 + Pos.lengthOf ([] : List UInt8) + 8 = 16 := rfl
  rw [send]
  dsimp only
  rw [h16, if_neg hsize]
  exact ⟨_, rfl⟩

theorem SentEmpty.next {k : ℕ} {s : State} (h : SentEmpty k s) (hk : 1 ≤ k) (hk' : k < 4096) :
    ∃ s', run step s nextMessage = some s' ∧ SentEmpty (k + 1) s' := by
  have hroom : ¬ (16 : UInt64) > s.size - (s.sendPos - s.conn.remoteReadPos) := by
    rw [h.size, h.sendPos, h.remoteReadPos, Pos.room_iff (Nat.zero_le _)]
    · show 16 * k + 16 ≤ 0 + 65536
      omega
    · show 16 * k ≤ 0 + 65536
      omega
  have hsig : ¬ s.messageCounter % (4 * 1024) = 0 := by
    intro h0
    have h0 := congrArg UInt64.toNat h0
    rw [h.messageCounter, UInt64.toNat_mod, Pos.ofNat_toNat] at h0
    change k % 2 ^ 64 % 4096 = 0 at h0
    omega
  obtain ⟨m, hm⟩ := send_nil s (by rw [h.size]; decide)
  have hrun : ∃ buf, run step s nextMessage = some { s with
      messageCounter := s.messageCounter + 1, sendPos := s.sendPos + 16, sendPc := .idle
      sent := s.sent ++ [[]]
      conn := { s.conn with sendBuf := m, receiveBuf := buf, sq := [] } } := by
    simp only [nextMessage, run, step, h.sendPc, hm, sendStep, hroom, if_false, writeRequest,
      hsig, decide_false, h.sq, List.nil_append, Conn.land, Conn.complete, Write.drop,
      UInt64.reduceToNat, le_refl, if_true, Option.map_some, Nat.sub_self]
    exact ⟨_, rfl⟩
  obtain ⟨buf, hrun⟩ := hrun
  refine ⟨_, hrun, h.size, ?_, ?_, rfl, h.remoteReadPos, h.readPos, rfl, h.cq⟩
  · rw [h.messageCounter]; exact Pos.ofNat_add k 1
  · rw [h.sendPos]; exact Pos.ofNat_add (16 * k) 16

theorem exists_sentEmpty {k : ℕ} (hk : k + 1 ≤ 4096) :
    ∃ as s, run step (start 65536 0) as = some s ∧ SentEmpty (k + 1) s := by
  induction k with
  | zero =>
    obtain ⟨s, hs, h⟩ := firstMessage_sent
    exact ⟨_, s, hs, h⟩
  | succ k ih =>
    obtain ⟨as, s, hs, h⟩ := ih (by omega)
    obtain ⟨s', hs', h'⟩ := h.next (by omega) (by omega)
    exact ⟨as ++ nextMessage, s', (run_append hs _).trans hs', h'⟩

/-- The ring is full, and the event of the read is left. -/
theorem SentEmpty.full {s : State} (h : SentEmpty 4096 s) :
    ∃ s', run step s fullMessage = some s' ∧ s'.sendPc = .post 16 ∧
      s'.messageCounter = 4096 ∧ s'.conn.cq.events = 1 := by
  have hfull : (16 : UInt64) > s.size - (s.sendPos - s.conn.remoteReadPos) := by
    rw [h.size, h.sendPos, h.remoteReadPos]
    decide
  have hroom : ¬ (16 : UInt64) > s.size - (s.sendPos - s.conn.readPos) := by
    rw [h.size, h.sendPos, h.readPos]
    decide
  obtain ⟨m, hm⟩ := send_nil s (by rw [h.size]; decide)
  refine ⟨{ s with
      sendPc := .post 16
      sent := s.sent ++ [[]]
      conn := { s.conn with
        sendBuf := m, remoteReadPos := s.conn.readPos, cq := ⟨[], false, 1⟩ } },
    ?_, rfl, h.messageCounter, rfl⟩
  simp only [fullMessage, run, step, h.sendPc, hm, sendStep, hroom, hfull, if_true, if_false,
    h.sq, List.nil_append, Conn.complete, Option.map_some, h.cq, CompletionQueue.push,
    pollSendCompletionQueue, CompletionQueue.poll]

/-- The event of a read ends the wait for a write that is not complete. -/
theorem waitedFor_staleEvent : ∃ as, ¬ AllStates step waiter.WaitedFor (start 65536 0) as := by
  obtain ⟨as, s, hs, h⟩ := exists_sentEmpty (k := 4095) le_rfl
  obtain ⟨s₁, hs₁, hpc, hcount, hev⟩ := h.full
  have hsig : s₁.messageCounter % (4 * 1024) = 0 := by rw [hcount]; rfl
  have hstep : waiter.step s₁ .sender = some { s₁ with
      conn := { s₁.conn with sq := s₁.conn.sq ++ [.write (writeRequest s₁ 16)] }
      sendPc := .waitForCompletion .getEvent 16 } := by
    simp only [waiter, step, sendStep, hpc, writeRequest, hsig, decide_true, if_true]
  have hstart : waiter.wait s₁ = none := by
    simp only [waiter, hpc]
    rfl
  have hnot : ¬ waiter.Alone s₁ := by
    rintro ⟨h0, -⟩
    rw [show (waiter.conn s₁).cq.events = 1 from hev] at h0
    cases h0
  obtain ⟨t, ⟨bs, ht, -⟩, hbad⟩ := waiter_lawful.exists_early
    (fun _ => Or.inr (hev ▸ Nat.one_pos)) hstep ⟨hstart, Option.some_ne_none _⟩ hnot
  refine ⟨as ++ (fullMessage ++ .sender :: bs), fun hall => hbad (hall.last ?_)⟩
  rw [run_append hs, run_append hs₁]
  exact (run_cons hstep bs).trans ht

end VirtualRDMARingBuffer

end L5RDMA
