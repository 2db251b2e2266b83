/-
  Flow control of the two RDMA rings cannot deadlock.

  A sender that waits for space while it has the receiver's present position
  waits for a message that is posted completely and not received
  (`NoDeadlock.unread`); in the message buffer this is so in each of the three
  waits inside a message, where `sendPos` already counts bytes that are not
  posted.  The loop in which `send` waits ends without the receiver if there is
  room (`WaitLoop.ends`), so that a sender with an old position does not wait
  for a receiver that waits for it (`NoDeadlock.resumes`).
-/
import L5RDMA.Proof.FlowControl
import L5RDMA.Proof.RDMAMessageBuffer

namespace L5RDMA

open Run Verbs Channel Frame
open Pos (lengthOf powerOfTwo)

/-! ## The loop that waits for space -/

/-- The loop of `waitUntilSendFree` and `writeToSendBuffer`, at its test or polling for the
    completion of its RDMA read. -/
structure WaitLoop where
  conn : Conn
  polling : Bool

inductive WaitAct where
  | sender
  | card (a : CardAct)

/-- `full` is the test, on the sender's copy of the receiver's position. -/
def WaitLoop.step (phys : ℕ → ℕ) (full : UInt64 → Prop) [DecidablePred full] (w : WaitLoop) :
    WaitAct → Option WaitLoop
  | .sender =>
    if w.polling then
      let (id, cq) := pollSendCompletionQueue w.conn.cq
      some ⟨Conn.carry phys { w.conn with cq := cq }, id != 42⟩
    else if full w.conn.remoteReadPos then
      some ⟨Conn.carry phys { w.conn with sq := w.conn.sq ++ [.read 42] }, true⟩
    else none
  | .card a => (w.conn.card phys a).map fun conn => ⟨conn, w.polling⟩

section
variable (phys : ℕ → ℕ) (full : UInt64 → Prop) [DecidablePred full] {w : WaitLoop}

/-- A completion that is there is polled. -/
theorem WaitLoop.polled (hp : w.polling = true) (h : 42 ∈ w.conn.cq.entries) :
    ∃ as w', run (WaitLoop.step phys full) w as = some w' ∧ w'.polling = false ∧
      w'.conn.readPos = w.conn.readPos ∧ w'.conn.remoteReadPos = w.conn.remoteReadPos := by
  induction he : w.conn.cq.entries generalizing w with
  | nil => rw [he] at h; cases h
  | cons i ids ih =>
    have hstep : WaitLoop.step phys full w .sender = some
        ⟨Conn.carry phys { w.conn with cq := { w.conn.cq with entries := ids } }, i != 42⟩ := by
      simp only [WaitLoop.step, hp, if_true, pollSendCompletionQueue, CompletionQueue.poll, he]
    by_cases hi : i = 42
    · refine ⟨[.sender], _, (run_cons hstep []).trans rfl, ?_, rfl, rfl⟩
      simp [hi]
    · have hids : 42 ∈ ids := by
        rw [he] at h
        exact (List.mem_cons.1 h).resolve_left (Ne.symm hi)
      obtain ⟨as, w', hr, hpoll, hpos, hcached⟩ := ih
        (w := ⟨Conn.carry phys { w.conn with cq := { w.conn.cq with entries := ids } }, i != 42⟩)
        (by simpa using hi) hids rfl
      exact ⟨.sender :: as, w', (run_cons hstep as).trans hr, hpoll, hpos, hcached⟩

/-- All that is posted is finished, and the completion of the read is polled. -/
theorem WaitLoop.fetched (hp : w.polling = true) (h : 42 ∈ w.conn.outstanding) :
    ∃ as w', run (WaitLoop.step phys full) w as = some w' ∧ w'.polling = false ∧
      w'.conn.readPos = w.conn.readPos ∧
      ((∃ id, .read id ∈ w.conn.sq) → w'.conn.remoteReadPos = w.conn.readPos) := by
  obtain ⟨as, c, hr, hd⟩ := w.conn.drain phys
  have hcard := run_map (fun c => (⟨c, w.polling⟩ : WaitLoop)) WaitAct.card
    (fun c a c' hc => show WaitLoop.step phys full _ _ = _ by
      simp only [WaitLoop.step, hc, Option.map_some]) hr
  have hmem : 42 ∈ c.cq.entries := hd.entries ▸ h
  obtain ⟨bs, w', hr', hpoll, hpos, hcached⟩ :=
    WaitLoop.polled phys full (w := ⟨c, w.polling⟩) hp hmem
  exact ⟨_, w', (run_append hcard bs).trans hr', hpoll, hpos.trans hd.readPos,
    fun hread => hcached.trans (hd.fetched hread)⟩

/-- **The loop ends** without the receiver, if its test fails on the receiver's position. -/
theorem WaitLoop.ends (hread : w.polling = true → 42 ∈ w.conn.outstanding)
    (hroom : ¬ full w.conn.readPos) :
    ∃ as w', run (WaitLoop.step phys full) w as = some w' ∧ w'.polling = false ∧
      ¬ full w'.conn.remoteReadPos := by
  have htest : ∀ w₁ : WaitLoop, w₁.polling = false → ¬ full w₁.conn.readPos →
      ∃ as w', run (WaitLoop.step phys full) w₁ as = some w' ∧ w'.polling = false ∧
        ¬ full w'.conn.remoteReadPos := by
    intro w₁ hp hroom
    by_cases hfull : full w₁.conn.remoteReadPos
    · -- the position is old, and another read is posted
      have hstep : WaitLoop.step phys full w₁ .sender = some
          ⟨Conn.carry phys { w₁.conn with sq := w₁.conn.sq ++ [.read 42] }, true⟩ := by
        simp [WaitLoop.step, hp, hfull]
      have h42 : Request.read 42 ∈
          (Conn.carry phys { w₁.conn with sq := w₁.conn.sq ++ [.read 42] }).sq := by
        simp [Conn.carry, Request.carry]
      obtain ⟨as, w', hr, hpoll, hpos, hcached⟩ := WaitLoop.fetched phys full
        (w := ⟨Conn.carry phys { w₁.conn with sq := w₁.conn.sq ++ [.read 42] }, true⟩) rfl
        (List.mem_append_right _ (List.mem_filterMap.2 ⟨_, h42, rfl⟩))
      refine ⟨.sender :: as, w', (run_cons hstep as).trans hr, hpoll, ?_⟩
      rw [hcached ⟨42, h42⟩]
      exact hroom
    · exact ⟨[], w₁, rfl, hp, hfull⟩
  cases hp : w.polling with
  | false => exact htest w hp hroom
  | true =>
    obtain ⟨as, w₁, hr, hpoll, hpos, -⟩ :=
      WaitLoop.fetched phys full hp (hread hp)
    obtain ⟨bs, w', hr', hend⟩ := htest w₁ hpoll (hpos.symm ▸ hroom)
    exact ⟨as ++ bs, w', (run_append hr bs).trans hr', hend⟩

end

namespace VirtualRDMARingBuffer

/-- `send` is in the loop that waits for space. -/
def SendPc.WaitsFor (sizeToWrite : UInt64) (pc : SendPc) : Prop :=
  pc = .waitUntilSendFree sizeToWrite ∨ pc = .pollRead sizeToWrite

/-- The sender waits for space with an up-to-date position of the receiver. -/
def Blocked (s : State) : Prop :=
  s.conn.remoteReadPos = s.conn.readPos ∧ ∃ sizeToWrite, s.sendPc.WaitsFor sizeToWrite ∧
    sizeToWrite > s.size - (s.sendPos - s.conn.remoteReadPos)

/-- The receiver polls for a message that was never posted. -/
def Starved (s : State) : Prop :=
  s.received = s.posted ∧
    match s.recvPc with
    | .size _ _ | .check _ _ _ => True
    | _ => False

/-- A step of the sender or of the network card. -/
def Act.Unaided : Act → Prop
  | .sender | .land _ | .complete => True
  | .send _ | .receive _ | .load _ | .receiver => False

structure NoDeadlock (s : State) : Prop where
  /-- a complete message is posted and not received -/
  unread : Blocked s → ∃ p, s.received ++ [p] <+: s.posted
  notBoth : ¬ (Blocked s ∧ Starved s)
  /-- if there is none, the loop can end without the receiver -/
  resumes : ∀ sizeToWrite, s.sendPc.WaitsFor sizeToWrite → s.received = s.posted →
    ∃ acts s', (∀ a ∈ acts, a.Unaided) ∧ run stepCarrying s acts = some s' ∧
      s'.sendPc = .post sizeToWrite

section
variable {B : ℕ} {s : State}

/-- There is room once the receiver has all that is posted. -/
theorem Flow.room (h : Flow B s) {sizeToWrite : UInt64} (hpc : s.sendPc.WaitsFor sizeToWrite)
    (hall : s.received = s.posted) :
    ¬ sizeToWrite > s.size - (s.sendPos - s.conn.readPos) := by
  obtain ⟨F, Z, A, C, hi⟩ := h.clean.1
  rw [hi.posted_eq] at hall
  obtain ⟨p, hp⟩ : ∃ p, Pending s.size.toNat B F s.sent s.sendPos s.conn.sendBuf sizeToWrite p := by
    have hsend := hi.send
    rcases hpc with hpc | hpc <;> (rw [hpc] at hsend; exact hsend)
  have hfits := hp.fits
  rw [hp.pos, hi.chan.readPos, hall, Pos.room_iff le_rfl (Nat.le_add_right _ _), hp.size,
    toNat_frameSize hp.fits]
  omega

theorem Flow.unread (h : Flow B s) (hb : Blocked s) : ∃ p, s.received ++ [p] <+: s.posted := by
  obtain ⟨hread, sizeToWrite, hpc, hfull⟩ := hb
  rw [hread] at hfull
  obtain ⟨F, Z, A, C, hi⟩ := h.clean.1
  have hpre : s.received <+: s.posted := hi.posted_eq ▸ hi.chan.prefix_
  obtain ⟨T, hT⟩ := hpre
  cases T with
  | nil => exact absurd hfull (h.room hpc (by rw [← hT, List.append_nil]))
  | cons p T => exact ⟨p, T, by rw [← hT, List.append_assoc]; rfl⟩

/-- The ring with another state of its loop. -/
def State.looping (s : State) (sizeToWrite : UInt64) (w : WaitLoop) : State :=
  { s with
    conn := w.conn
    sendPc := if w.polling then .pollRead sizeToWrite else .waitUntilSendFree sizeToWrite }

def WaitAct.act : WaitAct → Act
  | .sender => .sender
  | .card (.land k) => .land k
  | .card .complete => .complete

theorem step_looping (sizeToWrite : UInt64) {w w' : WaitLoop} {a : WaitAct}
    (hs : WaitLoop.step s.phys (fun r => sizeToWrite > s.size - (s.sendPos - r)) w a = some w') :
    stepCarrying (s.looping sizeToWrite w) (WaitAct.act a) = some (s.looping sizeToWrite w') := by
  cases a with
  | sender =>
    simp only [WaitLoop.step] at hs
    split_ifs at hs with hp hfull
    · cases hs
      have hstep : step (s.looping sizeToWrite w) .sender = some (s.looping sizeToWrite
          ⟨{ w.conn with cq := (pollSendCompletionQueue w.conn.cq).2 },
            (pollSendCompletionQueue w.conn.cq).1 != 42⟩) := by
        by_cases hid : (pollSendCompletionQueue w.conn.cq).1 = 42
        · simp [step, sendStep, State.looping, hp, hid]
        · simp [step, sendStep, State.looping, hp, hid]
      rw [WaitAct.act, stepCarrying, hstep]
      rfl
    · cases hs
      have hstep : step (s.looping sizeToWrite w) .sender = some (s.looping sizeToWrite
          ⟨{ w.conn with sq := w.conn.sq ++ [.read 42] }, true⟩) := by
        simp [step, sendStep, State.looping, hp, hfull]
      rw [WaitAct.act, stepCarrying, hstep]
      rfl
  | card a =>
    simp only [WaitLoop.step, Option.map_eq_some_iff] at hs
    obtain ⟨conn, hc, rfl⟩ := hs
    cases a with
    | land k | complete =>
      simp only [Conn.card, Option.map_eq_some_iff] at hc
      obtain ⟨conn', hc, rfl⟩ := hc
      simp only [stepCarrying, WaitAct.act, step, Option.map_eq_some_iff]
      exact ⟨_, ⟨conn', hc, rfl⟩, rfl⟩

theorem Flow.resumes (h : Flow B s) {sizeToWrite : UInt64} (hpc : s.sendPc.WaitsFor sizeToWrite)
    (hall : s.received = s.posted) : ∃ acts s', (∀ a ∈ acts, a.Unaided) ∧
      run stepCarrying s acts = some s' ∧ s'.sendPc = .post sizeToWrite := by
  obtain ⟨polling, hs, hread⟩ : ∃ polling, s = s.looping sizeToWrite ⟨s.conn, polling⟩ ∧
      (polling = true → 42 ∈ s.conn.outstanding) := by
    rcases hpc with hpc | hpc
    · exact ⟨false, by rw [State.looping, if_neg Bool.false_ne_true, ← hpc], by simp⟩
    · refine ⟨true, by rw [State.looping, if_pos rfl, ← hpc], fun _ => ?_⟩
      have hcount := h.reads.count
      rw [hpc] at hcount
      exact List.count_pos_iff.1 (Nat.lt_of_lt_of_eq Nat.one_pos hcount.symm)
  obtain ⟨as, w', hr, hpoll, hroom⟩ := WaitLoop.ends s.phys
    (fun r => sizeToWrite > s.size - (s.sendPos - r)) (w := ⟨s.conn, polling⟩) hread
    (h.room hpc hall)
  have hrun := run_map (s.looping sizeToWrite) WaitAct.act (fun _ _ _ hs => step_looping _ hs) hr
  rw [← hs] at hrun
  have hlast : step (s.looping sizeToWrite w') .sender =
      some { s.looping sizeToWrite w' with sendPc := .post sizeToWrite } := by
    simp [step, sendStep, State.looping, hpoll, hroom]
  refine ⟨as.map WaitAct.act ++ [.sender], _, ?_,
    (run_append hrun _).trans (run_cons (by rw [stepCarrying, hlast]; rfl) []), rfl⟩
  intro a ha
  rcases List.mem_append.1 ha with ha | ha
  · obtain ⟨b, -, rfl⟩ := List.mem_map.1 ha
    rcases b with _ | (_ | _) <;> trivial
  · rw [List.mem_singleton.1 ha]; trivial

theorem Flow.noDeadlock (h : Flow B s) : NoDeadlock s where
  unread := h.unread
  notBoth := by
    rintro ⟨hb, hall, -⟩
    obtain ⟨p, hp⟩ := h.unread hb
    rw [← hall] at hp
    have hlen := hp.length_le
    rw [List.length_append, List.length_singleton] at hlen
    omega
  resumes := fun _ hpc hall => h.resumes hpc hall

end

end VirtualRDMARingBuffer

namespace RDMAMessageBuffer

/-- The messages whose frames are posted completely. -/
def State.posted (s : State) : List (List UInt8) :=
  match s.sendPc with
  | .idle | .waitForCompletion _ _ [] => s.sent
  | .writeToSendBuffer _ _ _ _ _ | .pollRead _ _ _ _ _ | .post _ _
  | .waitForCompletion _ _ (_ :: _) => s.sent.dropLast

/-- `send` is in the loop of `writeToSendBuffer(data)`. -/
def SendPc.WaitsFor (data : List UInt8) (pc : SendPc) : Prop :=
  ∃ inln startOfWrite sizeToWrite later,
    pc = .writeToSendBuffer inln startOfWrite sizeToWrite data later ∨
      pc = .pollRead inln startOfWrite sizeToWrite data later

/-- The sender waits for space with an up-to-date position of the receiver. -/
def Blocked (s : State) : Prop :=
  s.conn.remoteReadPos = s.conn.readPos ∧ ∃ data, s.sendPc.WaitsFor data ∧
    lengthOf data > s.size - (s.sendPos - s.conn.remoteReadPos)

/-- The receiver polls for a message that was never posted. -/
def Starved (s : State) : Prop :=
  s.received = s.posted ∧
    match s.recvPc with
    | .size _ _ | .check _ _ _ => True
    | _ => False

/-- A step of the sender or of the network card. -/
def Act.Unaided : Act → Prop
  | .sender | .land _ | .complete => True
  | .send _ _ | .receive _ | .load _ | .receiver => False

structure NoDeadlock (s : State) : Prop where
  /-- a complete message is posted and not received -/
  unread : Blocked s → ∃ p, s.received ++ [p] <+: s.posted
  notBoth : ¬ (Blocked s ∧ Starved s)
  /-- if there is none, the loop can end without the receiver, and the data is copied -/
  resumes : ∀ data, s.sendPc.WaitsFor data → s.received = s.posted →
    ∃ acts s', (∀ a ∈ acts, a.Unaided) ∧ run stepCarrying s acts = some s' ∧
      s'.sendPos = s.sendPos + lengthOf data

section
variable {B : ℕ} {s s' : State}

/-! ## Reads of the remote position -/

def SendPc.polling : SendPc → Bool
  | .pollRead _ _ _ _ _ => true
  | _ => false

/-- The completion of the read is still to come while the sender polls for it. -/
def ReadPending (s : State) : Prop := s.sendPc.polling = true → 42 ∈ s.conn.outstanding

theorem sendStep_readPending (h : ReadPending s) (hs : sendStep s = some s') : ReadPending s' := by
  unfold ReadPending at h ⊢
  cases sendStep_cases hs with
  | full =>
    intro _
    simp [Conn.outstanding, Request.signal]
  | polling hpc hid =>
    intro _
    have h42 := h (by rw [hpc]; rfl)
    cases he : s.conn.cq.entries with
    | nil => simpa [Conn.outstanding, pollSendCompletionQueue, CompletionQueue.poll, he] using h42
    | cons i ids =>
      simp only [Conn.outstanding, he, pollSendCompletionQueue, CompletionQueue.poll] at h42 hid ⊢
      rw [List.cons_append] at h42
      exact (List.mem_cons.1 h42).resolve_left (Ne.symm hid)
  | copied | staged | polled | signaled | waiting => exact fun hp => by cases hp
  | @unsignaled _ _ parts | @waited _ _ _ parts => cases parts <;> exact fun hp => by cases hp

theorem step_readPending {a : Act} (h : ReadPending s) (hs : step s a = some s') :
    ReadPending s' := by
  cases a with
  | send data inln =>
    simp only [step] at hs
    split at hs
    next hpc =>
      cases hs
      unfold send
      dsimp only
      split_ifs
      · exact h
      · exact fun hp => by cases hp
    next => cases hs
  | sender => exact sendStep_readPending h hs
  | receive maxSize =>
    simp only [step] at hs
    split at hs
    next => cases hs; exact h
    next => cases hs
  | load is =>
    simp only [step, Option.map_eq_some_iff] at hs
    obtain ⟨pc, -, rfl⟩ := hs
    exact h
  | receiver =>
    simp only [step, recvStep] at hs
    split at hs
    next => split_ifs at hs <;> (cases hs; exact h)
    next => cases hs; exact h
    next => cases hs; exact h
    next => cases hs
  | land k =>
    simp only [step, Option.map_eq_some_iff] at hs
    obtain ⟨conn, hland, rfl⟩ := hs
    exact fun hp => Conn.land_outstanding hland ▸ h hp
  | complete =>
    simp only [step, Option.map_eq_some_iff] at hs
    obtain ⟨conn, hcomp, rfl⟩ := hs
    exact fun hp => Conn.complete_outstanding hcomp ▸ h hp

/-! ## The invariant -/

/-- The invariant with a network card that reads a write's bytes when it is posted. -/
structure Flow (B : ℕ) (s : State) : Prop where
  inv : Inv B s
  clean : ∀ p ∈ s.sent, Clean V p
  reads : ReadPending s

theorem InvAt.carry {F : List (List UInt8)} {Z A P C : ℕ} (h : InvAt B F Z A P C s) :
    InvAt B F Z A P C s.carry where
  pow := h.pow
  words := h.words
  chan := { h.chan with feed := h.chan.feed.carry }
  recv := h.recv
  send := h.send

theorem Flow.carry (h : Flow B s) : Flow B s.carry := by
  obtain ⟨F, Z, A, P, C, hi⟩ := h.inv
  exact ⟨⟨F, Z, A, P, C, hi.carry⟩, h.clean,
    fun hp => (Conn.outstanding_carry id s.conn).symm ▸ h.reads hp⟩

theorem step_flow {a : Act} (h : Flow B s)
    (ha : ∀ data inln, a = .send data inln → data.length + 16 ≤ s.size.toNat ∧ ¬ V <:+: data)
    (hs : step s a = some s') : Flow B s' := by
  obtain ⟨F, Z, A, P, C, hi⟩ := h.inv
  refine ⟨step_inv hi (fun data inln hd => (ha data inln hd).1) h.clean hs, ?_,
    step_readPending h.reads hs⟩
  rcases (step_frame hs).2 with hsent | ⟨data, inln, rfl, hsent⟩
  · rw [hsent]; exact h.clean
  · intro p hp
    rw [hsent] at hp
    rcases List.mem_append.1 hp with hp | hp
    · exact h.clean p hp
    · rw [List.mem_singleton] at hp
      exact hp ▸ clean_of_not_infix (ha data inln rfl).2

/-- What holds in the states of the invariant holds in every state of a run. -/
theorem allStates_of_flow {size : UInt64} (hpow : powerOfTwo size = true)
    (h16 : 16 ≤ size.toNat) (pos : UInt64) {P : State → Prop}
    (hP : ∀ s, Flow pos.toNat s → s.size = size → P s) {acts : List Act}
    (hacts : ∀ data inln, Act.send data inln ∈ acts →
      data.length + 16 ≤ size.toNat ∧ ¬ V <:+: data) :
    AllStates stepCarrying P (start size pos) acts := by
  refine allStates_of_along (I := fun s => Flow pos.toNat s ∧ s.size = size)
    (C := fun _ a => ∀ data inln, a = .send data inln →
      data.length + 16 ≤ size.toNat ∧ ¬ V <:+: data)
    (fun s h => hP s h.1 h.2) ?_
    ⟨⟨inv_start hpow h16 pos, fun p hp => by (cases hp), fun hp => by cases hp⟩, rfl⟩
    (along_of_forall fun a ha _ data inln hd => hacts data inln (hd ▸ ha))
  rintro s a s' ⟨hflow, rfl⟩ ha hs
  simp only [stepCarrying, Option.map_eq_some_iff] at hs
  obtain ⟨s₁, hs, rfl⟩ := hs
  exact ⟨(step_flow hflow ha hs).carry, (step_frame hs).1⟩

/-! ## No deadlock -/

theorem InvAt.posted_eq {F : List (List UInt8)} {Z A P C : ℕ} (h : InvAt B F Z A P C s)
    {data : List UInt8} (hpc : s.sendPc.WaitsFor data) : s.posted = F ∧
      ∃ done : List UInt8, data.length + done.length ≤ s.size.toNat ∧
        s.sendPos = UInt64.ofNat (endPos V B F + done.length) := by
  have hsend := h.send
  obtain ⟨inln, startOfWrite, sizeToWrite, later, hpc⟩ := hpc
  obtain ⟨-, p, done, hst⟩ : P = endPos V B F ∧ ∃ p done, Staging s.size.toNat B F C s.sent
      s.sendPos s.conn.sendBuf startOfWrite sizeToWrite (data ++ later.flatten) p done := by
    rcases hpc with hpc | hpc <;> (rw [hpc] at hsend; exact hsend)
  refine ⟨?_, done, ?_, hst.pos⟩
  · unfold State.posted
    rcases hpc with hpc | hpc <;> (rw [hpc]; simp only [hst.sent, List.dropLast_concat])
  · have hlen := congrArg List.length hst.frame
    rw [length_frame, length_trailer, List.length_append, List.length_append] at hlen
    have := hst.fits
    omega

/-- There is room once the receiver has all that is posted. -/
theorem Flow.room (h : Flow B s) {data : List UInt8} (hpc : s.sendPc.WaitsFor data)
    (hall : s.received = s.posted) :
    ¬ lengthOf data > s.size - (s.sendPos - s.conn.readPos) := by
  obtain ⟨F, Z, A, P, C, hi⟩ := h.inv
  obtain ⟨hF, done, hlen, hpos⟩ := hi.posted_eq hpc
  rw [hF] at hall
  -- the bytes of the message that are staged are all that is in use
  rw [hpos, hi.chan.readPos, hall,
    Pos.room_iff (Nat.le_add_right _ _) (Nat.add_le_add_left (by omega) _),
    lengthOf_toNat (s := s) (by omega)]
  omega

theorem Flow.unread (h : Flow B s) (hb : Blocked s) : ∃ p, s.received ++ [p] <+: s.posted := by
  obtain ⟨hread, data, hpc, hfull⟩ := hb
  rw [hread] at hfull
  obtain ⟨F, Z, A, P, C, hi⟩ := h.inv
  have hpre : s.received <+: s.posted := (hi.posted_eq hpc).1 ▸ hi.chan.prefix_
  obtain ⟨T, hT⟩ := hpre
  cases T with
  | nil => exact absurd hfull (h.room hpc (by rw [← hT, List.append_nil]))
  | cons p T => exact ⟨p, T, by rw [← hT, List.append_assoc]; rfl⟩

/-- The buffer with another state of its loop. -/
def State.looping (s : State) (inln : Bool) (startOfWrite sizeToWrite : UInt64)
    (data : List UInt8) (later : List (List UInt8)) (w : WaitLoop) : State :=
  { s with
    conn := w.conn
    sendPc :=
      if w.polling then .pollRead inln startOfWrite sizeToWrite data later
      else .writeToSendBuffer inln startOfWrite sizeToWrite data later }

def WaitAct.act : WaitAct → Act
  | .sender => .sender
  | .card (.land k) => .land k
  | .card .complete => .complete

section
variable (inln : Bool) (startOfWrite sizeToWrite : UInt64) (data : List UInt8)
  (later : List (List UInt8))

theorem step_looping {w w' : WaitLoop} {a : WaitAct}
    (hs : WaitLoop.step id (fun r => lengthOf data > s.size - (s.sendPos - r)) w a = some w') :
    stepCarrying (s.looping inln startOfWrite sizeToWrite data later w) (WaitAct.act a) =
      some (s.looping inln startOfWrite sizeToWrite data later w') := by
  cases a with
  | sender =>
    simp only [WaitLoop.step] at hs
    split_ifs at hs with hp hfull
    · cases hs
      have hstep : step (s.looping inln startOfWrite sizeToWrite data later w) .sender =
          some (s.looping inln startOfWrite sizeToWrite data later
            ⟨{ w.conn with cq := (pollSendCompletionQueue w.conn.cq).2 },
              (pollSendCompletionQueue w.conn.cq).1 != 42⟩) := by
        by_cases hid : (pollSendCompletionQueue w.conn.cq).1 = 42
        · simp [step, sendStep, State.looping, hp, hid]
        · simp [step, sendStep, State.looping, hp, hid]
      rw [WaitAct.act, stepCarrying, hstep]
      rfl
    · cases hs
      have hstep : step (s.looping inln startOfWrite sizeToWrite data later w) .sender =
          some (s.looping inln startOfWrite sizeToWrite data later
            ⟨{ w.conn with sq := w.conn.sq ++ [.read 42] }, true⟩) := by
        simp [step, sendStep, State.looping, hp, hfull]
      rw [WaitAct.act, stepCarrying, hstep]
      rfl
  | card a =>
    simp only [WaitLoop.step, Option.map_eq_some_iff] at hs
    obtain ⟨conn, hc, rfl⟩ := hs
    cases a with
    | land k | complete =>
      simp only [Conn.card, Option.map_eq_some_iff] at hc
      obtain ⟨conn', hc, rfl⟩ := hc
      simp only [stepCarrying, WaitAct.act, step, Option.map_eq_some_iff]
      exact ⟨_, ⟨conn', hc, rfl⟩, rfl⟩

end

theorem Flow.resumes (h : Flow B s) {data : List UInt8} (hpc : s.sendPc.WaitsFor data)
    (hall : s.received = s.posted) : ∃ acts s', (∀ a ∈ acts, a.Unaided) ∧
      run stepCarrying s acts = some s' ∧ s'.sendPos = s.sendPos + lengthOf data := by
  have hroom := h.room hpc hall
  obtain ⟨inln, startOfWrite, sizeToWrite, later, hpc⟩ := hpc
  obtain ⟨polling, hs, hread⟩ : ∃ polling,
      s = s.looping inln startOfWrite sizeToWrite data later ⟨s.conn, polling⟩ ∧
      (polling = true → 42 ∈ s.conn.outstanding) := by
    rcases hpc with hpc | hpc
    · exact ⟨false, by rw [State.looping, if_neg Bool.false_ne_true, ← hpc], by simp⟩
    · exact ⟨true, by rw [State.looping, if_pos rfl, ← hpc],
        fun _ => h.reads (by rw [hpc]; rfl)⟩
  obtain ⟨as, w', hr, hpoll, hroom⟩ := WaitLoop.ends id
    (fun r => lengthOf data > s.size - (s.sendPos - r)) (w := ⟨s.conn, polling⟩) hread
    hroom
  have hrun := run_map (s.looping inln startOfWrite sizeToWrite data later) WaitAct.act
    (fun _ _ _ hs => step_looping _ _ _ _ _ hs) hr
  rw [← hs] at hrun
  obtain ⟨s', hlast, hpos⟩ : ∃ s',
      stepCarrying (s.looping inln startOfWrite sizeToWrite data later w') .sender = some s' ∧
        s'.sendPos = s.sendPos + lengthOf data := by
    simp only [stepCarrying, step, sendStep, State.looping, hpoll, Bool.false_eq_true, if_false,
      if_neg hroom, Option.map_some]
    exact ⟨_, rfl, rfl⟩
  refine ⟨as.map WaitAct.act ++ [.sender], s', ?_,
    (run_append hrun _).trans (run_cons hlast []), hpos⟩
  intro a ha
  rcases List.mem_append.1 ha with ha | ha
  · obtain ⟨b, -, rfl⟩ := List.mem_map.1 ha
    rcases b with _ | (_ | _) <;> trivial
  · rw [List.mem_singleton.1 ha]; trivial

theorem Flow.noDeadlock (h : Flow B s) : NoDeadlock s where
  unread := h.unread
  notBoth := by
    rintro ⟨hb, hall, -⟩
    obtain ⟨p, hp⟩ := h.unread hb
    rw [← hall] at hp
    have hlen := hp.length_le
    rw [List.length_append, List.length_singleton] at hlen
    omega
  resumes := fun _ hpc hall => h.resumes hpc hall

/-- Without a call of `send` nothing waits for space. -/
theorem noDeadlock_of_idle (h : s.sendPc = .idle) : NoDeadlock s := by
  have hpc : ∀ data, ¬ s.sendPc.WaitsFor data := by
    rintro data ⟨inln, startOfWrite, sizeToWrite, later, hpc | hpc⟩ <;> (rw [h] at hpc; cases hpc)
  refine ⟨?_, ?_, fun data hw => absurd hw (hpc data)⟩
  · rintro ⟨-, data, hw, -⟩
    exact absurd hw (hpc data)
  · rintro ⟨⟨-, data, hw, -⟩, -⟩
    exact hpc data hw

theorem step_idle {a : Act} (h : s.sendPc = .idle) (ha : ∀ data inln, a ≠ .send data inln)
    (hs : stepCarrying s a = some s') : s'.sendPc = .idle := by
  simp only [stepCarrying, Option.map_eq_some_iff] at hs
  obtain ⟨s₁, hs, rfl⟩ := hs
  show s₁.sendPc = .idle
  cases a with
  | send data inln => exact absurd rfl (ha data inln)
  | sender => simp only [step, sendStep, h] at hs; cases hs
  | receive maxSize =>
    simp only [step] at hs
    split at hs
    next => cases hs; exact h
    next => cases hs
  | receiver =>
    simp only [step, recvStep] at hs
    split at hs
    next => split_ifs at hs <;> (cases hs; exact h)
    next => cases hs; exact h
    next => cases hs; exact h
    next => cases hs
  | load | land | complete =>
    simp only [step, Option.map_eq_some_iff] at hs
    obtain ⟨_, -, rfl⟩ := hs
    exact h

end

end RDMAMessageBuffer

/-- **Flow control cannot deadlock**, of either ring, with messages that fit and do not contain
    the bytes of `validity`. -/
theorem deadlock_free {size : UInt64} (hpow : powerOfTwo size = true) (pos : UInt64) :
    (∀ acts : List VirtualRDMARingBuffer.Act,
      (∀ data, .send data ∈ acts →
        data.length + 16 ≤ size.toNat ∧ ¬ VirtualRDMARingBuffer.V <:+: data) →
      AllStates VirtualRDMARingBuffer.stepCarrying VirtualRDMARingBuffer.NoDeadlock
        (VirtualRDMARingBuffer.start size pos) acts) ∧
    ∀ acts : List RDMAMessageBuffer.Act,
      (∀ data inln, .send data inln ∈ acts →
        data.length + 16 ≤ size.toNat ∧ ¬ RDMAMessageBuffer.V <:+: data) →
      AllStates RDMAMessageBuffer.stepCarrying RDMAMessageBuffer.NoDeadlock
        (RDMAMessageBuffer.start size pos) acts := by
  constructor
  · intro acts hacts
    exact VirtualRDMARingBuffer.allStates_of_flow hpow pos (fun _ h _ => h.noDeadlock) hacts
  · intro acts hacts
    rcases Nat.lt_or_ge size.toNat 16 with hlt | h16
    · -- no message fits
      refine allStates_of_along (I := fun s => s.sendPc = .idle)
        (C := fun _ a => ∀ data inln, a ≠ .send data inln)
        (fun _ h => RDMAMessageBuffer.noDeadlock_of_idle h)
        (fun _ _ _ h ha hs => RDMAMessageBuffer.step_idle h ha hs) rfl
        (along_of_forall fun a ha _ data inln hd => ?_)
      have := (hacts data inln (hd ▸ ha)).1
      omega
    · exact RDMAMessageBuffer.allStates_of_flow hpow h16 pos (fun _ h _ => h.noDeadlock) hacts

/-- The payload of a message as large as the ring. -/
def wholeRing : List UInt8 := List.replicate 4080 1

/-- It is sent behind one that is not received. -/
def VirtualRDMARingBuffer.behindUnread : List VirtualRDMARingBuffer.Act :=
  sendFirst ++ [.send (wholeRing), .sender]

def RDMAMessageBuffer.behindUnread : List RDMAMessageBuffer.Act :=
  [.send [] true, .sender, .sender, .sender, .sender, .land 16, .complete, .sender, .sender,
    .sender, .sender, .send (wholeRing) true, .sender, .sender]

set_option maxRecDepth 20000 in
/-- The message waits for space, in the message buffer after its length. -/
theorem deadlock_free_behindUnread :
    (∃ s, run VirtualRDMARingBuffer.stepCarrying (VirtualRDMARingBuffer.start 4096 0)
        VirtualRDMARingBuffer.behindUnread = some s ∧ VirtualRDMARingBuffer.Blocked s ∧
      VirtualRDMARingBuffer.NoDeadlock s) ∧
    ∃ s, run RDMAMessageBuffer.stepCarrying (RDMAMessageBuffer.start 4096 0)
        RDMAMessageBuffer.behindUnread = some s ∧ RDMAMessageBuffer.Blocked s ∧
      RDMAMessageBuffer.NoDeadlock s := by
  have h := deadlock_free (show powerOfTwo 4096 = true by decide) 0
  have h₁ := h.1 VirtualRDMARingBuffer.behindUnread (by
    intro data hd
    have hd : data = [] ∨ data = wholeRing := by
      simpa [VirtualRDMARingBuffer.behindUnread, VirtualRDMARingBuffer.sendFirst] using hd
    rcases hd with rfl | rfl <;> decide +kernel)
  have h₂ := h.2 RDMAMessageBuffer.behindUnread (by
    intro data inln hd
    have hd : data = [] ∧ inln = true ∨ data = wholeRing ∧ inln = true := by
      simpa [RDMAMessageBuffer.behindUnread] using hd
    rcases hd with ⟨rfl, -⟩ | ⟨rfl, -⟩ <;> decide +kernel)
  exact ⟨⟨_, rfl, ⟨rfl, 4096, Or.inr rfl, by decide⟩, h₁.last rfl⟩,
    _, rfl, ⟨rfl, wholeRing, ⟨true, 16, 4096, [bytesOf RDMAMessageBuffer.validity],
      Or.inr rfl⟩, by decide⟩, h₂.last rfl⟩

end L5RDMA
