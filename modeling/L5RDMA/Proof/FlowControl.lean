/-
  Flow control of the RDMA ring.

  The sender's `remoteReadPos` is a copy of the receiver's `localReadPos` from
  some time ago, which it fetches with RDMA reads.  `FlowControl` says, in
  unbounded positions, that the copy is never ahead of either counter, that the
  ring is never overrun, that what the receiver has consumed is zero again, and
  what posted writes may touch.  `flowControl_carrying`: it holds in every
  state, for messages of every size, if a write takes its bytes along when it
  is posted.

  No read of the counter is outstanding but while the sender polls for it
  (`ReadsOk`); otherwise the copy could overtake `sendPos`, which lags behind
  the last posted frame until `send` returns.
-/
import L5RDMA.Lib.Card
import L5RDMA.Proof.Signaling
import L5RDMA.Proof.VirtualRDMARingBuffer

namespace L5RDMA

namespace VirtualRDMARingBuffer

open Run Verbs Channel Frame
open Pos (lengthOf powerOfTwo)

/-- The messages whose frames are posted: all but one that waits for space. -/
def State.posted (s : State) : List (List UInt8) :=
  match s.sendPc with
  | .waitUntilSendFree _ | .pollRead _ | .post _ => s.sent.dropLast
  | .idle | .waitForCompletion _ _ | .advance _ => s.sent

/-- The messages that `sendPos` counts: all but the one of an active `send`. -/
def State.counted (s : State) : List (List UInt8) :=
  match s.sendPc with
  | .idle => s.sent
  | _ => s.sent.dropLast

/-- The indices of the two rings that the next step of an action uses. -/
def Index (s : State) : Act → ℕ → Prop
  | .send data, i => s.startOfWrite ≤ i ∧ i < s.startOfWrite + (data.length + 16)
  | .sender, i =>
    match s.sendPc with
    | .post sizeToWrite =>
      let wr := writeRequest s sizeToWrite
      (wr.localOff ≤ i ∧ i < wr.localOff + wr.length) ∨
        (wr.remoteOff ≤ i ∧ i < wr.remoteOff + wr.length)
    | _ => False
  | .load _, i =>
    match s.recvPc with
    | .size _ _ => s.startOfRead ≤ i ∧ i < s.startOfRead + 8
    | .check _ receiveSize _ =>
      s.startOfRead + 8 + receiveSize.toNat ≤ i ∧ i < s.startOfRead + 8 + receiveSize.toNat + 8
    | _ => False
  | .receiver, i =>
    match s.recvPc with
    | .found _ receiveSize | .clear _ receiveSize =>
      s.startOfRead ≤ i ∧ i < s.startOfRead + (8 + receiveSize.toNat + 8)
    | _ => False
  | _, _ => False

/-- Positions count from `B`.  The receiver has read to `R`, frames are posted to `P`, and
    `sendPos` is at `S`. -/
structure FlowControl (B : ℕ) (s : State) : Prop where
  readPos : s.conn.readPos = UInt64.ofNat (endPos V B s.received)
  sendPos : s.sendPos = UInt64.ofNat (endPos V B s.counted)
  /-- the cached position is ahead of neither counter, and at most a ring behind -/
  remoteReadPos : ∃ C, s.conn.remoteReadPos = UInt64.ofNat C ∧ C ≤ endPos V B s.received ∧
    C ≤ endPos V B s.counted ∧ endPos V B s.counted ≤ C + s.size.toNat
  /-- so that `size - (sendPos - remoteReadPos)` does not underflow -/
  room : s.sendPos - s.conn.remoteReadPos ≤ s.size
  window : endPos V B s.posted ≤ endPos V B s.received + s.size.toNat
  /-- a queued write touches no cell of an unread position before its own -/
  writes : ∀ l w r, s.conn.sq = l ++ .write w :: r → ∀ i < w.length, ∀ q,
    endPos V B s.received ≤ q → q + w.length + pendingBytes r < endPos V B s.posted →
      s.phys (w.remoteOff + i) ≠ q % s.size.toNat
  /-- outside the unread window the ring is zero -/
  clean : ∀ c < s.size.toNat,
    (∀ q, endPos V B s.received ≤ q → q < endPos V B s.posted → q % s.size.toNat ≠ c) →
      s.conn.receiveBuf c = 0
  indices : ∀ a i, Admitted s a → Index s a i → i < 2 * s.size.toNat

/-! ## Reads of the remote position -/

/-- Waiting for a completion only takes completions from the queue. -/
theorem waitForCompletion_entries {cq : CompletionQueue} {pc : WaitPc}
    {r : Option WaitPc × CompletionQueue} (h : waitForCompletion cq pc = some r) :
    r.2.entries <:+ cq.entries := by
  rcases waitForCompletion_polls h with he | ⟨i, he⟩
  · exact he ▸ List.suffix_rfl
  · rw [he]; exact List.suffix_cons i _

/-- The reads that are posted and not polled yet. -/
def outstandingReads (conn : Conn) : ℕ :=
  (conn.cq.entries ++ conn.sq.filterMap Request.signal).count 42

/-- A read is outstanding only while the sender polls for it. -/
structure ReadsOk (s : State) : Prop where
  ids : ∀ id, Request.read id ∈ s.conn.sq → id = 42
  count : outstandingReads s.conn =
    match s.sendPc with
    | .pollRead _ => 1
    | _ => 0

section
variable {s s' : State}

theorem ReadsOk.notMem (h : ReadsOk s) (hpc : ∀ sizeToWrite, s.sendPc ≠ .pollRead sizeToWrite)
    (id : UInt64) : Request.read id ∉ s.conn.sq := by
  intro hid
  have h42 : (42 : UInt64) ∈ s.conn.cq.entries ++ s.conn.sq.filterMap Request.signal := by
    refine List.mem_append_right _ (List.mem_filterMap.2 ⟨_, hid, ?_⟩)
    rw [h.ids id hid]; rfl
  have hpos := List.count_pos_iff.2 h42
  have hcount := h.count
  cases hp : s.sendPc with
  | pollRead sizeToWrite => exact hpc sizeToWrite hp
  | idle | waitUntilSendFree | post | waitForCompletion | advance =>
    rw [hp] at hcount
    exact absurd hcount hpos.ne'

/-- The sender neither posts a read nor polls. -/
theorem ReadsOk.keep (h : ReadsOk s) (hreads : ∀ id, .read id ∈ s'.conn.sq → .read id ∈ s.conn.sq)
    (hcount : outstandingReads s'.conn ≤ outstandingReads s.conn)
    (hpc : ∀ sizeToWrite, s.sendPc ≠ .pollRead sizeToWrite)
    (hpc' : ∀ sizeToWrite, s'.sendPc ≠ .pollRead sizeToWrite) : ReadsOk s' := by
  refine ⟨fun id hid => h.ids id (hreads id hid), ?_⟩
  have hc := h.count
  have h0 : outstandingReads s.conn = 0 := by
    cases hp : s.sendPc with
    | pollRead sizeToWrite => exact absurd hp (hpc sizeToWrite)
    | idle | waitUntilSendFree | post | waitForCompletion | advance => rw [hp] at hc; exact hc
  cases hp : s'.sendPc with
  | pollRead sizeToWrite => exact absurd hp (hpc' sizeToWrite)
  | idle | waitUntilSendFree | post | waitForCompletion | advance =>
    exact Nat.le_zero.1 (h0 ▸ hcount)

/-- A message is not taken for a read. -/
theorem count_writeRequest (s : State) (sizeToWrite : UInt64) :
    ([Request.write (writeRequest s sizeToWrite)].filterMap Request.signal).count 42 = 0 := by
  by_cases hsig : (writeRequest s sizeToWrite).signaled = true
  · have hr : (Request.write (writeRequest s sizeToWrite)).signal = some 0 := if_pos hsig
    rw [List.filterMap_cons_some hr]; rfl
  · have hr : (Request.write (writeRequest s sizeToWrite)).signal = none := if_neg hsig
    rw [List.filterMap_cons_none hr]; rfl

/-- The sender polls the read's completion. -/
theorem outstandingReads_polled (conn : Conn) :
    outstandingReads { conn with cq := (pollSendCompletionQueue conn.cq).2 } +
      (if (pollSendCompletionQueue conn.cq).1 = 42 then 1 else 0) = outstandingReads conn := by
  cases he : conn.cq.entries with
  | nil => simp [pollSendCompletionQueue, CompletionQueue.poll, he, outstandingReads]
  | cons i ids =>
    simp only [pollSendCompletionQueue, CompletionQueue.poll, he, outstandingReads,
      List.cons_append]
    by_cases hi : i = 42
    · rw [hi, List.count_cons_self, if_pos rfl]
    · rw [List.count_cons_of_ne hi, if_neg hi, Nat.add_zero]

theorem sendStep_readsOk (h : ReadsOk s) (hs : sendStep s = some s') : ReadsOk s' := by
  have hc := h.count
  cases sendStep_cases hs with
  | full hpc =>
    rw [hpc] at hc
    constructor
    · intro id hid
      rcases List.mem_append.1 hid with hid | hid
      · exact h.ids id hid
      · rw [List.mem_singleton] at hid; cases hid; rfl
    · simp only [outstandingReads, List.filterMap_append, ← List.append_assoc,
        List.count_append] at hc ⊢
      rw [hc]; rfl
  | room hpc => exact h.keep (fun _ => id) le_rfl (by simp [hpc]) (by simp)
  | polled hpc hid =>
    rw [hpc] at hc
    have hp := outstandingReads_polled s.conn
    rw [if_pos hid, hc] at hp
    exact ⟨h.ids, Nat.succ_injective hp⟩
  | polling hpc hid =>
    rw [hpc] at hc
    have hp := outstandingReads_polled s.conn
    rw [if_neg hid, hc] at hp
    exact ⟨h.ids, hp⟩
  | signaled hpc | unsignaled hpc =>
    refine h.keep ?_ ?_ (by simp [hpc]) (by simp)
    · intro id hid
      rcases List.mem_append.1 hid with hid | hid
      · exact hid
      · simp at hid
    · simp only [outstandingReads, List.filterMap_append, ← List.append_assoc,
        List.count_append, count_writeRequest]
      exact le_rfl
  | waiting hpc hw | waited hpc hw =>
    refine h.keep (fun _ => id) ?_ (by simp [hpc]) (by simp)
    have hcq := waitForCompletion_entries hw
    simp only [outstandingReads, List.count_append]
    exact Nat.add_le_add_right (hcq.sublist.count_le 42) _
  | advance hpc => exact h.keep (fun _ => id) le_rfl (by simp [hpc]) (by simp)

/-- The other steps leave the outstanding reads as they are. -/
theorem ReadsOk.frame (h : ReadsOk s) (hreads : ∀ id, .read id ∈ s'.conn.sq → .read id ∈ s.conn.sq)
    (hcount : outstandingReads s'.conn = outstandingReads s.conn)
    (hpc : s'.sendPc = s.sendPc) : ReadsOk s' := by
  refine ⟨fun id hid => h.ids id (hreads id hid), ?_⟩
  rw [hcount, hpc]; exact h.count

theorem outstandingReads_congr {conn conn' : Conn}
    (hsq : conn'.sq.map Request.signal = conn.sq.map Request.signal) (hcq : conn'.cq = conn.cq) :
    outstandingReads conn' = outstandingReads conn := by
  have hids := congrArg (List.filterMap id) hsq
  rw [List.filterMap_map, List.filterMap_map] at hids
  rw [outstandingReads, outstandingReads, hcq]
  exact congrArg (fun ids => (conn.cq.entries ++ ids).count 42) hids

theorem step_readsOk {a : Act} (h : ReadsOk s) (hs : step s a = some s') : ReadsOk s' := by
  cases a with
  | send data =>
    simp only [step] at hs
    split at hs
    next hpc =>
      cases hs
      unfold send
      dsimp only
      split_ifs
      · exact h.frame (fun _ => id) rfl rfl
      · exact h.keep (fun _ => id) le_rfl (by simp [hpc]) (by simp)
    next => cases hs
  | sender => exact sendStep_readsOk h hs
  | receive | load | receiver | land =>
    have hf := step_senderFrame hs (by simp) (by simp) (by simp)
    exact h.frame hf.reads (outstandingReads_congr hf.signals hf.cq) hf.sendPc
  | complete =>
    simp only [step, Option.map_eq_some_iff] at hs
    obtain ⟨conn, hcomp, rfl⟩ := hs
    refine h.frame (fun id => Conn.complete_sq hcomp) ?_ rfl
    exact congrArg (List.count 42) (Conn.complete_outstanding hcomp)

theorem ReadsOk.carry (h : ReadsOk s) : ReadsOk s.carry := by
  refine h.frame (fun id => read_mem_carry.1) ?_ rfl
  exact congrArg (List.count 42) (Conn.outstanding_carry s.phys s.conn)

end

/-! ## The invariant -/

/-- While `send` waits for a completion, the cached position is still the one with which it
    has found room. -/
def Sending (B : ℕ) (s : State) : Prop :=
  match s.sendPc with
  | .waitForCompletion _ _ | .advance _ =>
    s.sendPos = UInt64.ofNat (endPos V B s.sent.dropLast) ∧
      ∃ C, s.conn.remoteReadPos = UInt64.ofNat C ∧ C ≤ endPos V B s.sent.dropLast ∧
        endPos V B s.sent ≤ C + s.size.toNat
  | _ => True

structure Flow (B : ℕ) (s : State) : Prop where
  clean : InvClean B s
  carried : ∀ r ∈ s.conn.sq, r.cells s.phys = []
  reads : ReadsOk s
  sending : Sending B s

section
variable {B : ℕ} {F : List (List UInt8)} {Z A C : ℕ} {s s' : State}

theorem InvAt.posted_eq (h : InvAt B F Z A C s) : s.posted = F := by
  have hs := h.send
  unfold State.posted
  cases hpc : s.sendPc with
  | idle | waitForCompletion | advance => rw [hpc] at hs; exact hs.1
  | waitUntilSendFree | pollRead =>
    rw [hpc] at hs
    obtain ⟨p, hp⟩ := hs
    simp only [hp.sent, List.dropLast_concat]
  | post =>
    rw [hpc] at hs
    obtain ⟨p, hp, -⟩ := hs
    simp only [hp.sent, List.dropLast_concat]

theorem Sending.frame (h : Sending B s) (hsize : s'.size = s.size) (hpc : s'.sendPc = s.sendPc)
    (hpos : s'.sendPos = s.sendPos) (hsent : s'.sent = s.sent)
    (hread : s'.conn.remoteReadPos = s.conn.remoteReadPos) : Sending B s' := by
  unfold Sending
  rw [hsize, hpc, hpos, hsent, hread]; exact h

theorem sendStep_sending (h : InvAt B F Z A C s) (hsending : Sending B s)
    (hs : sendStep s = some s') : Sending B s' := by
  have hsend := h.send
  unfold Sending at hsending
  cases sendStep_cases hs with
  | full | room | polled | polling | advance => trivial
  | signaled hpc | unsignaled hpc =>
    rw [hpc] at hsend
    obtain ⟨p, hp, hroom⟩ := hsend
    have hC : C ≤ endPos V B F :=
      h.chan.cached.trans (h.chan.cleared.trans (h.chan.arrived.trans h.chan.arrived_le))
    have hlast : s.sent.dropLast = F := by rw [hp.sent, List.dropLast_concat]
    have hfinal : s.sendPos = UInt64.ofNat (endPos V B s.sent.dropLast) ∧
        ∃ C, s.conn.remoteReadPos = UInt64.ofNat C ∧ C ≤ endPos V B s.sent.dropLast ∧
          endPos V B s.sent ≤ C + s.size.toNat := by
      rw [hlast]
      exact ⟨hp.pos, C, h.chan.remoteReadPos, hC, hp.sent ▸ hroom⟩
    exact hfinal
  | waiting hpc | waited hpc =>
    rw [hpc] at hsending
    exact hsending

theorem step_sending {a : Act} (h : InvAt B F Z A C s) (hreads : ReadsOk s)
    (hsending : Sending B s) (hs : step s a = some s') : Sending B s' := by
  cases a with
  | send data =>
    simp only [step] at hs
    split at hs
    next hpc =>
      cases hs
      unfold send
      dsimp only
      split_ifs
      · exact hsending.frame rfl rfl rfl rfl rfl
      · trivial
    next => cases hs
  | sender => exact sendStep_sending h hsending hs
  | receive | load | receiver | land =>
    have hf := step_senderFrame hs (by simp) (by simp) (by simp)
    exact hsending.frame hf.size hf.sendPc hf.sendPos hf.sent hf.remoteReadPos
  | complete =>
    simp only [step, Option.map_eq_some_iff] at hs
    obtain ⟨conn, hcomp, rfl⟩ := hs
    obtain ⟨w, sq, -, -, rfl⟩ | ⟨id, sq, hsq, rfl⟩ := Conn.complete_cases hcomp
    · exact hsending.frame rfl rfl rfl rfl rfl
    · -- a read completes, so that the sender is polling for it
      by_cases hpc : ∃ sizeToWrite, s.sendPc = .pollRead sizeToWrite
      · obtain ⟨sizeToWrite, hpc⟩ := hpc
        unfold Sending
        dsimp only
        rw [hpc]; trivial
      · rw [not_exists] at hpc
        exact absurd (by rw [hsq]; exact List.mem_cons_self) (hreads.notMem hpc id)

theorem InvAt.carry (h : InvAt B F Z A C s) : InvAt B F Z A C s.carry where
  pow := h.pow
  chan := { h.chan with feed := h.chan.feed.carry }
  recv := h.recv
  send := h.send

theorem flow_start {size : UInt64} (h : powerOfTwo size = true) (pos : UInt64) :
    Flow pos.toNat (start size pos) where
  clean := invClean_start h pos
  carried := by simp [start]
  reads := ⟨by simp [start], rfl⟩
  sending := trivial

theorem stepCarrying_flow {a : Act} (h : Flow B s) (hadm : Admitted s a) (hpat : PatternFree a)
    (hs : stepCarrying s a = some s') : Flow B s' := by
  simp only [stepCarrying, Option.map_eq_some_iff] at hs
  obtain ⟨s₁, hs, rfl⟩ := hs
  have hfill : FillSafe s a := by
    cases a with
    | send data =>
      intro r hr c hc
      rw [h.carried r hr] at hc; cases hc
    | sender | receive | load | receiver | land | complete => trivial
  obtain ⟨⟨F', Z', A', C', hinv⟩, hclean⟩ := step_invClean h.clean hadm hpat hfill hs
  obtain ⟨F, Z, A, C, hi⟩ := h.clean.1
  refine ⟨⟨⟨F', Z', A', C', hinv.carry⟩, hclean⟩, ?_, (step_readsOk h.reads hs).carry,
    (step_sending hi h.reads h.sending hs).frame rfl rfl rfl rfl rfl⟩
  intro r hr
  obtain ⟨r', -, rfl⟩ := List.mem_map.1 hr
  exact Request.cells_carry _ _ r'

/-! ## What the invariant says -/

/-- The cached position is determined by its 64 bits. -/
theorem cached_unique {n E C C' : ℕ} (hn : n < 2 ^ 64) (h : UInt64.ofNat C = UInt64.ofNat C')
    (hC : C ≤ E) (hC' : C' ≤ E) (hE : E ≤ C + n) (hE' : E ≤ C' + n) : C = C' := by
  have hmod := congrArg UInt64.toNat h
  rw [Pos.ofNat_toNat, Pos.ofNat_toNat] at hmod
  omega

/-- `sendPos` stands between the cached position and the end of the posted frames. -/
theorem InvAt.sendPos_counted (h : InvAt B F Z A C s) (hsending : Sending B s) :
    s.sendPos = UInt64.ofNat (endPos V B s.counted) ∧ C ≤ endPos V B s.counted ∧
      endPos V B s.counted ≤ endPos V B F := by
  have hs := h.send
  have hC : C ≤ endPos V B F :=
    h.chan.cached.trans (h.chan.cleared.trans (h.chan.arrived.trans h.chan.arrived_le))
  have hwait : s.sent = F → s.sendPos = UInt64.ofNat (endPos V B s.sent.dropLast) ∧
      (∃ C, s.conn.remoteReadPos = UInt64.ofNat C ∧ C ≤ endPos V B s.sent.dropLast ∧
        endPos V B s.sent ≤ C + s.size.toNat) →
      s.sendPos = UInt64.ofNat (endPos V B s.sent.dropLast) ∧ C ≤ endPos V B s.sent.dropLast ∧
        endPos V B s.sent.dropLast ≤ endPos V B F := by
    rintro rfl ⟨hpos, C', hread, hC', hroom⟩
    have hlast : endPos V B s.sent.dropLast ≤ endPos V B s.sent :=
      endPos_mono V (List.dropLast_prefix _) B
    have hCC := cached_unique s.size.toNat_lt (h.chan.remoteReadPos.symm.trans hread) hC
      (hC'.trans hlast) h.chan.room hroom
    exact ⟨hpos, hCC ▸ hC', hlast⟩
  unfold Sending at hsending
  unfold State.counted
  cases hpc : s.sendPc with
  | idle =>
    rw [hpc] at hs
    rw [hs.1]; exact ⟨hs.2, hC, le_rfl⟩
  | waitUntilSendFree | pollRead =>
    rw [hpc] at hs
    obtain ⟨p, hp⟩ := hs
    simp only [hp.sent, List.dropLast_concat]
    exact ⟨hp.pos, hC, le_rfl⟩
  | post =>
    rw [hpc] at hs
    obtain ⟨p, hp, -⟩ := hs
    simp only [hp.sent, List.dropLast_concat]
    exact ⟨hp.pos, hC, le_rfl⟩
  | waitForCompletion | advance =>
    rw [hpc] at hs hsending
    exact hwait hs.1 hsending

/-- The length that the polling loop goes by never leads out of the doubly mapped ring. -/
theorem InvAt.receiveSize_le (h : InvAt B F Z A C s) (h16 : 16 ≤ s.size.toNat)
    {limit : Option UInt64} {receiveSize : UInt64} {got : Load}
    (hpc : s.recvPc = .check limit receiveSize got) : receiveSize.toNat + 16 ≤ s.size.toNat := by
  have hrecv := h.recv
  rw [hpc] at hrecv
  obtain ⟨-, ⟨bs, hl, rfl, hbs⟩, -⟩ := hrecv
  rw [ofLE_toNat hl]
  rcases Nat.lt_or_ge (endPos V B s.received) A with hlt | hge
  · obtain ⟨p, T, rfl⟩ := exists_next h.chan.prefix_ h.chan.arrived_le hlt
    have hle := (masked_of_seen hl hbs).ofLE_le
    have hfits := h.chan.fits p (by simp)
    omega
  · -- nothing has arrived
    have hzero : ∀ b ∈ bs, b = 0 := by
      intro b hb
      obtain ⟨i, hi⟩ := List.mem_iff_getElem?.1 hb
      rcases hbs i b hi with h0 | ⟨hlt, -⟩
      · exact h0
      · exact absurd ((Nat.le_add_right _ i).trans_lt hlt) (Nat.not_lt.2 hge)
    rw [Bytes.ofLE_eq_zero hzero]; omega

/-- A frame that has been found fits the ring. -/
theorem InvAt.found_le (h : InvAt B F Z A C s) {p : List UInt8}
    (hp : Found validity B F s.received A p) :
    8 + (UInt64.ofNat p.length).toNat + 8 ≤ s.size.toNat := by
  have hfits := h.chan.fits p (hp.1.subset (by simp))
  rw [toNat_length hfits]; omega

theorem InvAt.index_lt (h : InvAt B F Z A C s) (h16 : 16 ≤ s.size.toNat) {a : Act} {i : ℕ}
    (hadm : Admitted s a) (hi : Index s a i) : i < 2 * s.size.toNat := by
  have hn := Pos.powerOfTwo_pos h.pow
  have hread : s.startOfRead < s.size.toNat := h.startOfRead ▸ Nat.mod_lt _ hn
  have hwrite : s.startOfWrite < s.size.toNat := by
    have hpos : s.sendPos = UInt64.ofNat s.sendPos.toNat := UInt64.ofNat_toNat.symm
    rw [h.startOfWrite hpos]; exact Nat.mod_lt _ hn
  have hrecv := h.recv
  have hsend := h.send
  cases a with
  | send data =>
    have hd : data.length + 16 ≤ s.size.toNat := hadm
    have := hi.2
    omega
  | sender =>
    unfold Index at hi
    cases hpc : s.sendPc with
    | post sizeToWrite =>
      rw [hpc] at hi hsend
      obtain ⟨p, hp, -⟩ := hsend
      have hlen : sizeToWrite.toNat = p.length + 16 := by rw [hp.size, toNat_frameSize hp.fits]
      have hfits := hp.fits
      simp only [writeRequest, hlen] at hi
      omega
    | idle | waitUntilSendFree | pollRead | waitForCompletion | advance => rw [hpc] at hi; cases hi
  | load is =>
    unfold Index at hi
    cases hpc : s.recvPc with
    | size => rw [hpc] at hi; have := hi.2; omega
    | check limit receiveSize got =>
      have hle := h.receiveSize_le h16 hpc
      rw [hpc] at hi
      have := hi.2
      omega
    | idle | found | clear | publish => rw [hpc] at hi; cases hi
  | receiver =>
    unfold Index at hi
    cases hpc : s.recvPc with
    | found limit receiveSize =>
      rw [hpc] at hi hrecv
      obtain ⟨-, p, hp, rfl⟩ := hrecv
      have hle := h.found_le hp
      have := hi.2
      omega
    | clear bytes receiveSize =>
      rw [hpc] at hi hrecv
      obtain ⟨-, hp, rfl⟩ := hrecv
      have hle := h.found_le hp
      have := hi.2
      omega
    | idle | size | check | publish => rw [hpc] at hi; cases hi
  | receive | land | complete => cases hi

/-- Every cell is that of a position of the window. -/
theorem exists_mod_eq {n c : ℕ} (hc : c < n) (R : ℕ) : ∃ q, R ≤ q ∧ q < R + n ∧ q % n = c := by
  have hR := Nat.mod_lt R (Nat.zero_lt_of_lt hc)
  have hdiv := Nat.div_add_mod R n
  rcases Nat.lt_or_ge c (R % n) with hlt | hge
  · refine ⟨n * (R / n) + (n + c), by omega, by omega, ?_⟩
    rw [Nat.mul_add_mod, Nat.add_mod_left, Nat.mod_eq_of_lt hc]
  · refine ⟨n * (R / n) + c, by omega, by omega, ?_⟩
    rw [Nat.mul_add_mod, Nat.mod_eq_of_lt hc]

theorem Flow.flowControl (h : Flow B s) (h16 : 16 ≤ s.size.toNat) : FlowControl B s := by
  obtain ⟨⟨⟨F, Z, A, C, hi⟩, -⟩, -, -, hsending⟩ := h
  obtain ⟨hpos, hCS, hSP⟩ := hi.sendPos_counted hsending
  have hn := s.size.toNat_lt
  have hcached : C ≤ endPos V B s.received := hi.chan.cached
  have hcleared : endPos V B s.received ≤ Z := hi.chan.cleared
  have harrived := hi.chan.arrived
  have hend : A ≤ endPos V B F := hi.chan.arrived_le
  have hroom : endPos V B F ≤ C + s.size.toNat := hi.chan.room
  have hF := hi.posted_eq
  have hS : endPos V B s.counted ≤ C + s.size.toNat := hSP.trans hroom
  refine ⟨hi.chan.readPos, hpos, ⟨C, hi.chan.remoteReadPos, hcached, hCS, hS⟩, ?_, ?_, ?_, ?_,
    fun a i hadm hidx => hi.index_lt h16 hadm hidx⟩
  · rw [hpos, hi.chan.remoteReadPos, UInt64.le_iff_toNat_le,
      Pos.ofNat_sub_toNat hCS (by omega)]
    omega
  · rw [hF]; exact hroom.trans (Nat.add_le_add_right hcached _)
  · intro l w r hsq i hiw q hq hqP heq
    have hfeed := hi.chan.feed
    rw [hsq] at hfeed
    obtain ⟨Q, -, hmap, hQ⟩ := hfeed.split
    rw [hF] at hqP
    rw [hmap i hiw] at heq
    have := Pos.eq_of_mod_eq heq.symm (by omega) (by omega)
    omega
  · intro c hc hout
    obtain ⟨q, hq, hq', rfl⟩ := exists_mod_eq hc (endPos V B s.received)
    have hqP : endPos V B s.posted ≤ q := by
      by_contra hlt
      exact hout q hq (Nat.not_le.1 hlt) rfl
    rw [hF] at hqP
    rw [hi.chan.window q (by omega) (by omega), if_neg (by omega)]

end

/-- What holds in the states of the invariant holds in every state of a run. -/
theorem allStates_of_flow {size : UInt64} (h : powerOfTwo size = true) (pos : UInt64)
    {P : State → Prop} (hP : ∀ s, Flow pos.toNat s → s.size = size → P s) {acts : List Act}
    (hacts : ∀ data, Act.send data ∈ acts → data.length + 16 ≤ size.toNat ∧ ¬ V <:+: data) :
    AllStates stepCarrying P (start size pos) acts := by
  refine allStates_of_along (I := fun s => Flow pos.toNat s ∧ s.size = size)
    (C := fun _ a => ∀ data, a = .send data → data.length + 16 ≤ size.toNat ∧ ¬ V <:+: data)
    (fun s h => hP s h.1 h.2) ?_ ⟨flow_start h pos, rfl⟩
    (along_of_forall fun a ha _ data hd => hacts data (hd ▸ ha))
  rintro s a s' ⟨hflow, rfl⟩ ha hs
  have hadm : Admitted s a := by
    cases a with
    | send data => exact (ha data rfl).1
    | sender | receive | load | receiver | land | complete => trivial
  have hpat : PatternFree a := by
    cases a with
    | send data => exact (ha data rfl).2
    | sender | receive | load | receiver | land | complete => trivial
  refine ⟨stepCarrying_flow hflow hadm hpat hs, ?_⟩
  simp only [stepCarrying, Option.map_eq_some_iff] at hs
  obtain ⟨s₁, hs, rfl⟩ := hs
  exact (step_frame hs).1

/-- **Flow control** with messages of every size and payloads without the validity pattern. -/
theorem flowControl_carrying {size : UInt64} (h : powerOfTwo size = true) (h16 : 16 ≤ size.toNat)
    (pos : UInt64) {acts : List Act}
    (hacts : ∀ data, Act.send data ∈ acts → data.length + 16 ≤ size.toNat ∧ ¬ V <:+: data) :
    AllStates stepCarrying (FlowControl pos.toNat) (start size pos) acts :=
  allStates_of_flow h pos (fun _ hflow hsize => hflow.flowControl (hsize ▸ h16)) hacts

/-- A message arrives while its length is being loaded, and all counters wrap around. -/
theorem flowControl_tornReceive :
    (run stepCarrying (start 4096 0xFFFFFFFFFFFFFFF0) tornReceive).isSome = true ∧
      AllStates stepCarrying (FlowControl (0xFFFFFFFFFFFFFFF0 : UInt64).toNat)
        (start 4096 0xFFFFFFFFFFFFFFF0) tornReceive := by
  refine ⟨by decide +kernel, flowControl_carrying (by decide) (by decide) _ ?_⟩
  intro data hd
  have : data = [1, 2] := by simpa [tornReceive, receiveWhole] using hd
  subst this
  exact ⟨by decide, by decide⟩

end VirtualRDMARingBuffer

end L5RDMA
