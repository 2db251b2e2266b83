/-
  Selective signaling of the RDMA ring.

  Every 4096th message is signaled, and `send` waits for a completion event
  after it.  The events are not those of the requests waited for: the read of
  `waitUntilSendFree` is polled, so that its event, or that of a write polled
  with it, stays behind and ends a later wait at once.  The queue still cannot
  fall behind by more than two rounds.

  `Tracked` is the ring with the log of the requests posted and not yet
  retired.  `signaling_ok`: in every run the log stays below
  `maxOutstandingSendWrs`, the completion queue below `CQ_SIZE`, and a wait has
  an event or will get one.
-/
import L5RDMA.Lib.Card
import L5RDMA.Proof.VirtualRDMARingBuffer

namespace L5RDMA

namespace VirtualRDMARingBuffer

open Run Verbs Channel

/-- The ring and, as ghost state, its requests posted and not retired, oldest first. -/
structure Tracked where
  ring : State
  unretired : List (Option UInt64)

/-- The log after a step of the sender that leads to `ring`: it appends what it posts, and
    each completion it polls retires a request and all before it. -/
def Tracked.log (t : Tracked) (ring : State) : List (Option UInt64) :=
  let posted := (ring.conn.sq.drop t.ring.conn.sq.length).map Request.signal
  let polled := t.ring.conn.cq.entries.length - ring.conn.cq.entries.length
  retire^[polled] (t.unretired ++ posted)

def Tracked.step (t : Tracked) (a : Act) : Option Tracked :=
  (VirtualRDMARingBuffer.step t.ring a).map fun ring =>
    { ring := ring
      unretired :=
        match a with
        | .sender => t.log ring
        | _ => t.unretired }

/-- A connection before its first request. -/
def Tracked.start (size pos : UInt64) : Tracked := ⟨VirtualRDMARingBuffer.start size pos, []⟩

/-- The queues hold what is posted, and `waitForCompletion` does not wait in vain. -/
structure SignalingOk (t : Tracked) : Prop where
  outstanding : t.unretired.length ≤ maxOutstandingSendWrs
  entries : t.ring.conn.cq.entries.length ≤ cqSize
  wakeup : ∀ sizeToWrite, t.ring.sendPc = .waitForCompletion .getEvent sizeToWrite →
    0 < t.ring.conn.cq.events ∨
      t.ring.conn.cq.armed = true ∧ ∃ r ∈ t.ring.conn.sq, (r.signal).isSome = true

/-! ## Steps of the receiver, and arrivals -/

/-- Nothing changes for the sender. -/
structure SenderFrame (s s' : State) : Prop where
  size : s'.size = s.size
  messageCounter : s'.messageCounter = s.messageCounter
  sendPos : s'.sendPos = s.sendPos
  sendPc : s'.sendPc = s.sendPc
  sent : s'.sent = s.sent
  remoteReadPos : s'.conn.remoteReadPos = s.conn.remoteReadPos
  cq : s'.conn.cq = s.conn.cq
  signals : s'.conn.sq.map Request.signal = s.conn.sq.map Request.signal
  reads : ∀ id, .read id ∈ s'.conn.sq → .read id ∈ s.conn.sq

theorem step_senderFrame {s s' : State} {a : Act} (hs : step s a = some s')
    (hsend : ∀ data, a ≠ .send data) (hsender : a ≠ .sender) (hcomplete : a ≠ .complete) :
    SenderFrame s s' := by
  cases a with
  | send data => exact absurd rfl (hsend data)
  | sender => exact absurd rfl hsender
  | complete => exact absurd rfl hcomplete
  | receive maxSize =>
    simp only [step] at hs
    split at hs
    next =>
      cases hs
      unfold receive
      split
      · split_ifs
        · exact ⟨rfl, rfl, rfl, rfl, rfl, rfl, rfl, rfl, fun _ => id⟩
        · exact ⟨rfl, rfl, rfl, rfl, rfl, rfl, rfl, rfl, fun _ => id⟩
      · exact ⟨rfl, rfl, rfl, rfl, rfl, rfl, rfl, rfl, fun _ => id⟩
    next => cases hs
  | load is =>
    simp only [step, Option.map_eq_some_iff] at hs
    obtain ⟨_, -, rfl⟩ := hs
    exact ⟨rfl, rfl, rfl, rfl, rfl, rfl, rfl, rfl, fun _ => id⟩
  | receiver =>
    simp only [step, recvStep] at hs
    split at hs
    next =>
      split_ifs at hs <;>
        (cases hs; exact ⟨rfl, rfl, rfl, rfl, rfl, rfl, rfl, rfl, fun _ => id⟩)
    next => cases hs; exact ⟨rfl, rfl, rfl, rfl, rfl, rfl, rfl, rfl, fun _ => id⟩
    next => cases hs; exact ⟨rfl, rfl, rfl, rfl, rfl, rfl, rfl, rfl, fun _ => id⟩
    next => cases hs
  | land k =>
    simp only [step, Option.map_eq_some_iff] at hs
    obtain ⟨conn, hland, rfl⟩ := hs
    obtain ⟨w, sq, hsq, -, rfl⟩ := Conn.land_cases hland
    refine ⟨rfl, rfl, rfl, rfl, rfl, rfl, rfl, by rw [hsq]; rfl, ?_⟩
    intro id hid
    rw [hsq]
    simpa using hid

/-! ## The invariant -/

/-- The messages since the last signaled one, before message number `messageCounter`. -/
def since (messageCounter : UInt64) : ℕ := (messageCounter - 1).toNat % 4096

/-- The requests posted and not retired, at each position of the sender. -/
def LagOk (messageCounter : UInt64) (unretired : List (Option UInt64)) : SendPc → Prop
  | .idle | .waitUntilSendFree _ | .post _ => Lag 4096 (since messageCounter) 0 unretired
  | .pollRead _ =>
    ∃ l, Lag 4096 (since messageCounter) 0 l ∧ unretired = l ++ [some 42]
  | .waitForCompletion pc _ => since (messageCounter + 1) = 0 ∧
    ((∃ l, Lag 4096 4095 0 l ∧ unretired = l ++ [some 0]) ∨ pc = .poll ∧ unretired = [])
  | .advance _ => Lag 4096 (since (messageCounter + 1)) 0 unretired

/-- Events and arming, with `incomplete` signaled requests in the send queue. -/
def EventsOk (cq : CompletionQueue) (incomplete : ℕ) : SendPc → Prop
  | .idle | .waitUntilSendFree _ | .post _ | .advance _ | .waitForCompletion .poll _ =>
    Notified 0 0 cq incomplete
  | .pollRead _ => Notified 0 1 cq incomplete
  | .waitForCompletion .getEvent _ => Notified 1 1 cq incomplete
  | .waitForCompletion .requestNotify _ =>
    cq.armed = false ∧ cq.events = 0 ∧ incomplete ≤ 1

structure Tracked.Inv (t : Tracked) : Prop where
  /-- the complete requests come first, those that are signaled can be polled -/
  log : ∃ done, t.unretired = done ++ t.ring.conn.sq.map Request.signal ∧
    done.filterMap id = t.ring.conn.cq.entries
  lag : LagOk t.ring.messageCounter t.unretired t.ring.sendPc
  events : EventsOk t.ring.conn.cq (t.ring.conn.sq.filterMap Request.signal).length t.ring.sendPc

theorem Tracked.inv_start (size pos : UInt64) : (Tracked.start size pos).Inv where
  log := ⟨[], rfl, rfl⟩
  lag := Or.inl ⟨0, Nat.zero_le _, rfl⟩
  events := Or.inl ⟨rfl, rfl, le_rfl, Nat.zero_le _⟩

section
variable {t t' : Tracked}

/-- The signaled requests not retired are complete, or still in the send queue. -/
theorem Tracked.Inv.ids (h : t.Inv) : t.unretired.filterMap id =
    t.ring.conn.cq.entries ++ t.ring.conn.sq.filterMap Request.signal :=
  Conn.Log.ids h.log

/-- A sender that waits has two signaled requests unretired at most, otherwise one, or one
    and a read. -/
theorem LagOk.ids_le {messageCounter : UInt64} {unretired : List (Option UInt64)} {pc : SendPc}
    (h : LagOk messageCounter unretired pc) : (unretired.filterMap id).length ≤ 2 := by
  have hlag : ∀ {d l}, Lag 4096 d 0 l → (l.filterMap id).length ≤ 1 := by
    intro d l hl
    rcases hl.ids with hl | hl <;> rw [hl]
    · exact Nat.zero_le _
    · exact le_rfl
  cases pc with
  | idle | waitUntilSendFree | post | advance => exact (hlag h).trans (by omega)
  | pollRead =>
    obtain ⟨l, hl, rfl⟩ := h
    have := hlag hl
    rw [List.filterMap_append, List.length_append]
    exact Nat.add_le_add this le_rfl
  | waitForCompletion =>
    obtain ⟨-, ⟨l, hl, rfl⟩ | ⟨-, rfl⟩⟩ := h
    · have := hlag hl
      rw [List.filterMap_append, List.length_append]
      exact Nat.add_le_add this le_rfl
    · exact Nat.zero_le _

theorem LagOk.length_le {messageCounter : UInt64} {unretired : List (Option UInt64)} {pc : SendPc}
    (h : LagOk messageCounter unretired pc) : unretired.length ≤ 2 * 4096 := by
  have hsince : ∀ c, since c < 4096 := fun c => Nat.mod_lt _ (by omega)
  cases pc with
  | idle | waitUntilSendFree | post =>
    have := (show Lag _ _ _ _ from h).length_le
    have := hsince messageCounter
    omega
  | advance =>
    have := (show Lag _ _ _ _ from h).length_le
    have := hsince (messageCounter + 1)
    omega
  | pollRead =>
    obtain ⟨l, hl, rfl⟩ := h
    have := hl.length_le
    have := hsince messageCounter
    rw [List.length_append, List.length_singleton]; omega
  | waitForCompletion =>
    obtain ⟨-, ⟨l, hl, rfl⟩ | ⟨-, rfl⟩⟩ := h
    · have := hl.length_le
      rw [List.length_append, List.length_singleton]; omega
    · exact Nat.zero_le _

theorem Tracked.Inv.ok (h : t.Inv) : SignalingOk t where
  outstanding := h.lag.length_le.trans (by decide)
  entries := by
    have hids := h.lag.ids_le
    rw [h.ids, List.length_append] at hids
    exact (Nat.le_add_right _ _).trans (hids.trans (by decide))
  wakeup := by
    intro sizeToWrite hpc
    have he := h.events
    rw [hpc] at he
    rcases Notified.wakeup he with he | ⟨ha, hk⟩
    · left; exact he
    · right
      obtain ⟨i, hi⟩ := List.length_pos_iff_exists_mem.1 hk
      obtain ⟨r, hr, hri⟩ := List.mem_filterMap.1 hi
      exact ⟨ha, r, hr, by rw [hri]; rfl⟩

/-! ## The steps -/

theorem since_eq (c : UInt64) : since c = (c.toNat + 4095) % 4096 := by
  have hc := c.toNat_lt
  have hp : (c - 1).toNat = (2 ^ 64 - 1 + c.toNat) % 2 ^ 64 := UInt64.toNat_sub c 1
  rw [since, hp]; omega

/-- One message later, which is a signaled one, -/
theorem since_signaled {c : UInt64} (h : since (c + 1) = 0) : since c = 4095 := by
  have hc := c.toNat_lt
  have hs : (c + 1).toNat = (c.toNat + 1) % 2 ^ 64 := UInt64.toNat_add c 1
  rw [since_eq, hs] at h
  rw [since_eq]; omega

/-- or not. -/
theorem since_unsignaled {c : UInt64} (h : since (c + 1) ≠ 0) : since (c + 1) = since c + 1 := by
  have hc := c.toNat_lt
  have hs : (c + 1).toNat = (c.toNat + 1) % 2 ^ 64 := UInt64.toNat_add c 1
  rw [since_eq, hs] at h
  rw [since_eq, since_eq, hs]; omega

theorem since_succ_eq_zero (c : UInt64) : since (c + 1) = 0 ↔ c % (4 * 1024) = 0 := by
  have hmod : (c % (4 * 1024)).toNat = c.toNat % 4096 := UInt64.toNat_mod c _
  rw [since, UInt64.add_sub_cancel, UInt64.ext_iff, hmod]; rfl

theorem Tracked.log_keep {ring : State} (hsq : ring.conn.sq = t.ring.conn.sq)
    (hcq : ring.conn.cq.entries = t.ring.conn.cq.entries) : t.log ring = t.unretired := by
  simp [Tracked.log, hsq, hcq]

theorem Tracked.log_post {ring : State} {r : Request} (hsq : ring.conn.sq = t.ring.conn.sq ++ [r])
    (hcq : ring.conn.cq.entries = t.ring.conn.cq.entries) :
    t.log ring = t.unretired ++ [r.signal] := by
  simp [Tracked.log, hsq, hcq]

theorem Tracked.log_poll {ring : State} {i : UInt64} (hsq : ring.conn.sq = t.ring.conn.sq)
    (hcq : t.ring.conn.cq.entries = i :: ring.conn.cq.entries) :
    t.log ring = retire t.unretired := by
  simp [Tracked.log, hsq, hcq]

/-- The sender neither posts nor polls. -/
theorem Tracked.Inv.keep (h : t.Inv) {ring : State} (hsq : ring.conn.sq = t.ring.conn.sq)
    (hcq : ring.conn.cq.entries = t.ring.conn.cq.entries)
    (hlag : LagOk ring.messageCounter t.unretired ring.sendPc)
    (hev : EventsOk ring.conn.cq (t.ring.conn.sq.filterMap Request.signal).length ring.sendPc) :
    Tracked.Inv ⟨ring, t.log ring⟩ := by
  rw [Tracked.log_keep hsq hcq]
  exact ⟨Conn.Log.congr h.log (congrArg _ hsq) hcq, hlag, by rw [hsq]; exact hev⟩

/-- A request is posted. -/
theorem Tracked.Inv.post (h : t.Inv) {ring : State} {r : Request}
    (hsq : ring.conn.sq = t.ring.conn.sq ++ [r])
    (hcq : ring.conn.cq.entries = t.ring.conn.cq.entries)
    (hlag : LagOk ring.messageCounter (t.unretired ++ [r.signal]) ring.sendPc)
    (hev : EventsOk ring.conn.cq
      ((t.ring.conn.sq ++ [r]).filterMap Request.signal).length ring.sendPc) :
    Tracked.Inv ⟨ring, t.log ring⟩ := by
  rw [Tracked.log_post hsq hcq]
  exact ⟨Conn.Log.post h.log hsq hcq, hlag, by rw [hsq]; exact hev⟩

/-- A completion is polled. -/
theorem Tracked.Inv.poll (h : t.Inv) {ring : State} {i : UInt64}
    (hsq : ring.conn.sq = t.ring.conn.sq)
    (hcq : t.ring.conn.cq.entries = i :: ring.conn.cq.entries)
    (hlag : LagOk ring.messageCounter (retire t.unretired) ring.sendPc)
    (hev : EventsOk ring.conn.cq (t.ring.conn.sq.filterMap Request.signal).length ring.sendPc) :
    Tracked.Inv ⟨ring, t.log ring⟩ := by
  rw [Tracked.log_poll hsq hcq]
  exact ⟨Conn.Log.poll h.log hsq hcq, hlag, by rw [hsq]; exact hev⟩

/-- A sender that waits behind `l` for its own completion polls one. -/
theorem Tracked.Inv.polled (h : t.Inv) {d : ℕ} {j i : UInt64} {ids : List UInt64}
    {l : List (Option UInt64)} (hl : Lag 4096 d 0 l) (hu : t.unretired = l ++ [some j])
    (he : t.ring.conn.cq.entries = i :: ids) :
    (i = j ∧ retire t.unretired = [] ∧ t.ring.conn.sq.filterMap Request.signal = []) ∨
      (i = 0 ∧ ∃ l', Lag 4096 d 0 l' ∧ retire t.unretired = l' ++ [some j]) := by
  have hids := h.ids
  rw [he, List.cons_append, hu] at hids
  rw [hu]
  rcases hl.polled j with ⟨hr, hl'⟩ | ⟨l', hl', -, hr, hl''⟩
  · left
    rw [hl'] at hids
    obtain ⟨rfl, hnil⟩ := List.cons.inj hids
    exact ⟨rfl, hr, (List.append_eq_nil_iff.1 hnil.symm).2⟩
  · right
    rw [hl''] at hids
    obtain ⟨rfl, -⟩ := List.cons.inj hids
    exact ⟨rfl, l', hl', hr⟩

/-- Nothing signaled is incomplete when everything is retired. -/
theorem notified_retired {cq : CompletionQueue} {lo hi k : ℕ} (h : Notified lo hi cq k) :
    Notified 0 0 cq 0 := by
  rcases h with ⟨ha, he, -, -⟩ | ⟨ha, he, -⟩
  · left; exact ⟨ha, he, le_rfl, Nat.zero_le _⟩
  · right; exact ⟨ha, he, le_rfl⟩

theorem Tracked.pollRead_inv (h : t.Inv) {sizeToWrite : UInt64} {ring : State}
    (hpc : t.ring.sendPc = .pollRead sizeToWrite) (hs : sendStep t.ring = some ring) :
    Tracked.Inv ⟨ring, t.log ring⟩ := by
  have hlag := h.lag
  have hev := h.events
  simp only [sendStep, hpc] at hs
  rw [hpc] at hlag hev
  cases hs
  obtain ⟨l, hl, hu⟩ := hlag
  cases he : t.ring.conn.cq.entries with
  | nil =>
    have hp : pollSendCompletionQueue t.ring.conn.cq = (0xFFFFFFFFFFFFFFFF, t.ring.conn.cq) := by
      rw [pollSendCompletionQueue, CompletionQueue.poll, he]
    rw [hp]
    exact h.keep rfl rfl ⟨l, hl, hu⟩ hev
  | cons i ids =>
    have hp : pollSendCompletionQueue t.ring.conn.cq =
        (i, { t.ring.conn.cq with entries := ids }) := by
      rw [pollSendCompletionQueue, CompletionQueue.poll, he]
    rw [hp]
    rcases h.polled hl hu he with ⟨rfl, hr, hsq⟩ | ⟨rfl, l', hl', hr⟩
    · -- the read: everything is retired
      refine h.poll rfl he ?_ ?_
      · rw [hr]; left; exact ⟨0, Nat.zero_le _, rfl⟩
      · rw [hsq]; exact notified_retired hev
    · exact h.poll rfl he ⟨l', hl', hr⟩ hev

theorem Tracked.post_inv (h : t.Inv) {sizeToWrite : UInt64} {ring : State}
    (hpc : t.ring.sendPc = .post sizeToWrite) (hs : sendStep t.ring = some ring) :
    Tracked.Inv ⟨ring, t.log ring⟩ := by
  have hlag := h.lag
  have hev := h.events
  have hsig := since_succ_eq_zero t.ring.messageCounter
  simp only [sendStep, hpc, writeRequest, ← hsig] at hs
  rw [hpc] at hlag hev
  by_cases hz : since (t.ring.messageCounter + 1) = 0
  · simp only [hz, decide_true, if_true] at hs
    cases hs
    refine h.post rfl rfl ⟨hz, ?_⟩ ?_
    · left; exact ⟨t.unretired, since_signaled hz ▸ hlag, rfl⟩
    · rw [List.filterMap_append, List.length_append]
      exact Notified.post hev
  · simp only [hz, decide_false] at hs
    cases hs
    refine h.post rfl rfl ?_ ?_
    · show Lag 4096 (since (t.ring.messageCounter + 1)) 0 _
      rw [since_unsignaled hz]; exact Lag.unsignaled hlag
    · rw [List.filterMap_append, List.length_append]; exact hev

theorem Tracked.wait_inv (h : t.Inv) {pc : WaitPc} {sizeToWrite : UInt64} {ring : State}
    (hpc : t.ring.sendPc = .waitForCompletion pc sizeToWrite) (hs : sendStep t.ring = some ring) :
    Tracked.Inv ⟨ring, t.log ring⟩ := by
  have hlag := h.lag
  have hev := h.events
  simp only [sendStep, hpc, Option.map_eq_some_iff] at hs
  rw [hpc] at hlag hev
  obtain ⟨⟨pc', cq⟩, hw, rfl⟩ := hs
  obtain ⟨hsince, hlag⟩ := hlag
  cases pc with
  | getEvent =>
    simp only [waitForCompletion, CompletionQueue.getEvent, Option.map_eq_some_iff] at hw
    obtain ⟨cq', hw, he⟩ := hw
    split_ifs at hw with hz
    cases hw
    cases he
    refine h.keep rfl rfl ⟨hsince, ?_⟩ ?_
    · rcases hlag with hlag | ⟨hn, -⟩
      · left; exact hlag
      · cases hn
    · rcases hev with ⟨-, he, -, -⟩ | ⟨ha, he, hk⟩
      · exact absurd he hz
      · exact ⟨ha, by simp [he], hk⟩
  | requestNotify =>
    cases hw
    refine h.keep rfl rfl ⟨hsince, ?_⟩ ?_
    · rcases hlag with hlag | ⟨hn, -⟩
      · left; exact hlag
      · cases hn
    · left; exact ⟨rfl, hev.2.1, Nat.zero_le _, hev.2.2⟩
  | poll =>
    cases he : t.ring.conn.cq.entries with
    | cons i ids =>
      simp only [waitForCompletion, CompletionQueue.poll, he] at hw
      cases hw
      refine h.poll rfl he ⟨hsince, ?_⟩ hev
      rcases hlag with ⟨l, hl, hu⟩ | ⟨-, hu⟩
      · rcases h.polled hl hu he with ⟨-, hr, -⟩ | ⟨-, l', hl', hr⟩
        · right; exact ⟨rfl, hr⟩
        · left; exact ⟨l', hl', hr⟩
      · right; rw [hu]; exact ⟨rfl, rfl⟩
    | nil =>
      simp only [waitForCompletion, CompletionQueue.poll, he] at hw
      cases hw
      refine h.keep rfl rfl ?_ hev
      show Lag 4096 (since (t.ring.messageCounter + 1)) 0 t.unretired
      rw [hsince]
      rcases hlag with ⟨l, hl, hu⟩ | ⟨-, hu⟩
      · -- only one signaled request can be incomplete
        have hids := h.ids
        rw [he, List.nil_append] at hids
        have hk : (t.unretired.filterMap id).length ≤ 1 := by
          rw [hids]
          rcases hev with ⟨-, -, -, hk⟩ | ⟨-, -, hk⟩ <;> omega
        rw [hu] at hk ⊢
        refine hl.signaled (by omega) (List.eq_nil_of_length_eq_zero ?_)
        rw [List.filterMap_append, List.length_append] at hk
        exact Nat.le_zero.1 (Nat.le_of_add_le_add_right hk)
      · left; exact ⟨0, le_rfl, hu⟩

theorem Tracked.sender_inv (h : t.Inv) (hs : t.step .sender = some t') : t'.Inv := by
  have hlag := h.lag
  have hev := h.events
  simp only [Tracked.step, VirtualRDMARingBuffer.step, Option.map_eq_some_iff] at hs
  obtain ⟨ring, hs, rfl⟩ := hs
  cases sendStep_cases hs with
  | full hpc =>
    -- the RDMA read
    rw [hpc] at hlag hev
    refine h.post rfl rfl ⟨_, hlag, rfl⟩ ?_
    rw [List.filterMap_append, List.length_append]
    exact Notified.postPolled hev
  | room hpc | advance hpc =>
    rw [hpc] at hlag hev
    exact h.keep rfl rfl hlag hev
  | polled hpc | polling hpc => exact Tracked.pollRead_inv h hpc hs
  | signaled hpc | unsignaled hpc => exact Tracked.post_inv h hpc hs
  | waiting hpc | waited hpc => exact Tracked.wait_inv h hpc hs

/-- A signaled request completes. -/
theorem EventsOk.push {cq : CompletionQueue} {k : ℕ} {pc : SendPc} (h : EventsOk cq (k + 1) pc)
    (id : UInt64) : EventsOk (cq.push id) k pc := by
  cases pc with
  | idle | waitUntilSendFree | post | advance | pollRead => exact Notified.push h id
  | waitForCompletion pc =>
    cases pc with
    | getEvent | poll => exact Notified.push h id
    | requestNotify =>
      obtain ⟨ha, he, hk⟩ := h
      exact ⟨rfl, by simp [CompletionQueue.push, ha, he], by omega⟩

/-- A request completes, and its event comes if it is signaled. -/
theorem EventsOk.complete {c c' : Conn} {pc : SendPc}
    (h : EventsOk c.cq (c.sq.filterMap Request.signal).length pc) (hc : c.complete = some c') :
    EventsOk c'.cq (c'.sq.filterMap Request.signal).length pc := by
  obtain ⟨w, sq, hsq, -, rfl⟩ | ⟨i, sq, hsq, rfl⟩ := Conn.complete_cases hc
  · by_cases hsig : w.signaled = true
    · have hr : (Request.write w).signal = some w.id := if_pos hsig
      rw [hsq, List.filterMap_cons_some hr] at h
      rw [if_pos hsig]
      exact h.push w.id
    · have hr : (Request.write w).signal = none := if_neg hsig
      rw [hsq, List.filterMap_cons_none hr] at h
      rw [if_neg hsig]
      exact h
  · have hr : (Request.read i).signal = some i := rfl
    rw [hsq, List.filterMap_cons_some hr] at h
    exact h.push i

theorem Tracked.complete_inv (h : t.Inv) (hs : t.step .complete = some t') : t'.Inv := by
  simp only [Tracked.step, VirtualRDMARingBuffer.step, Option.map_map, Option.map_eq_some_iff,
    Function.comp_apply] at hs
  obtain ⟨conn, hc, rfl⟩ := hs
  exact ⟨Conn.Log.complete h.log hc, h.lag, h.events.complete hc⟩

/-- The other steps leave the queues as they are. -/
theorem Tracked.Inv.frame (h : t.Inv) {ring : State}
    (hsq : ring.conn.sq.map Request.signal = t.ring.conn.sq.map Request.signal)
    (hcq : ring.conn.cq = t.ring.conn.cq) (hcount : ring.messageCounter = t.ring.messageCounter)
    (hpc : ring.sendPc = t.ring.sendPc ∨
      t.ring.sendPc = .idle ∧ ∃ sizeToWrite, ring.sendPc = .waitUntilSendFree sizeToWrite) :
    Tracked.Inv ⟨ring, t.unretired⟩ := by
  have hlog := h.log
  have hlag := h.lag
  have hev := h.events
  have hids : ring.conn.sq.filterMap Request.signal = t.ring.conn.sq.filterMap Request.signal := by
    have := congrArg (List.filterMap id) hsq
    rwa [List.filterMap_map, List.filterMap_map] at this
  rw [← hids, ← hcq] at hev
  rw [← hsq, ← hcq] at hlog
  rw [← hcount] at hlag
  rcases hpc with hpc | ⟨hidle, sizeToWrite, hpc⟩
  · exact ⟨hlog, by rw [hpc]; exact hlag, by rw [hpc]; exact hev⟩
  · rw [hidle] at hlag hev
    exact ⟨hlog, by rw [hpc]; exact hlag, by rw [hpc]; exact hev⟩

theorem Tracked.step_inv {a : Act} (h : t.Inv) (hs : t.step a = some t') : t'.Inv := by
  cases a with
  | sender => exact Tracked.sender_inv h hs
  | complete => exact Tracked.complete_inv h hs
  | send data =>
    simp only [Tracked.step, Option.map_eq_some_iff, VirtualRDMARingBuffer.step] at hs
    obtain ⟨ring, hs, rfl⟩ := hs
    split at hs
    next hpc =>
      cases hs
      unfold send
      dsimp only
      split_ifs
      · exact h.frame rfl rfl rfl (Or.inl rfl)
      · exact h.frame rfl rfl rfl (Or.inr ⟨hpc, _, rfl⟩)
    next => cases hs
  | receive | load | receiver | land =>
    simp only [Tracked.step, Option.map_eq_some_iff] at hs
    obtain ⟨ring, hs, rfl⟩ := hs
    have hf := step_senderFrame hs (by simp) (by simp) (by simp)
    exact h.frame hf.signals hf.cq hf.messageCounter (Or.inl hf.sendPc)

end

/-- **Selective signaling**: the send queue is never overrun, nor the completion queue, and
    `send` never waits for an event that cannot come. -/
theorem signaling_ok (size pos : UInt64) (acts : List Act) :
    AllStates Tracked.step SignalingOk (Tracked.start size pos) acts :=
  allStates_of_inv (fun _ h => Tracked.Inv.ok h) (fun _ _ _ h hs => Tracked.step_inv h hs) acts
    (Tracked.inv_start size pos)

end VirtualRDMARingBuffer

end L5RDMA
