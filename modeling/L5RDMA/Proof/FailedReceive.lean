/-
  A `receive` into a buffer that is too small.

  Both RDMA rings look at the length before they take anything: the exception
  comes out of the callback before the frame is cleared, or stands between
  the polling loop and the copy.  `receive_losesNothing`: a call with too little
  room throws once the message has arrived and leaves all as it would be without
  the call, and any number of such calls can be left out of a run.
-/
import L5RDMA.Lib.Receiver
import L5RDMA.Proof.Deadlock
import L5RDMA.Proof.Detection
import L5RDMA.Proof.RejectedSend

namespace L5RDMA

open Run Verbs Channel Frame
open Pos (lengthOf powerOfTwo)

/-! ## The ring -/

namespace VirtualRDMARingBuffer

/-- The payload does not contain the bytes of `validity`, and its length with its header and
    trailer does not wrap around. -/
def Plain : Act → Prop
  | .send data => data.length + 16 < 2 ^ 64 ∧ ¬ V <:+: data
  | _ => True

def receiver : Receiver State Act where
  step := stepCarrying
  act
    | .receive limit => .receive limit
    | .load is => .load is
    | .next => .receiver
  own
    | .receive _ | .load _ | .receiver => true
    | .send _ | .sender | .land _ | .complete => false
  pc := State.recvPc
  withPc s pc := { s with recvPc := pc }
  byteAt s off i := s.conn.receiveBuf (s.phys (s.startOfRead + off + i))
  readPos s := s.conn.readPos
  sent := State.sent
  received := State.received

section
variable {B : ℕ} {s s' : State} {a : Act} {data : List UInt8}

theorem carry_carry (s : State) : s.carry.carry = s.carry := by
  exact congrArg (fun conn => { s with conn := conn }) (Conn.carry_carry s.phys s.conn)

/-- A payload that does not fit only changes the staging ring, from which nothing is read any
    more. -/
theorem rejected_inv {F : List (List UInt8)} {Z A C : ℕ} {data : List UInt8}
    (h : InvAt B F Z A C s) (hcarried : ∀ r ∈ s.conn.sq, r.cells s.phys = [])
    (hidle : s.sendPc = .idle) (hbig : 8 + lengthOf data + 8 > s.size) :
    InvAt B F Z A C (send s data) := by
  have hsend := h.send
  rw [hidle] at hsend
  rw [send_of_throws hbig]
  refine ⟨h.pow, { h.chan with feed := h.chan.feed.congr_mem ?_ }, h.recv, ?_⟩
  · intro r hr c hc
    rw [hcarried r hr] at hc; cases hc
  · simp only [hidle]; exact hsend

theorem stepCarrying_plain (h : Flow B s) (ha : Plain a) (hs : stepCarrying s a = some s') :
    Flow B s' := by
  cases a with
  | send data =>
    by_cases hfits : data.length + 16 ≤ s.size.toNat
    · exact stepCarrying_flow (a := .send data) h hfits ha.2 hs
    · have hbig : 8 + lengthOf data + 8 > s.size := frameSize_gt ha.1 (Nat.not_le.1 hfits)
      simp only [stepCarrying, Option.map_eq_some_iff] at hs
      obtain ⟨s₁, hs, rfl⟩ := hs
      have hreads := step_readsOk h.reads hs
      obtain ⟨⟨⟨F, Z, A, C, hi⟩, hclean⟩, hcarried, hreads₀, hsending₀⟩ := h
      have hsending := step_sending hi hreads₀ hsending₀ hs
      simp only [step] at hs
      split at hs
      next hidle =>
        cases hs
        have hinv := rejected_inv hi hcarried hidle hbig
        have hsent : (send s data).sent = s.sent := by rw [send_of_throws hbig]
        refine ⟨⟨⟨F, Z, A, C, hinv.carry⟩, ?_⟩, ?_, hreads.carry,
          hsending.frame rfl rfl rfl rfl rfl⟩
        · exact fun p hp => hclean p (hsent ▸ hp)
        · intro r hr
          obtain ⟨r', -, rfl⟩ := List.mem_map.1 hr
          exact Request.cells_carry _ _ r'
      next => cases hs
  | sender | receive | load | receiver | land | complete =>
    refine stepCarrying_flow h ?_ ?_ hs <;> trivial

theorem send_apart (hs : step s (.send data) = some s') :
    receiver.Apart step s s' (.send data) := by
  simp only [VirtualRDMARingBuffer.step] at hs
  split at hs
  next hidle =>
    cases hs
    have hsend : ∀ pc, send { s with recvPc := pc } data = { send s data with recvPc := pc } := by
      intro pc
      unfold send
      dsimp only
      split_ifs
      · rfl
      · rfl
    refine ⟨fun pc => ?_, ?_, ?_, ?_⟩
    · unfold VirtualRDMARingBuffer.step
      dsimp only
      split
      · exact congrArg some (hsend pc)
      · next hbusy => exact absurd hidle hbusy
    all_goals
      unfold send
      dsimp only
      split_ifs
      · rfl
      · rfl
  next => cases hs

theorem SendStep.withPc (h : SendStep s s') (pc : RecvPc) :
    SendStep { s with recvPc := pc } { s' with recvPc := pc } := by
  cases h with
  | full hpc hfull => exact .full hpc hfull
  | room hpc hroom => exact .room hpc hroom
  | polled hpc hid => exact .polled hpc hid
  | polling hpc hid => exact .polling hpc hid
  | signaled hpc hsig => exact .signaled (s := { s with recvPc := pc }) hpc hsig
  | unsignaled hpc hsig => exact .unsignaled (s := { s with recvPc := pc }) hpc hsig
  | waiting hpc hwait => exact .waiting hpc hwait
  | waited hpc hwait => exact .waited hpc hwait
  | advance hpc => exact .advance hpc

theorem sendStep_apart (hs : sendStep s = some s') : receiver.Apart step s s' .sender := by
  have h := sendStep_cases hs
  refine ⟨fun pc => (h.withPc pc).eq, ?_, ?_, ?_⟩
  all_goals cases h <;> rfl

/-- The steps of the others do not see the receiver. -/
theorem step_apart (ha : receiver.own a = false) (hs : step s a = some s') :
    receiver.Apart step s s' a := by
  cases a with
  | send data => exact send_apart hs
  | sender => exact sendStep_apart hs
  | receive | load | receiver => cases ha
  | land k =>
    simp only [step, Option.map_eq_some_iff] at hs
    obtain ⟨conn, hland, rfl⟩ := hs
    refine ⟨fun pc => ?_, rfl, Conn.land_readPos hland, rfl⟩
    change (s.conn.land s.phys k).map _ = _
    rw [hland]
    rfl
  | complete =>
    simp only [step, Option.map_eq_some_iff] at hs
    obtain ⟨conn, hcomp, rfl⟩ := hs
    refine ⟨fun pc => ?_, rfl, Conn.complete_readPos hcomp, rfl⟩
    change s.conn.complete.map _ = _
    rw [hcomp]
    rfl

/-- The bytes that the writes take along do not concern the receiver. -/
theorem carry_keeps : receiver.Keeps State.carry := by
  constructor <;> intros <;> rfl

theorem InvAt.sent_fits {F : List (List UInt8)} {Z A C : ℕ} (h : InvAt B F Z A C s) :
    ∀ p ∈ s.sent, p.length + 16 ≤ s.size.toNat := by
  have hsend := h.send
  have hF := h.chan.fits
  have hsnoc : ∀ p, s.sent = F ++ [p] → p.length + 16 ≤ s.size.toNat →
      ∀ p ∈ s.sent, p.length + 16 ≤ s.size.toNat := by
    intro p hsent hp q hq
    rw [hsent] at hq
    rcases List.mem_append.1 hq with hq | hq
    · exact hF q hq
    · rw [List.mem_singleton] at hq; exact hq ▸ hp
  cases hpc : s.sendPc with
  | idle | waitForCompletion | advance => rw [hpc] at hsend; exact hsend.1 ▸ hF
  | waitUntilSendFree | pollRead =>
    rw [hpc] at hsend
    obtain ⟨p, hp⟩ := hsend
    exact hsnoc p hp.sent hp.fits
  | post =>
    rw [hpc] at hsend
    obtain ⟨p, hp, -⟩ := hsend
    exact hsnoc p hp.sent hp.fits

theorem receiver_next {maxSize : UInt64} (hI : s.carry = s) (hat : s.recvPc.AtCall maxSize)
    (hs : stepCarrying s .receiver = some s') : ∃ n, s.recvPc = .found (some maxSize) n ∧
      (maxSize < n → s' = { s with recvPc := .idle }) := by
  simp only [stepCarrying, step, Option.map_eq_some_iff] at hs
  obtain ⟨s₁, hs, rfl⟩ := hs
  unfold recvStep at hs
  cases hpc : s.recvPc with
  | idle | size | check => rw [hpc] at hs; cases hs
  | clear | publish => rw [hpc] at hat; exact hat.elim
  | found limit n =>
    rw [hpc] at hat
    obtain rfl : limit = some maxSize := hat
    refine ⟨n, rfl, fun hlt => ?_⟩
    simp only [hpc, Option.mem_def, Option.some.injEq, exists_eq_left', gt_iff_lt, hlt,
      if_true] at hs
    cases hs
    exact carry_keeps.withPc_of_eq hI .idle

theorem receiver_laws (B : ℕ) : receiver.Laws validity (fun s => Flow B s ∧ s.carry = s) Plain where
  inv := by
    rintro s a s' ⟨hflow, -⟩ ha hs
    refine ⟨stepCarrying_plain hflow ha hs, ?_⟩
    obtain ⟨s₁, -, rfl⟩ := Option.map_eq_some_iff.1 hs
    exact carry_carry s₁
  withPc_self _ := rfl
  withPc_withPc _ _ _ := rfl
  pc_withPc _ _ := rfl
  byteAt_withPc _ _ := rfl
  readPos_withPc _ _ := rfl
  sent_withPc _ _ := rfl
  received_withPc _ _ := rfl
  own_iff a := by
    constructor
    · intro ha
      cases a with
      | receive limit => exact ⟨.receive limit, rfl⟩
      | load is => exact ⟨.load is, rfl⟩
      | receiver => exact ⟨.next, rfl⟩
      | send | sender | land | complete => cases ha
    · rintro ⟨b, rfl⟩
      cases b <;> rfl
  admits b := by cases b <;> trivial
  others := by
    rintro s a s' - ha hs
    obtain ⟨s₁, hs₁, rfl⟩ := Option.map_eq_some_iff.1 hs
    exact (step_apart ha hs₁).map carry_keeps
  sent := by
    rintro s a s' - hs
    obtain ⟨s₁, hs₁, rfl⟩ := Option.map_eq_some_iff.1 hs
    change s.sent <+: s₁.sent
    rcases (step_frame hs₁).2.1 with hsent | ⟨data, -, hsent⟩
    · exact ⟨[], by rw [hsent, List.append_nil]⟩
    · exact ⟨[data], hsent.symm⟩
  receive := by
    rintro s limit s' ⟨-, hcarry⟩ hs
    obtain ⟨s₁, hs₁, rfl⟩ := Option.map_eq_some_iff.1 hs
    change step s (.receive limit) = some s₁ at hs₁
    unfold step at hs₁
    dsimp only at hs₁
    split at hs₁
    next hidle =>
      cases hs₁
      refine ⟨hidle, ?_⟩
      unfold receive
      split
      · split_ifs
        · exact Or.inr hcarry
        · exact Or.inl (carry_keeps.withPc_of_eq hcarry _)
      · exact Or.inl (carry_keeps.withPc_of_eq hcarry _)
    next => cases hs₁
  load := by
    rintro s is ⟨-, hcarry⟩
    change ((poll validity _ is s.recvPc).map _).map _ = (poll validity _ is s.recvPc).map _
    rw [Option.map_map]
    congr 1
    ext1 pc
    exact carry_keeps.withPc_of_eq hcarry pc
  next := by
    rintro s s' maxSize ⟨-, hcarry⟩ hat hs
    exact receiver_next hcarry hat hs
  next_found := by
    rintro s maxSize n - hpc
    change s.recvPc = _ at hpc
    change ∃ s', (recvStep s).map State.carry = some s'
    unfold recvStep
    rw [hpc]
    dsimp only
    split_ifs
    · exact ⟨_, rfl⟩
    · exact ⟨_, rfl⟩
  found := by
    rintro s limit n ⟨⟨⟨⟨F, Z, A, C, hi⟩, -⟩, -, -, -⟩, -⟩ hpc
    change s.recvPc = _ at hpc
    have hrecv := hi.recv
    rw [hpc] at hrecv
    obtain ⟨-, p, hp, rfl⟩ := hrecv
    exact ⟨p, hp.1.trans hi.posted, rfl⟩
  fits := by
    rintro s p ⟨⟨⟨⟨F, Z, A, C, hi⟩, -⟩, -, -, -⟩, -⟩ hp
    have := hi.sent_fits p hp
    have := s.size.toNat_lt
    omega

/-- A call with room for one byte during which a message of two bytes arrives. -/
def tooSmallWhileArriving : List Act :=
  .receive (some 1) :: (arrive [1, 2] ++ [.load (List.range 8), .load (List.range 8), .receiver])

/-- When all that was sent has arrived, so has the next message. -/
theorem landed_of_arrived (h : Flow B s) (ha : Arrived s)
    (hpc : ∀ bytes receiveSize, s.recvPc ≠ .publish bytes receiveSize) {p : List UInt8}
    (hp : s.received ++ [p] <+: s.sent) : receiver.Landed validity s p := by
  obtain ⟨⟨⟨F, Z, A, C, hi⟩, -⟩, -, -, -⟩ := h
  obtain ⟨hF, rfl⟩ := hi.of_arrived ha
  have hfound : Found validity B F s.received (endPos V B F) p :=
    ⟨hF ▸ hp, endPos_mono V (hF ▸ hp) B⟩
  intro off i b hi8 hb
  change s.conn.receiveBuf (s.phys (s.startOfRead + off + i)) = b
  rw [add_assoc, hi.maps_read (off + i + 1) (off + i) (by omega),
    hi.chan.cell (hi.recv.cleared hpc) hfound hb]

end

end VirtualRDMARingBuffer

/-! ## The message buffer -/

namespace RDMAMessageBuffer

/-- As for the ring. -/
def Plain : Act → Prop
  | .send data _ => data.length + 16 < 2 ^ 64 ∧ ¬ V <:+: data
  | _ => True

def receiver : Receiver State Act where
  step := stepCarrying
  act
    | .receive limit => .receive limit
    | .load is => .load is
    | .next => .receiver
  own
    | .receive _ | .load _ | .receiver => true
    | .send _ _ | .sender | .land _ | .complete => false
  pc := State.recvPc
  withPc s pc := { s with recvPc := pc }
  byteAt s off i := (readFromReceiveBuffer s (s.conn.readPos + UInt64.ofNat off) 8).getD i 0
  readPos s := s.conn.readPos
  sent := State.sent
  received := State.received

section
variable {B : ℕ} {s s' : State} {a : Act} {data : List UInt8} {inln : Bool}

theorem carry_carry (s : State) : s.carry.carry = s.carry := by
  exact congrArg (fun conn => { s with conn := conn }) (Conn.carry_carry id s.conn)

theorem send_of_throws (h : 8 + lengthOf data + 8 > s.size) (inln : Bool) :
    send s data inln = s := by
  unfold send
  exact if_pos h

theorem stepCarrying_plain (h : Flow B s) (ha : Plain a) (hs : stepCarrying s a = some s') :
    Flow B s' := by
  simp only [stepCarrying, Option.map_eq_some_iff] at hs
  obtain ⟨s₁, hs, rfl⟩ := hs
  refine Flow.carry ?_
  cases a with
  | send data inln =>
    by_cases hfits : data.length + 16 ≤ s.size.toNat
    · refine step_flow h (fun data' inln' hd => ?_) hs
      cases hd
      exact ⟨hfits, ha.2⟩
    · have hbig : 8 + lengthOf data + 8 > s.size := frameSize_gt ha.1 (Nat.not_le.1 hfits)
      simp only [step] at hs
      split at hs
      next => cases hs; rw [send_of_throws hbig]; exact h
      next => cases hs
  | sender | receive | load | receiver | land | complete =>
    exact step_flow h (fun _ _ hd => by cases hd) hs

theorem send_apart (hs : step s (.send data inln) = some s') :
    receiver.Apart step s s' (.send data inln) := by
  simp only [RDMAMessageBuffer.step] at hs
  split at hs
  next hidle =>
    cases hs
    have hsend : ∀ pc, send { s with recvPc := pc } data inln =
        { send s data inln with recvPc := pc } := by
      intro pc
      unfold send
      dsimp only
      split_ifs
      · rfl
      · rfl
    refine ⟨fun pc => ?_, ?_, ?_, ?_⟩
    · unfold RDMAMessageBuffer.step
      dsimp only
      split
      · exact congrArg some (hsend pc)
      · next hbusy => exact absurd hidle hbusy
    all_goals
      unfold send
      dsimp only
      split_ifs
      · rfl
      · rfl
  next => cases hs

theorem SendStep.withPc (h : SendStep s s') (pc : RecvPc) :
    SendStep { s with recvPc := pc } { s' with recvPc := pc } := by
  cases h with
  | full hpc hfull => exact .full hpc hfull
  | copied hpc hroom => exact .copied (s := { s with recvPc := pc }) hpc hroom
  | staged hpc hroom => exact .staged (s := { s with recvPc := pc }) hpc hroom
  | polled hpc hid => exact .polled hpc hid
  | polling hpc hid => exact .polling hpc hid
  | signaled hpc hsig => exact .signaled (s := { s with recvPc := pc }) hpc hsig
  | unsignaled hpc hsig => exact .unsignaled (s := { s with recvPc := pc }) hpc hsig
  | waiting hpc hwait => exact .waiting hpc hwait
  | waited hpc hwait => exact .waited hpc hwait

theorem sendStep_apart (hs : sendStep s = some s') : receiver.Apart step s s' .sender := by
  have h := sendStep_cases hs
  refine ⟨fun pc => (h.withPc pc).eq, ?_, ?_, ?_⟩
  all_goals cases h <;> rfl

/-- The steps of the others do not see the receiver. -/
theorem step_apart (ha : receiver.own a = false) (hs : step s a = some s') :
    receiver.Apart step s s' a := by
  cases a with
  | send data inln => exact send_apart hs
  | sender => exact sendStep_apart hs
  | receive | load | receiver => cases ha
  | land k =>
    simp only [step, Option.map_eq_some_iff] at hs
    obtain ⟨conn, hland, rfl⟩ := hs
    refine ⟨fun pc => ?_, rfl, Conn.land_readPos hland, rfl⟩
    change (s.conn.land id k).map _ = _
    rw [hland]
    rfl
  | complete =>
    simp only [step, Option.map_eq_some_iff] at hs
    obtain ⟨conn, hcomp, rfl⟩ := hs
    refine ⟨fun pc => ?_, rfl, Conn.complete_readPos hcomp, rfl⟩
    change s.conn.complete.map _ = _
    rw [hcomp]
    rfl

/-- The bytes that the writes take along do not concern the receiver. -/
theorem carry_keeps : receiver.Keeps State.carry := by
  constructor <;> intros <;> rfl

theorem InvAt.sent_fits {F : List (List UInt8)} {Z A P C : ℕ} (h : InvAt B F Z A P C s) :
    ∀ p ∈ s.sent, p.length + 16 ≤ s.size.toNat := by
  have hsend := h.send
  have hF := h.chan.fits
  cases hpc : s.sendPc with
  | idle | post | waitForCompletion => rw [hpc] at hsend; exact hsend.1 ▸ hF
  | writeToSendBuffer | pollRead =>
    rw [hpc] at hsend
    obtain ⟨-, p, done, hp⟩ := hsend
    intro q hq
    rw [hp.sent] at hq
    rcases List.mem_append.1 hq with hq | hq
    · exact hF q hq
    · rw [List.mem_singleton] at hq; exact hq ▸ hp.fits

theorem receiver_next {maxSize : UInt64} (hI : s.carry = s) (hat : s.recvPc.AtCall maxSize)
    (hs : stepCarrying s .receiver = some s') : ∃ n, s.recvPc = .found (some maxSize) n ∧
      (maxSize < n → s' = { s with recvPc := .idle }) := by
  simp only [stepCarrying, step, Option.map_eq_some_iff] at hs
  obtain ⟨s₁, hs, rfl⟩ := hs
  unfold recvStep at hs
  cases hpc : s.recvPc with
  | idle | size | check => rw [hpc] at hs; cases hs
  | clear | publish => rw [hpc] at hat; exact hat.elim
  | found limit n =>
    rw [hpc] at hat
    obtain rfl : limit = some maxSize := hat
    refine ⟨n, rfl, fun hlt => ?_⟩
    simp only [hpc, Option.mem_def, Option.some.injEq, exists_eq_left', gt_iff_lt, hlt,
      if_true] at hs
    cases hs
    exact carry_keeps.withPc_of_eq hI .idle

theorem receiver_laws (B : ℕ) : receiver.Laws validity (fun s => Flow B s ∧ s.carry = s) Plain where
  inv := by
    rintro s a s' ⟨hflow, -⟩ ha hs
    refine ⟨stepCarrying_plain hflow ha hs, ?_⟩
    obtain ⟨s₁, -, rfl⟩ := Option.map_eq_some_iff.1 hs
    exact carry_carry s₁
  withPc_self _ := rfl
  withPc_withPc _ _ _ := rfl
  pc_withPc _ _ := rfl
  byteAt_withPc _ _ := rfl
  readPos_withPc _ _ := rfl
  sent_withPc _ _ := rfl
  received_withPc _ _ := rfl
  own_iff a := by
    constructor
    · intro ha
      cases a with
      | receive limit => exact ⟨.receive limit, rfl⟩
      | load is => exact ⟨.load is, rfl⟩
      | receiver => exact ⟨.next, rfl⟩
      | send | sender | land | complete => cases ha
    · rintro ⟨b, rfl⟩
      cases b <;> rfl
  admits b := by cases b <;> trivial
  others := by
    rintro s a s' - ha hs
    obtain ⟨s₁, hs₁, rfl⟩ := Option.map_eq_some_iff.1 hs
    exact (step_apart ha hs₁).map carry_keeps
  sent := by
    rintro s a s' - hs
    obtain ⟨s₁, hs₁, rfl⟩ := Option.map_eq_some_iff.1 hs
    change s.sent <+: s₁.sent
    rcases (step_frame hs₁).2 with hsent | ⟨data, inln, -, hsent⟩
    · exact ⟨[], by rw [hsent, List.append_nil]⟩
    · exact ⟨[data], hsent.symm⟩
  receive := by
    rintro s limit s' ⟨-, hcarry⟩ hs
    obtain ⟨s₁, hs₁, rfl⟩ := Option.map_eq_some_iff.1 hs
    change step s (.receive limit) = some s₁ at hs₁
    unfold step at hs₁
    dsimp only at hs₁
    split at hs₁
    next hidle => cases hs₁; exact ⟨hidle, Or.inl (carry_keeps.withPc_of_eq hcarry _)⟩
    next => cases hs₁
  load := by
    rintro s is ⟨-, hcarry⟩
    change ((poll validity _ is s.recvPc).map _).map _ = (poll validity _ is s.recvPc).map _
    rw [Option.map_map]
    congr 1
    ext1 pc
    exact carry_keeps.withPc_of_eq hcarry pc
  next := by
    rintro s s' maxSize ⟨-, hcarry⟩ hat hs
    exact receiver_next hcarry hat hs
  next_found := by
    rintro s maxSize n - hpc
    change s.recvPc = _ at hpc
    change ∃ s', (recvStep s).map State.carry = some s'
    unfold recvStep
    rw [hpc]
    dsimp only
    split_ifs
    · exact ⟨_, rfl⟩
    · exact ⟨_, rfl⟩
  found := by
    rintro s limit n ⟨⟨⟨F, Z, A, P, C, hi⟩, -, -⟩, -⟩ hpc
    change s.recvPc = _ at hpc
    have hrecv := hi.recv
    rw [hpc] at hrecv
    obtain ⟨-, p, hp, rfl⟩ := hrecv
    exact ⟨p, hp.1.trans hi.posted, rfl⟩
  fits := by
    rintro s p ⟨⟨⟨F, Z, A, P, C, hi⟩, -, -⟩, -⟩ hp
    have := hi.sent_fits p hp
    have := s.size.toNat_lt
    omega

/-- All that was sent is posted, and all that is posted has arrived. -/
def Arrived (s : State) : Prop :=
  (∀ w, Request.write w ∈ s.conn.sq → w.length = 0) ∧
    match s.sendPc with
    | .idle | .waitForCompletion _ _ [] => True
    | _ => False

theorem landed_of_arrived (h : Flow B s) (ha : Arrived s)
    (hpc : ∀ bytes receiveSize, s.recvPc ≠ .publish bytes receiveSize) {p : List UInt8}
    (hp : s.received ++ [p] <+: s.sent) : receiver.Landed validity s p := by
  obtain ⟨⟨F, Z, A, P, C, hi⟩, -, -⟩ := h
  obtain ⟨hlanded, hposted⟩ := ha
  have hAP : A = P := hi.chan.feed.eq_of_landed hlanded
  have hsend := hi.send
  have hend : s.sent = F ∧ P = endPos V B F := by
    split at hposted
    next hidle => rw [hidle] at hsend; exact ⟨hsend.1, hsend.2.2⟩
    next hwait =>
      rw [hwait] at hsend
      obtain ⟨hsent, -, ⟨E, k, len, hP, hE, hcov⟩, -⟩ := hsend
      have hk : k = len := hcov
      exact ⟨hsent, by omega⟩
    next => exact hposted.elim
  obtain ⟨hF, hP⟩ := hend
  have hfound : Found validity B F s.received A p :=
    ⟨hF ▸ hp, (endPos_mono V (hF ▸ hp) B).trans (hAP.trans hP).ge⟩
  intro off i b hi8 hb
  have h8 : (8 : UInt64).toNat = 8 := rfl
  have hcov := hi.covers_read off (h8.trans_le (by have := hi.words; omega))
  change (readFromReceiveBuffer s (s.conn.readPos + UInt64.ofNat off) 8).getD i 0 = b
  rw [List.getD_eq_getElem?_getD, readFromReceiveBuffer, readParts_get hcov (by omega),
    Nat.zero_add, Option.getD_some, add_assoc, hi.chan.cell (hi.recv.cleared hpc) hfound hb]

/-- A ring that is smaller than the frame of an empty message takes none. -/
theorem step_sent_nil {size : UInt64} (h16 : size.toNat < 16) (h : s.sent = [] ∧ s.size = size)
    (ha : Plain a) (hs : stepCarrying s a = some s') : s'.sent = [] ∧ s'.size = size := by
  obtain ⟨hsent, rfl⟩ := h
  obtain ⟨s₁, hs₁, rfl⟩ := Option.map_eq_some_iff.1 hs
  obtain ⟨hsize, hor⟩ := step_frame hs₁
  refine ⟨?_, hsize⟩
  rcases hor with hor | ⟨data, inln, rfl, -⟩
  · exact hor.trans hsent
  · have hbig : 8 + lengthOf data + 8 > s.size := frameSize_gt ha.1 (by omega)
    simp only [step] at hs₁
    split at hs₁
    next => cases hs₁; rw [send_of_throws hbig]; exact hsent
    next => cases hs₁

end

end RDMAMessageBuffer

/-! ## Both -/

/-- **A receive into a too small buffer loses nothing**, over the ring and over the message
    buffer. -/
theorem receive_losesNothing {size : UInt64} (hpow : powerOfTwo size = true) (pos : UInt64) :
    VirtualRDMARingBuffer.receiver.LosesNothing VirtualRDMARingBuffer.validity
        VirtualRDMARingBuffer.Plain (VirtualRDMARingBuffer.start size pos) ∧
      RDMAMessageBuffer.receiver.LosesNothing RDMAMessageBuffer.validity
        RDMAMessageBuffer.Plain (RDMAMessageBuffer.start size pos) := by
  constructor
  · exact (VirtualRDMARingBuffer.receiver_laws pos.toNat).losesNothing
      ⟨VirtualRDMARingBuffer.flow_start hpow pos, rfl⟩
  · rcases Nat.lt_or_ge size.toNat 16 with h16 | h16
    · exact Receiver.losesNothing_of_nil
        (I := fun s => RDMAMessageBuffer.State.sent s = [] ∧ s.size = size)
        (fun s a s' hI ha hs => RDMAMessageBuffer.step_sent_nil h16 hI ha hs)
        (RDMAMessageBuffer.receiver_laws pos.toNat).admits (fun s hI => hI.1) ⟨rfl, rfl⟩
    · exact (RDMAMessageBuffer.receiver_laws pos.toNat).losesNothing
        ⟨⟨RDMAMessageBuffer.inv_start hpow h16 pos, fun p hp => by (cases hp),
          fun hp => by cases hp⟩, rfl⟩

open VirtualRDMARingBuffer in
/-- A call with room for one byte fails while a message of two arrives; the next call returns
    the message, as it does when the first has never been made. -/
theorem receive_losesNothing_two :
    (run stepCarrying (start 4096 0) (tooSmallWhileArriving ++ receiveWhole)).map State.received =
        some [[1, 2]] ∧
      run stepCarrying (start 4096 0) (arrive [1, 2] ++ receiveWhole) =
        run stepCarrying (start 4096 0) (tooSmallWhileArriving ++ receiveWhole) := by
  refine ⟨by decide +kernel, ?_⟩
  have hrun : ((run stepCarrying (start 4096 0) tooSmallWhileArriving).map fun s =>
      (s.recvPc.ctorIdx, s.sent)) = some (0, [[1, 2]]) := by
    decide +kernel
  obtain ⟨s, hs, he⟩ := Option.map_eq_some_iff.1 hrun
  simp only [Prod.mk.injEq] at he
  obtain ⟨hidle, hsent⟩ := he
  have hpc : s.recvPc = .idle := by
    cases hpc : s.recvPc with
    | idle => rfl
    | size | check | found | clear | publish => rw [hpc] at hidle; cases hidle
  have hplain : ∀ a ∈ tooSmallWhileArriving ++ receiveWhole, Plain a := by
    intro a ha
    cases a with
    | send data =>
      obtain rfl : data = [1, 2] := by
        simpa [tooSmallWhileArriving, arrive, receiveWhole] using ha
      exact ⟨by decide, by decide⟩
    | sender | receive | load | receiver | land | complete => trivial
  have hsize : powerOfTwo 4096 = true := by decide
  refine (receive_losesNothing hsize 0).1.erased
    (tooSmallWhileArriving ++ receiveWhole) _ hplain (.failed ⟨1, _, rfl, ?_, hpc⟩ (.same s _))
  refine ⟨rfl, ?_, hs, [1, 2], ?_, by decide⟩
  · rintro limit hlimit
    change Act.receive limit ∈ _ at hlimit
    simp [arrive] at hlimit
  · change [] ++ [[1, 2]] <+: s.sent
    exact hsent ▸ List.prefix_rfl

end L5RDMA
