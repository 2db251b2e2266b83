/-
  The RDMA ring delivers messages in order.

  `Inv`: the messages that have been posted (`F`) are those passed to `send`,
  but for one that waits for space; they are a stream that the send queue and
  the receive ring hold between them (`Channel.Inv`).

  `send` fills the staging ring before it waits for space, so that it may fill
  cells that an earlier write has yet to read.  `fifo_of_fillSafe`: messages of
  every size arrive in order and unchanged as long as no call does.
  `fifo_inline`: an INLINE write has its bytes with it, so that small messages
  always do.
-/
import L5RDMA.VirtualRDMARingBuffer

namespace L5RDMA

namespace VirtualRDMARingBuffer

open Run Verbs Channel Frame
open Pos (lengthOf powerOfTwo)

/-- The trailer of a frame. -/
abbrev V : List UInt8 := trailer validity

theorem borderFree_V : BorderFree V := by decide

theorem zero_notMem_V : (0 : UInt8) ∉ V := by decide

/-! ## Conditions on the sends -/

/-- The payload fits the ring with its length and its trailer. -/
def Admitted (s : State) : Act → Prop
  | .send data => data.length + 16 ≤ s.size.toNat
  | _ => True

/-- The bytes that `send` stages do not replace any that a posted write has yet to read. -/
def FillSafe (s : State) : Act → Prop
  | .send data => ∀ r ∈ s.conn.sq, ∀ c ∈ r.cells s.phys, ∀ j < data.length + 16,
      s.phys (s.startOfWrite + j) ≠ c
  | _ => True

instance (s : State) : ∀ a, Decidable (Admitted s a)
  | .send data => inferInstanceAs (Decidable (data.length + 16 ≤ s.size.toNat))
  | .sender | .receive _ | .load _ | .receiver | .land _ | .complete => isTrue trivial

instance (s : State) : ∀ a, Decidable (FillSafe s a)
  | .send data => inferInstanceAs (Decidable (∀ r ∈ s.conn.sq, ∀ c ∈ r.cells s.phys,
      ∀ j < data.length + 16, s.phys (s.startOfWrite + j) ≠ c))
  | .sender | .receive _ | .load _ | .receiver | .land _ | .complete => isTrue trivial

/-- The payload does not contain the bytes of `validity`. -/
def PatternFree : Act → Prop
  | .send data => ¬ V <:+: data
  | _ => True

instance : ∀ a, Decidable (PatternFree a)
  | .send data => inferInstanceAs (Decidable (¬ V <:+: data))
  | .sender | .receive _ | .load _ | .receiver | .land _ | .complete => isTrue trivial

/-! ## The invariant -/

/-- The frame of `p` is staged for position `E`. -/
def Staged (n : ℕ) (m : Mem) (E : ℕ) (p : List UInt8) : Prop :=
  ∀ (i : ℕ) b, (frame V p)[i]? = some b → m ((E + i) % n) = b

/-- The message `p` is staged after the messages `F`, and not posted yet. -/
structure Pending (n B : ℕ) (F sent : List (List UInt8)) (sendPos : UInt64) (m : Mem)
    (sizeToWrite : UInt64) (p : List UInt8) : Prop where
  sent : sent = F ++ [p]
  pos : sendPos = UInt64.ofNat (endPos V B F)
  size : sizeToWrite = UInt64.ofNat (p.length + 16)
  fits : p.length + 16 ≤ n
  staged : Staged n m (endPos V B F) p

/-- What the sender knows; before it posts, that there is room. -/
def SendOk (n B : ℕ) (F : List (List UInt8)) (C : ℕ) (sent : List (List UInt8)) (sendPos : UInt64)
    (m : Mem) : SendPc → Prop
  | .idle => sent = F ∧ sendPos = UInt64.ofNat (endPos V B F)
  | .waitUntilSendFree sizeToWrite | .pollRead sizeToWrite =>
    ∃ p, Pending n B F sent sendPos m sizeToWrite p
  | .post sizeToWrite =>
    ∃ p, Pending n B F sent sendPos m sizeToWrite p ∧ endPos V B (F ++ [p]) ≤ C + n
  | .waitForCompletion _ sizeToWrite | .advance sizeToWrite =>
    sent = F ∧ sendPos + sizeToWrite = UInt64.ofNat (endPos V B F)

structure InvAt (B : ℕ) (F : List (List UInt8)) (Z A C : ℕ) (s : State) : Prop where
  pow : powerOfTwo s.size = true
  chan : Channel.Inv validity s.phys s.size.toNat B F s.received s.conn Z A
    (endPos V B F) C
  recv : RecvOk validity B F s.received Z A s.recvPc
  send : SendOk s.size.toNat B F C s.sent s.sendPos s.conn.sendBuf s.sendPc

def Inv (B : ℕ) (s : State) : Prop := ∃ F Z A C, InvAt B F Z A C s

theorem inv_start {size : UInt64} (h : powerOfTwo size = true) (pos : UInt64) :
    InvAt pos.toNat [] pos.toNat pos.toNat pos.toNat (start size pos) where
  pow := h
  chan := Channel.Inv.fresh rfl (fun _ => rfl) UInt64.ofNat_toNat.symm UInt64.ofNat_toNat.symm
  recv := rfl
  send := ⟨rfl, UInt64.ofNat_toNat.symm⟩

section
variable {B : ℕ} {F : List (List UInt8)} {Z A C : ℕ} {s s' : State}

/-- Only a message that waits for space is sent and not posted. -/
theorem InvAt.posted (h : InvAt B F Z A C s) : F <+: s.sent := by
  have hs := h.send
  cases hpc : s.sendPc with
  | idle => rw [hpc] at hs; exact hs.1 ▸ List.prefix_rfl
  | waitUntilSendFree | pollRead =>
    rw [hpc] at hs
    obtain ⟨p, hp⟩ := hs
    rw [hp.sent]; exact List.prefix_append _ _
  | post =>
    rw [hpc] at hs
    obtain ⟨p, hp, -⟩ := hs
    rw [hp.sent]; exact List.prefix_append _ _
  | waitForCompletion | advance => rw [hpc] at hs; exact hs.1 ▸ List.prefix_rfl

theorem State.startOfWrite_eq (h : powerOfTwo s.size = true) {E : ℕ}
    (hE : s.sendPos = UInt64.ofNat E) : s.startOfWrite = E % s.size.toNat := by
  rw [State.startOfWrite, State.bitmask, hE, Pos.ofNat_and_mask h]

theorem State.startOfRead_eq (h : powerOfTwo s.size = true) {R : ℕ}
    (hR : s.conn.readPos = UInt64.ofNat R) : s.startOfRead = R % s.size.toNat := by
  rw [State.startOfRead, State.bitmask, hR, Pos.ofNat_and_mask h]

theorem InvAt.startOfWrite (h : InvAt B F Z A C s) {E : ℕ} (hE : s.sendPos = UInt64.ofNat E) :
    s.startOfWrite = E % s.size.toNat := s.startOfWrite_eq h.pow hE

theorem InvAt.startOfRead (h : InvAt B F Z A C s) :
    s.startOfRead = endPos V B s.received % s.size.toNat := s.startOfRead_eq h.pow h.chan.readPos

/-- The cells of the next frame, seen from `startOfRead`. -/
theorem InvAt.maps_read (h : InvAt B F Z A C s) (len : ℕ) :
    Ring.Maps s.phys s.size.toNat s.startOfRead (endPos V B s.received) len := by
  rw [h.startOfRead]; exact Ring.maps_mod _ _ _

theorem InvAt.maps_write (h : InvAt B F Z A C s) {E : ℕ} (hE : s.sendPos = UInt64.ofNat E)
    (len : ℕ) : Ring.Maps s.phys s.size.toNat s.startOfWrite E len := by
  rw [h.startOfWrite hE]; exact Ring.maps_mod _ _ _

/-! ## The sender's steps -/

/-- Bytes, length and `validity` are staged. -/
theorem staged_fill {phys : ℕ → ℕ} {n off E : ℕ} {m : Mem} {p : List UInt8}
    (hmap : Ring.Maps phys n off E (p.length + 16)) (hp : p.length + 16 ≤ n) :
    Staged n (Mem.write phys (Mem.write phys (Mem.write phys m (off + 8) p) off
      (Bytes.le64 p.length)) (off + 8 + p.length) V) E p := by
  have hp' : Ring.Maps phys n (off + 8) (E + 8) p.length := (hmap.drop (by omega)).mono (by omega)
  have hl : Ring.Maps phys n off E (Bytes.le64 p.length).length := hmap.mono (by simp)
  have hv : Ring.Maps phys n (off + 8 + p.length) (E + 8 + p.length) V.length := by
    rw [add_assoc, add_assoc]
    exact (hmap.drop (by omega)).mono (by rw [length_trailer]; omega)
  intro i b hb
  rw [frame, List.append_assoc] at hb
  rcases Nat.lt_or_ge i 8 with hi | hi
  · -- the length
    rw [List.getElem?_append_left (by simpa using hi)] at hb
    rw [Ring.write_before hv (by omega) (by rw [length_trailer]; omega),
      Ring.write_pos hl (by rw [Bytes.length_le64]; omega) hb]
  · obtain ⟨j, rfl⟩ := Nat.exists_eq_add_of_le hi
    rw [List.getElem?_append_right (by simp), Bytes.length_le64, Nat.add_sub_cancel_left] at hb
    rw [← add_assoc]
    rcases Nat.lt_or_ge j p.length with hj | hj
    · -- the payload
      rw [List.getElem?_append_left hj] at hb
      rw [Ring.write_before hv (by omega) (by rw [length_trailer]; omega),
        Ring.write_after hl (by rw [Bytes.length_le64]; omega) (by omega),
        Ring.write_pos hp' (by omega) hb]
    · -- the trailer
      obtain ⟨k, rfl⟩ := Nat.exists_eq_add_of_le hj
      rw [List.getElem?_append_right hj, Nat.add_sub_cancel_left] at hb
      rw [← add_assoc, Ring.write_pos hv (by rw [length_trailer]; omega) hb]

/-- The staging writes stay inside the frame. -/
theorem fill_of_ne {phys : ℕ → ℕ} {off c : ℕ} {m : Mem} {p : List UInt8}
    (h : ∀ j < p.length + 16, phys (off + j) ≠ c) :
    Mem.write phys (Mem.write phys (Mem.write phys m (off + 8) p) off
      (Bytes.le64 p.length)) (off + 8 + p.length) V c = m c := by
  have htrailer : ∀ i < (trailer validity).length, phys (off + 8 + p.length + i) ≠ c := by
    intro i hi
    rw [length_trailer] at hi
    rw [add_assoc, add_assoc]
    exact h _ (by omega)
  have hsize : ∀ i < (Bytes.le64 p.length).length, phys (off + i) ≠ c := by
    intro i hi
    rw [Bytes.length_le64] at hi
    exact h i (by omega)
  have hdata : ∀ i < p.length, phys (off + 8 + i) ≠ c := by
    intro i hi
    rw [add_assoc]
    exact h _ (by omega)
  rw [Mem.write_of_ne htrailer, Mem.write_of_ne hsize, Mem.write_of_ne hdata]

/-- A message that fits the ring is staged where the next frame starts. -/
theorem staged_send {data : List UInt8} {E : ℕ} (hE : s.startOfWrite = E % s.size.toNat)
    (hadm : Admitted s (.send data)) :
    Staged s.size.toNat (send s data).conn.sendBuf E data := by
  have hlen : (lengthOf data).toNat = data.length := toNat_length hadm
  have hle : ¬ 8 + lengthOf data + 8 > s.size := not_frameSize_gt hadm
  have hmap : Ring.Maps s.phys s.size.toNat s.startOfWrite E (data.length + 16) := by
    rw [hE]; exact Ring.maps_mod _ _ _
  simp only [send, if_neg hle, bytesOf, hlen]
  exact staged_fill hmap hadm

theorem send_inv (h : InvAt B F Z A C s) (hpc : s.sendPc = .idle) {data : List UInt8}
    (hadm : Admitted s (.send data)) (hfill : FillSafe s (.send data)) :
    InvAt B F Z A C (send s data) := by
  have hs := h.send
  rw [hpc] at hs
  obtain ⟨hsent, hpos⟩ := hs
  have hlen : (lengthOf data).toNat = data.length := toNat_length hadm
  have hsize : 8 + lengthOf data + 8 = UInt64.ofNat (data.length + 16) := frameSize _
  have hle : ¬ 8 + lengthOf data + 8 > s.size := not_frameSize_gt hadm
  have hstaged := staged_send (h.startOfWrite hpos) hadm
  simp only [send, if_neg hle, bytesOf, hlen] at hstaged ⊢
  refine ⟨h.pow, ?_, h.recv, data, by rw [← hsent], hpos, hsize, hadm, hstaged⟩
  exact { h.chan with feed := h.chan.feed.congr_mem fun r hr c hc => fill_of_ne (hfill r hr c hc) }

/-- The posted write takes the staged frame along. -/
theorem writeRequest_byte (hpow : powerOfTwo s.size = true) {sent : List (List UInt8)}
    {sizeToWrite : UInt64} {p : List UInt8}
    (hp : Pending s.size.toNat B F sent s.sendPos s.conn.sendBuf sizeToWrite p) {i : ℕ}
    (hi : i < p.length + 16) :
    (frame V p)[i]? = some ((writeRequest s sizeToWrite).byte s.phys s.conn.sendBuf i) := by
  have hlen : sizeToWrite.toNat = p.length + 16 := by rw [hp.size, toNat_frameSize hp.fits]
  have hmap : Ring.Maps s.phys s.size.toNat s.startOfWrite (endPos V B F) (p.length + 16) := by
    rw [s.startOfWrite_eq hpow hp.pos]; exact Ring.maps_mod _ _ _
  have hi' : i < (frame V p).length := by rw [length_frame, length_trailer]; omega
  have hm := hp.staged i _ (List.getElem?_eq_getElem hi')
  rw [List.getElem?_eq_getElem hi', ← hm, ← hmap i hi]
  refine congrArg some (Write.byte_local (w := writeRequest s sizeToWrite) ?_ ?_).symm
  · simpa only [writeRequest, hlen] using hi
  · intro bs hbs
    simp only [writeRequest] at hbs
    split_ifs at hbs
    exact (Option.some.inj hbs).symm

/-- The posted write holds the frame. -/
theorem writeRequest_feed (h : InvAt B F Z A C s) {sizeToWrite : UInt64} {p : List UInt8}
    (hp : Pending s.size.toNat B F s.sent s.sendPos s.conn.sendBuf sizeToWrite p) :
    Feed s.phys s.size.toNat (stream V B (F ++ [p])) s.conn.sendBuf (endPos V B F)
      [.write (writeRequest s sizeToWrite)] (endPos V B (F ++ [p])) := by
  have hlen : sizeToWrite.toNat = p.length + 16 := by rw [hp.size, toNat_frameSize hp.fits]
  have hmap := h.maps_write hp.pos (p.length + 16)
  refine ⟨by simpa only [writeRequest, hlen] using hmap,
    fun _ => by simpa only [writeRequest, hlen] using hmap, ?_, ?_⟩
  · intro i hi
    simp only [writeRequest, hlen] at hi
    exact (stream_frame V (writeRequest_byte h.pow hp hi)).symm
  · rw [endPos_found]
    simp [writeRequest, hlen, Feed]

/-- A passed test of `waitUntilSendFree`. -/
theorem Pending.room {size sendPos remoteReadPos sizeToWrite : UInt64} {sent : List (List UInt8)}
    {m : Mem} {p : List UInt8} (hp : Pending size.toNat B F sent sendPos m sizeToWrite p)
    (hremote : remoteReadPos = UInt64.ofNat C) (hC : C ≤ endPos V B F)
    (hroom : endPos V B F ≤ C + size.toNat)
    (hle : ¬ sizeToWrite > size - (sendPos - remoteReadPos)) :
    endPos V B (F ++ [p]) ≤ C + size.toNat := by
  rw [hp.pos, hremote] at hle
  have hle := Pos.room hC hroom hle
  rw [hp.size, toNat_frameSize hp.fits] at hle
  rw [endPos_found]; exact hle

theorem room_of_safeToWrite (h : InvAt B F Z A C s) {sizeToWrite : UInt64} {p : List UInt8}
    (hp : Pending s.size.toNat B F s.sent s.sendPos s.conn.sendBuf sizeToWrite p)
    (hle : ¬ sizeToWrite > s.size - (s.sendPos - s.conn.remoteReadPos)) :
    endPos V B (F ++ [p]) ≤ C + s.size.toNat :=
  hp.room h.chan.remoteReadPos
    (h.chan.cached.trans (h.chan.cleared.trans (h.chan.arrived.trans h.chan.arrived_le)))
    h.chan.room hle

/-- A step of `send`. -/
inductive SendStep (s : State) : State → Prop
  | full {sizeToWrite : UInt64} (hpc : s.sendPc = .waitUntilSendFree sizeToWrite)
      (hfull : sizeToWrite > s.size - (s.sendPos - s.conn.remoteReadPos)) :
      SendStep s
        { s with
          conn := { s.conn with sq := s.conn.sq ++ [.read 42] }, sendPc := .pollRead sizeToWrite }
  | room {sizeToWrite : UInt64} (hpc : s.sendPc = .waitUntilSendFree sizeToWrite)
      (hroom : ¬ sizeToWrite > s.size - (s.sendPos - s.conn.remoteReadPos)) :
      SendStep s { s with sendPc := .post sizeToWrite }
  | polled {sizeToWrite : UInt64} (hpc : s.sendPc = .pollRead sizeToWrite)
      (hid : (pollSendCompletionQueue s.conn.cq).1 = 42) :
      SendStep s
        { s with
          conn := { s.conn with cq := (pollSendCompletionQueue s.conn.cq).2 }
          sendPc := .waitUntilSendFree sizeToWrite }
  | polling {sizeToWrite : UInt64} (hpc : s.sendPc = .pollRead sizeToWrite)
      (hid : ¬ (pollSendCompletionQueue s.conn.cq).1 = 42) :
      SendStep s
        { s with
          conn := { s.conn with cq := (pollSendCompletionQueue s.conn.cq).2 }
          sendPc := .pollRead sizeToWrite }
  | signaled {sizeToWrite : UInt64} (hpc : s.sendPc = .post sizeToWrite)
      (hsig : (writeRequest s sizeToWrite).signaled = true) :
      SendStep s
        { s with
          conn := { s.conn with sq := s.conn.sq ++ [.write (writeRequest s sizeToWrite)] }
          sendPc := .waitForCompletion .getEvent sizeToWrite }
  | unsignaled {sizeToWrite : UInt64} (hpc : s.sendPc = .post sizeToWrite)
      (hsig : ¬ (writeRequest s sizeToWrite).signaled = true) :
      SendStep s
        { s with
          conn := { s.conn with sq := s.conn.sq ++ [.write (writeRequest s sizeToWrite)] }
          sendPc := .advance sizeToWrite }
  | waiting {pc pc' : WaitPc} {cq : CompletionQueue} {sizeToWrite : UInt64}
      (hpc : s.sendPc = .waitForCompletion pc sizeToWrite)
      (hwait : waitForCompletion s.conn.cq pc = some (some pc', cq)) :
      SendStep s
        { s with
          conn := { s.conn with cq := cq }, sendPc := .waitForCompletion pc' sizeToWrite }
  | waited {pc : WaitPc} {cq : CompletionQueue} {sizeToWrite : UInt64}
      (hpc : s.sendPc = .waitForCompletion pc sizeToWrite)
      (hwait : waitForCompletion s.conn.cq pc = some (none, cq)) :
      SendStep s { s with conn := { s.conn with cq := cq }, sendPc := .advance sizeToWrite }
  | advance {sizeToWrite : UInt64} (hpc : s.sendPc = .advance sizeToWrite) :
      SendStep s
        { s with
          messageCounter := s.messageCounter + 1
          sendPos := s.sendPos + sizeToWrite
          sendPc := .idle }

theorem sendStep_cases (hs : sendStep s = some s') : SendStep s s' := by
  cases hpc : s.sendPc with
  | idle => simp only [sendStep, hpc] at hs; cases hs
  | waitUntilSendFree sizeToWrite =>
    simp only [sendStep, hpc] at hs
    split_ifs at hs with hfull
    · cases hs; exact .full hpc hfull
    · cases hs; exact .room hpc hfull
  | pollRead sizeToWrite =>
    simp only [sendStep, hpc] at hs
    cases hs
    split_ifs with hid
    · exact .polled hpc hid
    · exact .polling hpc hid
  | post sizeToWrite =>
    simp only [sendStep, hpc] at hs
    cases hs
    split_ifs with hsig
    · exact .signaled hpc hsig
    · exact .unsignaled hpc hsig
  | waitForCompletion pc sizeToWrite =>
    simp only [sendStep, hpc, Option.map_eq_some_iff] at hs
    obtain ⟨⟨_ | pc', cq⟩, hwait, rfl⟩ := hs
    · exact .waited hpc hwait
    · exact .waiting hpc hwait
  | advance sizeToWrite =>
    simp only [sendStep, hpc] at hs
    cases hs
    exact .advance hpc

theorem SendStep.eq (h : SendStep s s') : sendStep s = some s' := by
  cases h with
  | full hpc hfull => simp only [sendStep, hpc, if_pos hfull]
  | room hpc hroom => simp only [sendStep, hpc, if_neg hroom]
  | polled hpc hid => simp only [sendStep, hpc, if_pos hid]
  | polling hpc hid => simp only [sendStep, hpc, if_neg hid]
  | signaled hpc hsig => simp only [sendStep, hpc, if_pos hsig]
  | unsignaled hpc hsig => simp only [sendStep, hpc, if_neg hsig]
  | waiting hpc hwait | waited hpc hwait => simp only [sendStep, hpc, hwait, Option.map_some]
  | advance hpc => simp only [sendStep, hpc]

theorem sendStep_inv (h : InvAt B F Z A C s) (hs : sendStep s = some s') : Inv B s' := by
  have hsend := h.send
  cases sendStep_cases hs with
  | full hpc hfull =>
    rw [hpc] at hsend
    obtain ⟨p, hp⟩ := hsend
    exact ⟨F, Z, A, C, h.pow, h.chan.postRead 42, h.recv, p, hp⟩
  | room hpc hroom =>
    rw [hpc] at hsend
    obtain ⟨p, hp⟩ := hsend
    exact ⟨F, Z, A, C, h.pow, h.chan, h.recv, p, hp, room_of_safeToWrite h hp hroom⟩
  | polled hpc | polling hpc =>
    rw [hpc] at hsend
    exact ⟨F, Z, A, C, h.pow, { h.chan with }, h.recv, hsend⟩
  | signaled hpc hsig | unsignaled hpc hsig =>
    rw [hpc] at hsend
    obtain ⟨p, hp, hroom⟩ := hsend
    refine ⟨F ++ [p], Z, A, C, h.pow,
      (h.chan.extend hp.fits hroom).post (writeRequest_feed h hp) le_rfl,
      h.recv.mono (List.prefix_append _ _) le_rfl h.chan.arrived_le, hp.sent, ?_⟩
    rw [hp.pos, hp.size, Pos.ofNat_add, endPos_found]
  | waiting hpc | waited hpc =>
    rw [hpc] at hsend
    exact ⟨F, Z, A, C, h.pow, { h.chan with }, h.recv, hsend⟩
  | advance hpc =>
    rw [hpc] at hsend
    exact ⟨F, Z, A, C, h.pow, h.chan, h.recv, hsend⟩

/-! ## The receiver's steps -/

theorem recvStep_inv (h : InvAt B F Z A C s) (hs : recvStep s = some s') : Inv B s' := by
  have hrecv := h.recv
  unfold recvStep at hs
  cases hpc : s.recvPc with
  | idle | size | check => rw [hpc] at hs; cases hs
  | found limit receiveSize =>
    simp only [hpc] at hs
    rw [hpc] at hrecv
    obtain ⟨hZ, p, hp, rfl⟩ := hrecv
    split_ifs at hs with hlim
    · cases hs
      exact ⟨F, Z, A, C, h.pow, h.chan, hZ, h.send⟩
    · cases hs
      have hfits := h.chan.fits p (hp.1.subset (by simp))
      have hlen := toNat_length hfits
      rw [hlen]
      have hmap := (h.maps_read (8 + p.length)).drop (show 8 ≤ 8 + p.length by omega)
      rw [Nat.add_sub_cancel_left] at hmap
      have hbytes :=
        h.chan.payload hZ hp (Mem.length_read _ _ _ _) fun i hi => Ring.read_pos hmap hi
      exact ⟨F, Z, A, C, h.pow, h.chan, ⟨hZ, hbytes.symm ▸ hp, by rw [Mem.length_read]⟩, h.send⟩
  | clear bytes receiveSize =>
    simp only [hpc] at hs
    rw [hpc] at hrecv
    obtain ⟨hZ, hp, rfl⟩ := hrecv
    cases hs
    have hfits := h.chan.fits bytes (hp.1.subset (by simp))
    have hmap := h.maps_read (bytes.length + 16)
    rw [frameSize, toNat_frameSize hfits]
    exact ⟨F, _, A, C, h.pow, h.chan.clear hZ hp (fun i hi => Ring.fill_pos hmap hfits hi)
      (fun q hq hq' => Ring.fill_after hmap hq hq'), ⟨rfl, hp, rfl⟩, h.send⟩
  | publish bytes receiveSize =>
    simp only [hpc] at hs
    rw [hpc] at hrecv
    obtain ⟨hZ, hp, rfl⟩ := hrecv
    cases hs
    have hr : s.conn.readPos + (8 + UInt64.ofNat bytes.length + 8) =
        UInt64.ofNat (endPos V B (s.received ++ [bytes])) := by
      rw [frameSize, h.chan.readPos, Pos.ofNat_add, endPos_found]
    exact ⟨F, Z, A, C, h.pow, h.chan.publish hZ hp hr, hZ, h.send⟩

/-! ## The whole system -/

theorem SendOk.mono {n C' : ℕ} {sent : List (List UInt8)} {sendPos : UInt64} {m : Mem} {pc : SendPc}
    (h : SendOk n B F C sent sendPos m pc) (hC : C ≤ C') : SendOk n B F C' sent sendPos m pc := by
  cases pc with
  | idle | waitUntilSendFree | pollRead | waitForCompletion | advance => exact h
  | post sizeToWrite =>
    obtain ⟨p, hp, hroom⟩ := h
    exact ⟨p, hp, hroom.trans (by omega)⟩

/-- A step keeps the invariant, unless the receiver is about to take bytes of the next
    payload for its trailer. -/
theorem step_inv {a : Act} (h : InvAt B F Z A C s) (hadm : Admitted s a) (hfill : FillSafe s a)
    (hclean : ∀ is, a = .load is → TrailerClean validity F s.received s.recvPc)
    (hs : step s a = some s') : Inv B s' := by
  cases a with
  | send data =>
    simp only [step] at hs
    split at hs
    next hpc => cases hs; exact ⟨F, Z, A, C, send_inv h hpc hadm hfill⟩
    next => cases hs
  | sender => exact sendStep_inv h hs
  | receive maxSize =>
    simp only [step] at hs
    split at hs
    next hpc =>
      have hrecv := h.recv
      rw [hpc] at hrecv
      have hsize : ∀ limit, RecvOk validity B F s.received Z A (.size limit .empty) :=
        fun limit => ⟨hrecv, fun i _ b hb => by cases hb⟩
      cases hs
      cases maxSize with
      | none => exact ⟨F, Z, A, C, h.pow, h.chan, hsize none, h.send⟩
      | some maxSize =>
        simp only [receive]
        split_ifs
        · exact ⟨F, Z, A, C, h⟩
        · exact ⟨F, Z, A, C, h.pow, h.chan, hsize _, h.send⟩
    next => cases hs
  | load is =>
    simp only [step, Option.map_eq_some_iff] at hs
    obtain ⟨pc, hpoll, rfl⟩ := hs
    refine ⟨F, Z, A, C, h.pow, h.chan, ?_, h.send⟩
    refine RecvOk.poll borderFree_V zero_notMem_V h.chan (Pos.powerOfTwo_pos h.pow) ?_ h.recv
      (hclean is rfl) hpoll
    intro off i _
    rw [add_assoc, add_assoc, h.maps_read (off + i + 1) (off + i) (by omega)]
  | receiver => exact recvStep_inv h hs
  | land k =>
    simp only [step, Option.map_eq_some_iff] at hs
    obtain ⟨conn, hland, rfl⟩ := hs
    refine ⟨F, Z, A + k, C, h.pow, h.chan.land hland,
      h.recv.mono List.prefix_rfl (Nat.le_add_right _ _) h.chan.arrived_le, ?_⟩
    dsimp only
    rw [Conn.land_sendBuf hland]; exact h.send
  | complete =>
    simp only [step, Option.map_eq_some_iff] at hs
    obtain ⟨conn, hcomp, rfl⟩ := hs
    obtain ⟨C', hC, hinv⟩ := h.chan.complete hcomp
    refine ⟨F, Z, A, C', h.pow, hinv, h.recv, ?_⟩
    dsimp only
    rw [Conn.complete_sendBuf hcomp]; exact h.send.mono hC

/-- Where a request in the send queue comes from, a step later. -/
def Queued (s : State) (a : Act) (r : Request) : Prop :=
  r ∈ s.conn.sq ∨ (∃ w k, a = .land k ∧ .write w ∈ s.conn.sq ∧ r = .write (w.drop k)) ∨
    (∃ id, r = .read id) ∨
    ∃ sizeToWrite, s.sendPc = .post sizeToWrite ∧ r = .write (writeRequest s sizeToWrite)

theorem queued_land {conn : Conn} {k : ℕ} (h : s.conn.land s.phys k = some conn) :
    ∀ r ∈ conn.sq, Queued s (.land k) r := by
  obtain ⟨w, sq, hsq, -, rfl⟩ := Conn.land_cases h
  intro r hr
  rcases List.mem_cons.1 hr with rfl | hr
  · exact Or.inr (Or.inl ⟨w, k, rfl, by simp [hsq], rfl⟩)
  · exact Or.inl (by simp [hsq, hr])

theorem queued_complete {conn : Conn} {a : Act} (h : s.conn.complete = some conn) :
    ∀ r ∈ conn.sq, Queued s a r :=
  fun _ hr => Or.inl (Conn.complete_sq h hr)

theorem queued_append {a : Act} {r₀ : Request} (h : Queued s a r₀) :
    ∀ r ∈ s.conn.sq ++ [r₀], Queued s a r := by
  intro r hr
  rcases List.mem_append.1 hr with hr | hr
  · exact Or.inl hr
  · rw [List.mem_singleton] at hr; exact hr ▸ h

/-- What a step can do to the size, the list of payloads sent, the send queue and, unless
    it is the receiver's own, the position of the receiver. -/
theorem step_frame {a : Act} (hs : step s a = some s') :
    s'.size = s.size ∧ (s'.sent = s.sent ∨ ∃ data, a = .send data ∧ s'.sent = s.sent ++ [data]) ∧
      (∀ r ∈ s'.conn.sq, Queued s a r) ∧
      (s'.recvPc = s.recvPc ∨ (∃ limit, s'.recvPc = .size limit .empty) ∨ (∃ is, a = .load is) ∨
        a = .receiver) := by
  have hkeep : ∀ r ∈ s.conn.sq, Queued s a r := fun r => Or.inl
  cases a with
  | send data =>
    simp only [step] at hs
    split at hs
    next =>
      cases hs
      unfold send
      dsimp only
      split_ifs
      · exact ⟨rfl, Or.inl rfl, hkeep, Or.inl rfl⟩
      · exact ⟨rfl, Or.inr ⟨data, rfl, rfl⟩, hkeep, Or.inl rfl⟩
    next => cases hs
  | sender =>
    cases sendStep_cases hs with
    | full =>
      exact ⟨rfl, Or.inl rfl, queued_append (Or.inr (Or.inr (Or.inl ⟨_, rfl⟩))), Or.inl rfl⟩
    | signaled hpc | unsignaled hpc =>
      exact ⟨rfl, Or.inl rfl, queued_append (Or.inr (Or.inr (Or.inr ⟨_, hpc, rfl⟩))), Or.inl rfl⟩
    | room | polled | polling | waiting | waited | advance =>
      exact ⟨rfl, Or.inl rfl, hkeep, Or.inl rfl⟩
  | receive maxSize =>
    simp only [step] at hs
    split at hs
    next =>
      cases hs
      unfold receive
      split
      · split_ifs
        · exact ⟨rfl, Or.inl rfl, hkeep, Or.inl rfl⟩
        · exact ⟨rfl, Or.inl rfl, hkeep, Or.inr (Or.inl ⟨_, rfl⟩)⟩
      · exact ⟨rfl, Or.inl rfl, hkeep, Or.inr (Or.inl ⟨_, rfl⟩)⟩
    next => cases hs
  | load is =>
    simp only [step, Option.map_eq_some_iff] at hs
    obtain ⟨_, -, rfl⟩ := hs
    exact ⟨rfl, Or.inl rfl, hkeep, Or.inr (Or.inr (Or.inl ⟨is, rfl⟩))⟩
  | receiver =>
    simp only [step, recvStep] at hs
    split at hs
    next =>
      split_ifs at hs <;>
        (cases hs; exact ⟨rfl, Or.inl rfl, hkeep, Or.inr (Or.inr (Or.inr rfl))⟩)
    next => cases hs; exact ⟨rfl, Or.inl rfl, hkeep, Or.inr (Or.inr (Or.inr rfl))⟩
    next => cases hs; exact ⟨rfl, Or.inl rfl, hkeep, Or.inr (Or.inr (Or.inr rfl))⟩
    next => cases hs
  | land k =>
    simp only [step, Option.map_eq_some_iff] at hs
    obtain ⟨conn, hland, rfl⟩ := hs
    exact ⟨rfl, Or.inl rfl, queued_land hland, Or.inl rfl⟩
  | complete =>
    simp only [step, Option.map_eq_some_iff] at hs
    obtain ⟨conn, hcomp, rfl⟩ := hs
    exact ⟨rfl, Or.inl rfl, queued_complete hcomp, Or.inl rfl⟩

end

/-! ## Messages of every size -/

def InvClean (B : ℕ) (s : State) : Prop := Inv B s ∧ ∀ p ∈ s.sent, Clean V p

theorem InvClean.delivered {B : ℕ} {s : State} (h : InvClean B s) : s.received <+: s.sent := by
  obtain ⟨⟨F, Z, A, C, h⟩, -⟩ := h
  exact h.chan.prefix_.trans h.posted

theorem invClean_start {size : UInt64} (h : powerOfTwo size = true) (pos : UInt64) :
    InvClean pos.toNat (start size pos) :=
  ⟨⟨_, _, _, _, inv_start h pos⟩, fun p hp => by cases hp⟩

theorem step_invClean {B : ℕ} {s s' : State} {a : Act} (h : InvClean B s) (hadm : Admitted s a)
    (hpat : PatternFree a) (hfill : FillSafe s a) (hs : step s a = some s') : InvClean B s' := by
  obtain ⟨⟨F, Z, A, C, h⟩, hclean⟩ := h
  have hF : ∀ p ∈ F, Clean V p := fun p hp => hclean p (h.posted.subset hp)
  refine ⟨step_inv h hadm hfill (fun _ _ => h.recv.trailerClean hF) hs, ?_⟩
  rcases (step_frame hs).2.1 with hsent | ⟨data, rfl, hsent⟩
  · rw [hsent]; exact hclean
  · intro p hp
    rw [hsent] at hp
    rcases List.mem_append.1 hp with hp | hp
    · exact hclean p hp
    · rw [List.mem_singleton] at hp; exact hp ▸ clean_of_not_infix hpat

/-- **Messages of every size** arrive in order and unchanged as long as no fill of the
    staging ring replaces bytes that a posted write has yet to read. -/
theorem fifo_of_fillSafe {size : UInt64} (h : powerOfTwo size = true) (pos : UInt64)
    {acts : List Act}
    (hacts : Along step (fun s a => Admitted s a ∧ PatternFree a ∧ FillSafe s a)
      (start size pos) acts) :
    AllStates step (fun s => s.received <+: s.sent) (start size pos) acts :=
  allStates_of_along (fun _ h => InvClean.delivered h)
    (fun _ _ _ h hC hs => step_invClean h hC.1 hC.2.1 hC.2.2 hs) (invClean_start h pos) hacts

/-- A `receive` whose two loads are whole. -/
def receiveWhole : List Act :=
  [.receive none, .load (List.range 8), .load (List.range 8), .receiver, .receiver, .receiver]

/-- `send` of an empty message, the first of a connection, up to its return. -/
def sendFirst : List Act :=
  [.send [], .sender, .sender, .land 16, .complete, .sender, .sender, .sender, .sender, .sender]

/-- A large message is still unread when a small one is staged beside it. -/
def fillBeside : List Act :=
  sendFirst ++ [.send (List.replicate 497 7), .sender, .sender, .sender, .send [9], .sender,
    .sender, .sender, .land 513, .complete, .land 17, .complete] ++ receiveWhole ++ receiveWhole ++
    receiveWhole

theorem fifo_fillBeside :
    ((run step (start 4096 0) fillBeside).map fun s =>
        (s.received.map List.length, s.received[2]?)) = some ([0, 497, 1], some [9]) ∧
      AllStates step (fun s => s.received <+: s.sent) (start 4096 0) fillBeside := by
  have h : Along step (fun s a => Admitted s a ∧ PatternFree a ∧ FillSafe s a) (start 4096 0)
      fillBeside := by decide +kernel
  exact ⟨by decide +kernel, fifo_of_fillSafe (by decide) 0 h⟩

def onesBytes : List UInt8 := List.replicate 600 1

/-- The bytes of a message that would fit the ring but has to wait for space: staged, they leave
    the length of the previous frame and replace the first byte of its payload. -/
def refillBytes : List UInt8 := List.replicate 3472 0 ++ Bytes.le64 600 ++ [2]

/-- A large message is still unread when the next one is staged over it. -/
def refill : List Act :=
  sendFirst ++ [.send onesBytes, .sender, .sender, .sender, .send refillBytes, .sender,
    .land 616] ++ receiveWhole ++ receiveWhole

/-- `receive` returns bytes of the third message in place of the second. -/
theorem refill_corrupts :
    powerOfTwo 4096 = true ∧
      (∀ data, Act.send data ∈ refill → data.length + 16 ≤ 4096 ∧ ¬ V <:+: data) ∧
      ¬ AllStates step (fun s => s.received <+: s.sent) (init 4096) refill := by
  refine ⟨by decide, ?_, ?_⟩
  · intro data hd
    have hd' : data = [] ∨ data = onesBytes ∨ data = refillBytes := by
      simpa [refill, sendFirst, receiveWhole] using hd
    have hV : (0xEF : UInt8) ∈ V := by decide
    have hlen : data.length + 16 ≤ 4096 ∧ (0xEF : UInt8) ∉ data := by
      rcases hd' with rfl | rfl | rfl <;> decide +kernel
    exact ⟨hlen.1, fun hin => hlen.2 (hin.subset hV)⟩
  · intro h
    have hrun : ((run step (init 4096) refill).map fun s =>
        (s.received[1]?.bind (·[0]?), s.sent[1]?.bind (·[0]?))) = some (some 2, some 1) := by
      decide +kernel
    obtain ⟨s, hs, he⟩ := Option.map_eq_some_iff.1 hrun
    simp only [Prod.mk.injEq] at he
    obtain ⟨bytes, hb, hb0⟩ := Option.bind_eq_some_iff.1 he.1
    obtain ⟨hlt, rfl⟩ := List.getElem?_eq_some_iff.1 hb
    have hs1 := List.prefix_iff_getElem?.1 (h.last hs) 1 hlt
    rw [hs1, Option.bind_some, hb0] at he
    exact absurd he.2 (by decide)

/-! ## Inline messages -/

/-- Nothing in flight reads the staging ring, and nothing that is sent will. -/
def AllInline (s : State) : Prop :=
  (∀ r ∈ s.conn.sq, r.cells s.phys = []) ∧ ∀ p ∈ s.sent, p.length + 16 ≤ 512

theorem AllInline.fillSafe {s : State} (h : AllInline s) (a : Act) : FillSafe s a := by
  cases a with
  | send data =>
    intro r hr c hc
    rw [h.1 r hr] at hc; cases hc
  | sender | receive | load | receiver | land | complete => trivial

theorem step_allInline {B : ℕ} {s s' : State} {a : Act} (hi : Inv B s) (h : AllInline s)
    (ha : ∀ data, a = .send data → data.length + 16 ≤ 512) (hs : step s a = some s') :
    AllInline s' := by
  obtain ⟨hsize, hsent, hsq, -⟩ := step_frame hs
  have hphys : s'.phys = s.phys := by unfold State.phys; rw [hsize]
  constructor
  · intro r hr
    rw [hphys]
    rcases hsq r hr with hr | ⟨w, k, rfl, hw, rfl⟩ | ⟨id, rfl⟩ | ⟨sizeToWrite, hpc, rfl⟩
    · exact h.1 r hr
    · exact List.subset_nil.1 (h.1 _ hw ▸ Request.cells_drop _ w k)
    · rfl
    · -- the frame of a payload that was sent
      obtain ⟨F, Z, A, C, hi⟩ := hi
      have hsend := hi.send
      rw [hpc] at hsend
      obtain ⟨p, hp, -⟩ := hsend
      have hlen := h.2 p (by rw [hp.sent]; simp)
      have hin : sizeToWrite ≤ maxInlineSize := by
        rw [UInt64.le_iff_toNat_le, hp.size, toNat_frameSize hp.fits]; exact hlen
      simp [Request.cells, writeRequest, hin]
  · rcases hsent with hsent | ⟨data, rfl, hsent⟩
    · rw [hsent]; exact h.2
    · intro p hp
      rw [hsent] at hp
      rcases List.mem_append.1 hp with hp | hp
      · exact h.2 p hp
      · rw [List.mem_singleton] at hp; exact hp ▸ ha data rfl

/-- **Inline messages** arrive in order, each once and unchanged. -/
theorem fifo_inline {size : UInt64} (h : powerOfTwo size = true) (pos : UInt64) {acts : List Act}
    (hacts : ∀ data, Act.send data ∈ acts →
      data.length + 16 ≤ min size.toNat 512 ∧ ¬ V <:+: data) :
    AllStates step (fun s => s.received <+: s.sent) (start size pos) acts := by
  refine allStates_of_along
    (I := fun s => InvClean pos.toNat s ∧ AllInline s ∧ s.size = size)
    (C := fun _ a => ∀ data, a = .send data →
      data.length + 16 ≤ min size.toNat 512 ∧ ¬ V <:+: data)
    (fun _ h => h.1.delivered) ?_ ?_ (along_of_forall fun a ha _ data hd => hacts data (hd ▸ ha))
  · rintro s a s' ⟨hclean, hin, rfl⟩ ha hs
    have hadm : Admitted s a := by
      cases a with
      | send data => exact (ha data rfl).1.trans (min_le_left _ _)
      | sender | receive | load | receiver | land | complete => trivial
    have hpat : PatternFree a := by
      cases a with
      | send data => exact (ha data rfl).2
      | sender | receive | load | receiver | land | complete => trivial
    exact ⟨step_invClean hclean hadm hpat (hin.fillSafe a) hs,
      step_allInline hclean.1 hin (fun data hd => (ha data hd).1.trans (min_le_right _ _)) hs,
      (step_frame hs).1⟩
  · exact ⟨invClean_start h pos, ⟨by simp [start], by simp [start]⟩, rfl⟩

/-- A message arrives while its length is being loaded. -/
def tornReceive : List Act :=
  [.receive none, .send [1, 2], .sender, .sender, .load [0, 2], .land 5, .load [1, 3, 4], .land 13,
    .load [5, 6, 7], .load (List.range 8)] ++ receiveWhole.tail

theorem fifo_tornReceive :
    ((run step (start 4096 0) tornReceive).map (·.received)) = some [[1, 2]] ∧
      AllStates step (fun s => s.received <+: s.sent) (start 4096 0) tornReceive := by
  refine ⟨by decide +kernel, fifo_inline (by decide) 0 ?_⟩
  intro data hd
  obtain rfl : data = [1, 2] := by simpa [tornReceive, receiveWhole] using hd
  exact ⟨by decide, by decide⟩

end VirtualRDMARingBuffer

end L5RDMA
