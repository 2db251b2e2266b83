/-
  The RDMA message buffer is a FIFO queue.

  * `wraparound_covers`: the calls of `wraparound` cover the cells of a range of
    positions in order;
  * `Inv`: the messages with a place in the ring (`F`) are a stream that the
    staging ring, the send queue and the receive ring hold between them
    (`Channel.Inv`); of a message being staged, the bytes written so far are in
    place;
  * `fifo_messages`: what is received is a prefix of what was sent.
-/
import L5RDMA.RDMAMessageBuffer

namespace L5RDMA

namespace RDMAMessageBuffer

open Run Verbs Channel Frame
open Pos (lengthOf powerOfTwo)

/-- The trailer of a frame. -/
abbrev V : List UInt8 := trailer validity

theorem borderFree_V : BorderFree V := by decide

theorem zero_notMem_V : (0 : UInt8) ∉ V := by decide

/-! ## Accesses to a ring -/

/-- The parts cover, in order, the cells of the positions from `P + k` to `P + len`; their
    `prevBytes` count from `P`. -/
def Covers (n P : ℕ) : ℕ → List Part → ℕ → Prop
  | k, [], len => k = len
  | k, c :: parts, len =>
    c.prevBytes.toNat = k ∧ Ring.Maps id n c.beginPos.toNat (P + k) c.length ∧
      Covers n P (k + c.length) parts len

section
variable {n P k len : ℕ} {parts : List Part}

theorem Covers.le (h : Covers n P k parts len) : k ≤ len := by
  induction parts generalizing k with
  | nil => exact (show k = len from h).le
  | cons c parts ih => exact (Nat.le_add_right _ _).trans (ih h.2.2)

theorem wraparound_covers {size todoSize pos : UInt64} (hpow : powerOfTwo size = true)
    (htodo : todoSize.toNat ≤ size.toNat) (hpos : pos = UInt64.ofNat P) :
    Covers size.toNat P 0 (wraparound size todoSize pos) todoSize.toNat := by
  subst hpos
  have hn := Pos.powerOfTwo_pos hpow
  have hbegin := Pos.ofNat_and_mask hpow P
  have hlt : P % size.toNat < size.toNat := Nat.mod_lt _ hn
  unfold wraparound
  generalize UInt64.ofNat P &&& (size - 1) = beginPos at hbegin
  have hrest : (size - beginPos).toNat = size.toNat - P % size.toNat := by
    rw [UInt64.toNat_sub_of_le _ _ (by rw [UInt64.le_iff_toNat_le]; omega), hbegin]
  -- the cells before the end of the ring
  have hmap : ∀ l ≤ size.toNat - P % size.toNat,
      Ring.Maps id size.toNat beginPos.toNat (P + 0) l := by
    intro l hl i hi
    rw [hbegin, add_zero, ← Nat.mod_add_mod, Nat.mod_eq_of_lt (a := P % size.toNat + i) (by omega)]
    rfl
  dsimp only
  split_ifs with hfits
  · have hle : todoSize.toNat ≤ size.toNat - P % size.toNat := by
      rw [← hrest]; exact UInt64.le_iff_toNat_le.1 hfits
    have hlen : Part.length ⟨0, beginPos, beginPos + todoSize⟩ = todoSize.toNat := by
      rw [Part.length, UInt64.add_comm, UInt64.add_sub_cancel]
    refine ⟨rfl, ?_, ?_⟩
    · rw [hlen]; exact hmap _ hle
    · rw [hlen]; exact Nat.zero_add _
  · have hgt : size.toNat - P % size.toNat < todoSize.toNat := by
      rw [ge_iff_le, UInt64.le_iff_toNat_le, hrest] at hfits; omega
    have hlen₁ : Part.length ⟨0, beginPos, beginPos + (size - beginPos)⟩ =
        size.toNat - P % size.toNat := by
      rw [Part.length, UInt64.add_comm, UInt64.add_sub_cancel, hrest]
    have hlen₂ : Part.length ⟨size - beginPos, 0, 0 + (todoSize - (size - beginPos))⟩ =
        todoSize.toNat - (size.toNat - P % size.toNat) := by
      rw [Part.length, UInt64.add_comm, UInt64.add_sub_cancel,
        UInt64.toNat_sub_of_le _ _ (by rw [UInt64.le_iff_toNat_le]; omega), hrest]
    refine ⟨rfl, ?_, ?_, ?_, ?_⟩
    · rw [hlen₁]; exact hmap _ le_rfl
    · rw [hlen₁, hrest, Nat.zero_add]
    · -- the start of the ring
      intro i hi
      rw [hlen₂] at hi
      rw [hlen₁, Nat.zero_add]
      have hdiv := Nat.div_add_mod P size.toNat
      have : P + (size.toNat - P % size.toNat) + i = size.toNat * (P / size.toNat + 1) + i := by
        rw [Nat.mul_add, Nat.mul_one]; omega
      rw [this, Nat.mul_add_mod, Nat.mod_eq_of_lt (by omega)]
      exact Nat.zero_add i
    · rw [hlen₁, hlen₂, Nat.zero_add]
      exact Nat.add_sub_cancel' hgt.le

theorem Covers.mem_le (h : Covers n P k parts len) {c : Part} (hc : c ∈ parts) :
    c.prevBytes.toNat + c.length ≤ len := by
  induction parts generalizing k with
  | nil => cases hc
  | cons c' parts ih =>
    rcases List.mem_cons.1 hc with rfl | hc
    · rw [h.1]; exact h.2.2.le
    · exact ih h.2.2 hc

section
variable {m : Mem} {slice : Part → List UInt8} (hslice : ∀ c ∈ parts, (slice c).length = c.length)
include hslice

/-- The cells of earlier positions keep their bytes, -/
theorem writeParts_before (h : Covers n P k parts len) {q : ℕ} (hq : q < P + k)
    (hn : P + len ≤ q + n) : writeParts m slice parts (q % n) = m (q % n) := by
  induction parts generalizing k m with
  | nil => rfl
  | cons c parts ih =>
    have hle := h.2.2.le
    have hc := hslice c (by simp)
    rw [writeParts, ih (fun c hc => hslice c (by simp [hc])) h.2.2 (by omega),
      Ring.write_before (hc ▸ h.2.1) hq (by omega)]

/-- and so do those of later ones. -/
theorem writeParts_after (h : Covers n P k parts len) {q : ℕ} (hq : P + len ≤ q)
    (hn : q < P + k + n) : writeParts m slice parts (q % n) = m (q % n) := by
  induction parts generalizing k m with
  | nil => rfl
  | cons c parts ih =>
    have hle := h.2.2.le
    have hc := hslice c (by simp)
    rw [writeParts, ih (fun c hc => hslice c (by simp [hc])) h.2.2 (by omega),
      Ring.write_after (hc ▸ h.2.1) (by omega) hn]

theorem writeParts_pos (h : Covers n P k parts len) (hlen : len ≤ n) {g : ℕ → UInt8}
    (hg : ∀ c ∈ parts, ∀ j < c.length, (slice c)[j]? = some (g (c.prevBytes.toNat + j)))
    {i : ℕ} (hk : k ≤ i) (hi : i < len) : writeParts m slice parts ((P + i) % n) = g i := by
  induction parts generalizing k m with
  | nil => have : k = len := h; omega
  | cons c parts ih =>
    have hle := h.2.2.le
    have hc := hslice c (by simp)
    rw [writeParts]
    rcases Nat.lt_or_ge i (k + c.length) with hik | hik
    · -- written by this part, and not by a later one
      obtain ⟨j, rfl⟩ := Nat.exists_eq_add_of_le hk
      have hgj := hg c (by simp) j (by omega)
      rw [h.1] at hgj
      rw [writeParts_before (fun c hc => hslice c (by simp [hc])) h.2.2 (by omega) (by omega),
        ← add_assoc, Ring.write_pos (hc ▸ h.2.1) (by omega) hgj]
    · exact ih (fun c hc => hslice c (by simp [hc])) h.2.2 (fun c hc => hg c (by simp [hc])) hik

end

theorem length_readParts {m : Mem} (h : Covers n P k parts len) :
    (readParts m parts).length = len - k := by
  induction parts generalizing k with
  | nil => have : k = len := h; simp [readParts, this]
  | cons c parts ih =>
    have hle := h.2.2.le
    have := ih h.2.2
    simp only [readParts, List.flatMap_cons, List.length_append, Mem.length_read] at this ⊢
    omega

theorem readParts_get {m : Mem} (h : Covers n P k parts len) {i : ℕ} (hi : k + i < len) :
    (readParts m parts)[i]? = some (m ((P + (k + i)) % n)) := by
  induction parts generalizing k i with
  | nil => have : k = len := h; omega
  | cons c parts ih =>
    rw [readParts, List.flatMap_cons]
    rcases Nat.lt_or_ge i c.length with hic | hic
    · rw [List.getElem?_append_left (by simpa using hic), Ring.read_pos h.2.1 hic, add_assoc]
    · rw [List.getElem?_append_right (by simpa using hic), Mem.length_read]
      have := ih (i := i - c.length) h.2.2 (by omega)
      rwa [show k + c.length + (i - c.length) = k + i by omega] at this

end

/-! ## The invariant -/

/-- The sender is putting the frame of `p` behind the messages `F`; the bytes `done` are in
    place. -/
structure Staging (n B : ℕ) (F : List (List UInt8)) (C : ℕ) (sent : List (List UInt8))
    (sendPos : UInt64) (m : Mem) (startOfWrite sizeToWrite : UInt64) (todo : List UInt8)
    (p done : List UInt8) : Prop where
  sent : sent = F ++ [p]
  frame : Frame.frame V p = done ++ todo
  start : startOfWrite = UInt64.ofNat (endPos V B F)
  size : sizeToWrite = UInt64.ofNat (p.length + 16)
  fits : p.length + 16 ≤ n
  pos : sendPos = UInt64.ofNat (endPos V B F + done.length)
  room : endPos V B F + done.length ≤ C + n
  staged : ∀ (i : ℕ) b, done[i]? = some b → m ((endPos V B F + i) % n) = b

/-- What the sender knows when writes are posted up to `P`. -/
def SendOk (n B : ℕ) (F : List (List UInt8)) (P C : ℕ) (sent : List (List UInt8)) (sendPos : UInt64)
    (m : Mem) : SendPc → Prop
  | .idle => sent = F ∧ sendPos = UInt64.ofNat (endPos V B F) ∧ P = endPos V B F
  | .writeToSendBuffer _ startOfWrite sizeToWrite data later
  | .pollRead _ startOfWrite sizeToWrite data later => P = endPos V B F ∧ ∃ p done,
      Staging n B F C sent sendPos m startOfWrite sizeToWrite (data ++ later.flatten) p done
  | .post _ parts | .waitForCompletion _ _ parts =>
    sent = F ∧ sendPos = UInt64.ofNat (endPos V B F) ∧
      (∃ E k len, P = E + k ∧ E + len = endPos V B F ∧ Covers n E k parts len) ∧
      ∀ q, P ≤ q → q < endPos V B F → m (q % n) = stream V B F q

structure InvAt (B : ℕ) (F : List (List UInt8)) (Z A P C : ℕ) (s : State) : Prop where
  pow : powerOfTwo s.size = true
  words : 16 ≤ s.size.toNat
  chan : Channel.Inv validity id s.size.toNat B F s.received s.conn Z A P C
  recv : RecvOk validity B F s.received Z A s.recvPc
  send : SendOk s.size.toNat B F P C s.sent s.sendPos s.conn.sendBuf s.sendPc

def Inv (B : ℕ) (s : State) : Prop := ∃ F Z A P C, InvAt B F Z A P C s

theorem inv_start {size : UInt64} (hpow : powerOfTwo size = true) (h16 : 16 ≤ size.toNat)
    (pos : UInt64) : Inv pos.toNat (start size pos) :=
  have hpos : pos = UInt64.ofNat pos.toNat := UInt64.ofNat_toNat.symm
  ⟨[], _, _, _, _, hpow, h16, Channel.Inv.fresh rfl (fun _ => rfl) hpos hpos, rfl, rfl, hpos, rfl⟩

section
variable {B : ℕ} {F : List (List UInt8)} {Z A P C : ℕ} {s s' : State}

/-- Only a message that is being staged is sent and has no place in the ring yet. -/
theorem InvAt.posted (h : InvAt B F Z A P C s) : F <+: s.sent := by
  have hs := h.send
  cases hpc : s.sendPc with
  | idle | post | waitForCompletion => rw [hpc] at hs; exact hs.1 ▸ List.prefix_rfl
  | writeToSendBuffer | pollRead =>
    rw [hpc] at hs
    obtain ⟨-, p, done, hp⟩ := hs
    rw [hp.sent]; exact List.prefix_append _ _

/-! ## The sender's steps -/

theorem lengthOf_toNat {data : List UInt8} (h : data.length ≤ s.size.toNat) :
    (lengthOf data).toNat = data.length := by
  have := s.size.toNat_lt
  rw [lengthOf, Pos.ofNat_toNat, Nat.mod_eq_of_lt (by omega)]

section
variable {data : List UInt8} {Q : ℕ} (hpow : powerOfTwo s.size = true)
  (hfits : data.length ≤ s.size.toNat) (hQ : s.sendPos = UInt64.ofNat Q)
include hpow hfits hQ

theorem covers_data :
    Covers s.size.toNat Q 0 (wraparound s.size (lengthOf data) s.sendPos) data.length := by
  have h := wraparound_covers hpow ((lengthOf_toNat hfits).trans_le hfits) hQ
  rwa [lengthOf_toNat hfits] at h

theorem length_slice : ∀ c ∈ wraparound s.size (lengthOf data) s.sendPos,
    ((data.drop c.prevBytes.toNat).take c.length).length = c.length := by
  intro c hc
  have := (covers_data hpow hfits hQ).mem_le hc
  rw [List.length_take, List.length_drop]; omega

/-- `writeToSendBuffer` puts the data in the cells from `Q` on, -/
theorem writeToSendBuffer_pos {i : ℕ} {b : UInt8} (hb : data[i]? = some b) :
    writeToSendBuffer s data ((Q + i) % s.size.toNat) = b := by
  have hi := (List.getElem?_eq_some_iff.1 hb).1
  have hslice : ∀ c ∈ wraparound s.size (lengthOf data) s.sendPos, ∀ j < c.length,
      ((data.drop c.prevBytes.toNat).take c.length)[j]? =
        some (data.getD (c.prevBytes.toNat + j) 0) := by
    intro c hc j hj
    have := (covers_data hpow hfits hQ).mem_le hc
    rw [List.getElem?_take_of_lt hj, List.getElem?_drop, List.getElem?_eq_getElem (by omega),
      List.getD_eq_getElem?_getD, List.getElem?_eq_getElem (by omega)]
    rfl
  have h := writeParts_pos (m := s.conn.sendBuf) (g := fun i => data.getD i 0)
    (length_slice hpow hfits hQ) (covers_data hpow hfits hQ) hfits hslice (Nat.zero_le i) hi
  rw [writeToSendBuffer, h, List.getD_eq_getElem?_getD, hb]; rfl

/-- and does not touch the cells of earlier positions in the ring. -/
theorem writeToSendBuffer_before {q : ℕ} (hq : q < Q) (hn : Q + data.length ≤ q + s.size.toNat) :
    writeToSendBuffer s data (q % s.size.toNat) = s.conn.sendBuf (q % s.size.toNat) :=
  writeParts_before (length_slice hpow hfits hQ) (covers_data hpow hfits hQ) hq hn

end

theorem send_inv (h : InvAt B F Z A P C s) (hpc : s.sendPc = .idle) {data : List UInt8}
    (hfits : data.length + 16 ≤ s.size.toNat) (inln : Bool) :
    InvAt B F Z A P C (send s data inln) := by
  have hs := h.send
  rw [hpc] at hs
  obtain ⟨hsent, hpos, hP⟩ := hs
  have hsize : 8 + lengthOf data + 8 = UInt64.ofNat (data.length + 16) := frameSize _
  have hle : ¬ 8 + lengthOf data + 8 > s.size := not_frameSize_gt hfits
  have hlen : bytesOf (lengthOf data) = Bytes.le64 data.length := by
    rw [bytesOf, lengthOf, toNat_length hfits]
  have hroom := h.chan.room
  simp only [send, if_neg hle]
  exact ⟨h.pow, h.words, h.chan, h.recv, hP, data, [],
    { sent := by rw [hsent]
      frame := by rw [hlen]; simp [Frame.frame, bytesOf, trailer]
      start := hpos
      size := hsize
      fits := hfits
      pos := hpos
      room := hroom
      staged := fun i b hb => by cases hb }⟩

section
variable {startOfWrite sizeToWrite : UInt64} {sent : List (List UInt8)}
  {data todo p done : List UInt8}

theorem Staging.done_add_le {n : ℕ} {sendPos : UInt64} {m : Mem}
    (hst : Staging n B F C sent sendPos m startOfWrite sizeToWrite (data ++ todo) p done) :
    done.length + data.length ≤ p.length + 16 := by
  have hlen := congrArg List.length hst.frame
  rw [length_frame, length_trailer, List.length_append, List.length_append] at hlen
  omega

/-- A piece of the frame is copied behind the others. -/
theorem Staging.copy (hpow : powerOfTwo s.size = true)
    (hst : Staging s.size.toNat B F C sent s.sendPos s.conn.sendBuf startOfWrite sizeToWrite
      (data ++ todo) p done)
    (hroom : endPos V B F + done.length + data.length ≤ C + s.size.toNat) :
    Staging s.size.toNat B F C sent (s.sendPos + lengthOf data) (writeToSendBuffer s data)
      startOfWrite sizeToWrite todo p (done ++ data) := by
  have hadd := hst.done_add_le
  have hfits := hst.fits
  have hdata : data.length ≤ s.size.toNat := by omega
  refine { hst with
    frame := by rw [hst.frame, List.append_assoc]
    pos := by rw [hst.pos, lengthOf, Pos.ofNat_add, List.length_append, add_assoc]
    room := by rw [List.length_append]; omega
    staged := fun i b hb => ?_ }
  rcases Nat.lt_or_ge i done.length with hi | hi
  · rw [List.getElem?_append_left hi] at hb
    rw [writeToSendBuffer_before hpow hdata hst.pos (by omega) (by omega)]
    exact hst.staged i b hb
  · obtain ⟨j, rfl⟩ := Nat.exists_eq_add_of_le hi
    rw [List.getElem?_append_right hi, Nat.add_sub_cancel_left] at hb
    rw [← add_assoc]
    exact writeToSendBuffer_pos hpow hdata hst.pos hb

/-- After the copy of a `writeToSendBuffer` that found room. -/
theorem Staging.write (h : InvAt B F Z A P C s) (hP : P = endPos V B F)
    (hst : Staging s.size.toNat B F C s.sent s.sendPos s.conn.sendBuf startOfWrite sizeToWrite
      (data ++ todo) p done)
    (hle : ¬ lengthOf data > s.size - (s.sendPos - s.conn.remoteReadPos)) :
    Channel.Inv validity id s.size.toNat B F s.received
        { s.conn with sendBuf := writeToSendBuffer s data } Z A P C ∧
      Staging s.size.toNat B F C s.sent (s.sendPos + lengthOf data) (writeToSendBuffer s data)
        startOfWrite sizeToWrite todo p (done ++ data) := by
  have hCA : C ≤ A := h.chan.cached.trans (h.chan.cleared.trans h.chan.arrived)
  have hAE : A ≤ endPos V B F := h.chan.arrived_le
  have hadd := hst.done_add_le
  have hfits := hst.fits
  have hdata : data.length ≤ s.size.toNat := by omega
  rw [hst.pos, h.chan.remoteReadPos] at hle
  have hroom := Pos.room (by omega) hst.room hle
  rw [lengthOf_toNat hdata] at hroom
  refine ⟨h.chan.stage fun q hq hq' => ?_, hst.copy h.pow hroom⟩
  exact writeToSendBuffer_before h.pow hdata hst.pos (by omega) (by omega)

end

/-- INLINE or not, the posted write has the staged bytes. -/
theorem writeRequest_byte {c : Part} {inln : Bool} {n P i : ℕ}
    (hmap : Ring.Maps id n c.beginPos.toNat P c.length) (hi : i < c.length) :
    (writeRequest s inln c).byte id s.conn.sendBuf i = s.conn.sendBuf ((P + i) % n) := by
  unfold Write.byte
  by_cases hin : inln = true ∧ c.endPos - c.beginPos ≤ maxInlineSize
  · simp only [writeRequest, if_pos hin]
    rw [List.getD_eq_getElem?_getD, Ring.read_pos hmap hi]; rfl
  · simp only [writeRequest, if_neg hin]
    rw [hmap i hi]

/-- The write posted for a part of a staged frame. -/
theorem writeRequest_feed {c : Part} {inln : Bool} {n P : ℕ} {g : ℕ → UInt8}
    (hmap : Ring.Maps id n c.beginPos.toNat P c.length)
    (hst : ∀ i < c.length, s.conn.sendBuf ((P + i) % n) = g (P + i)) :
    Feed id n g s.conn.sendBuf P [.write (writeRequest s inln c)] (P + c.length) :=
  ⟨hmap, fun _ => hmap, fun i hi => (writeRequest_byte hmap hi).trans (hst i hi), rfl⟩

theorem sendOk_nextPart {n : ℕ} {sent : List (List UInt8)} {sendPos : UInt64} {m : Mem}
    {inln : Bool}
    {parts : List Part} (h : SendOk n B F P C sent sendPos m (.post inln parts)) :
    SendOk n B F P C sent sendPos m (nextPart inln parts) := by
  cases parts with
  | nil =>
    obtain ⟨hsent, hpos, ⟨E, k, len, hP, hE, hk⟩, -⟩ := h
    have hk : k = len := hk
    exact ⟨hsent, hpos, by omega⟩
  | cons c parts => exact h

theorem post_inv {c : Part} {parts : List Part} {inln : Bool} (h : InvAt B F Z A P C s)
    (hsend :
      SendOk s.size.toNat B F P C s.sent s.sendPos s.conn.sendBuf (.post inln (c :: parts))) :
    ∃ P', Channel.Inv validity id s.size.toNat B F s.received
        { s.conn with sq := s.conn.sq ++ [.write (writeRequest s inln c)] } Z A P' C ∧
      SendOk s.size.toNat B F P' C s.sent s.sendPos s.conn.sendBuf (.post inln parts) := by
  obtain ⟨hsent, hpos, ⟨E, k, len, rfl, hE, -, hmap, hcov⟩, hst⟩ := hsend
  have hle := hcov.le
  refine ⟨E + k + c.length, h.chan.post (writeRequest_feed hmap fun i hi => hst _ ?_ ?_) ?_,
    hsent, hpos, ⟨E, k + c.length, len, add_assoc _ _ _, hE, hcov⟩, fun q hq hq' => hst q ?_ hq'⟩
  · exact Nat.le_add_right _ _
  · omega
  · have : E + k + c.length ≤ endPos V B F := by omega
    exact this
  · omega

/-- A step of `send`. -/
inductive SendStep (s : State) : State → Prop
  | full {inln : Bool} {startOfWrite sizeToWrite : UInt64} {data : List UInt8}
      {later : List (List UInt8)}
      (hpc : s.sendPc = .writeToSendBuffer inln startOfWrite sizeToWrite data later)
      (hfull : lengthOf data > s.size - (s.sendPos - s.conn.remoteReadPos)) :
      SendStep s
        { s with
          conn := { s.conn with sq := s.conn.sq ++ [.read 42] }
          sendPc := .pollRead inln startOfWrite sizeToWrite data later }
  | copied {inln : Bool} {startOfWrite sizeToWrite : UInt64} {data data' : List UInt8}
      {later : List (List UInt8)}
      (hpc : s.sendPc = .writeToSendBuffer inln startOfWrite sizeToWrite data (data' :: later))
      (hroom : ¬ lengthOf data > s.size - (s.sendPos - s.conn.remoteReadPos)) :
      SendStep s
        { s with
          conn := { s.conn with sendBuf := writeToSendBuffer s data }
          sendPos := s.sendPos + lengthOf data
          sendPc := .writeToSendBuffer inln startOfWrite sizeToWrite data' later }
  | staged {inln : Bool} {startOfWrite sizeToWrite : UInt64} {data : List UInt8}
      (hpc : s.sendPc = .writeToSendBuffer inln startOfWrite sizeToWrite data [])
      (hroom : ¬ lengthOf data > s.size - (s.sendPos - s.conn.remoteReadPos)) :
      SendStep s
        { s with
          conn := { s.conn with sendBuf := writeToSendBuffer s data }
          sendPos := s.sendPos + lengthOf data
          sendPc := .post inln (wraparound s.size sizeToWrite startOfWrite) }
  | polled {inln : Bool} {startOfWrite sizeToWrite : UInt64} {data : List UInt8}
      {later : List (List UInt8)}
      (hpc : s.sendPc = .pollRead inln startOfWrite sizeToWrite data later)
      (hid : (pollSendCompletionQueue s.conn.cq).1 = 42) :
      SendStep s
        { s with
          conn := { s.conn with cq := (pollSendCompletionQueue s.conn.cq).2 }
          sendPc := .writeToSendBuffer inln startOfWrite sizeToWrite data later }
  | polling {inln : Bool} {startOfWrite sizeToWrite : UInt64} {data : List UInt8}
      {later : List (List UInt8)}
      (hpc : s.sendPc = .pollRead inln startOfWrite sizeToWrite data later)
      (hid : ¬ (pollSendCompletionQueue s.conn.cq).1 = 42) :
      SendStep s
        { s with
          conn := { s.conn with cq := (pollSendCompletionQueue s.conn.cq).2 }
          sendPc := .pollRead inln startOfWrite sizeToWrite data later }
  | signaled {inln : Bool} {c : Part} {parts : List Part}
      (hpc : s.sendPc = .post inln (c :: parts))
      (hsig : (writeRequest s inln c).signaled = true) :
      SendStep s
        { s with
          conn := { s.conn with sq := s.conn.sq ++ [.write (writeRequest s inln c)] }
          sendPc := .waitForCompletion .getEvent inln parts }
  | unsignaled {inln : Bool} {c : Part} {parts : List Part}
      (hpc : s.sendPc = .post inln (c :: parts))
      (hsig : ¬ (writeRequest s inln c).signaled = true) :
      SendStep s
        { s with
          conn := { s.conn with sq := s.conn.sq ++ [.write (writeRequest s inln c)] }
          messageCounter := s.messageCounter + 1
          sendPc := nextPart inln parts }
  | waiting {pc pc' : WaitPc} {cq : CompletionQueue} {inln : Bool} {parts : List Part}
      (hpc : s.sendPc = .waitForCompletion pc inln parts)
      (hwait : waitForCompletion s.conn.cq pc = some (some pc', cq)) :
      SendStep s
        { s with
          conn := { s.conn with cq := cq }, sendPc := .waitForCompletion pc' inln parts }
  | waited {pc : WaitPc} {cq : CompletionQueue} {inln : Bool} {parts : List Part}
      (hpc : s.sendPc = .waitForCompletion pc inln parts)
      (hwait : waitForCompletion s.conn.cq pc = some (none, cq)) :
      SendStep s
        { s with
          conn := { s.conn with cq := cq }
          messageCounter := s.messageCounter + 1
          sendPc := nextPart inln parts }

theorem sendStep_cases (hs : sendStep s = some s') : SendStep s s' := by
  cases hpc : s.sendPc with
  | idle => simp only [sendStep, hpc] at hs; cases hs
  | writeToSendBuffer inln startOfWrite sizeToWrite data later =>
    simp only [sendStep, hpc] at hs
    split_ifs at hs with hfull
    · cases hs; exact .full hpc hfull
    · cases hs
      cases later with
      | nil => exact .staged hpc hfull
      | cons data' later => exact .copied hpc hfull
  | pollRead inln startOfWrite sizeToWrite data later =>
    simp only [sendStep, hpc] at hs
    cases hs
    split_ifs with hid
    · exact .polled hpc hid
    · exact .polling hpc hid
  | post inln parts =>
    cases parts with
    | nil => simp only [sendStep, hpc] at hs; cases hs
    | cons c parts =>
      simp only [sendStep, hpc] at hs
      split_ifs at hs with hsig
      · cases hs; exact .signaled hpc hsig
      · cases hs; exact .unsignaled hpc hsig
  | waitForCompletion pc inln parts =>
    simp only [sendStep, hpc, Option.map_eq_some_iff] at hs
    obtain ⟨⟨_ | pc', cq⟩, hwait, rfl⟩ := hs
    · exact .waited hpc hwait
    · exact .waiting hpc hwait

theorem SendStep.eq (h : SendStep s s') : sendStep s = some s' := by
  cases h with
  | full hpc hfull => simp only [sendStep, hpc, if_pos hfull]
  | copied hpc hroom | staged hpc hroom => simp only [sendStep, hpc, if_neg hroom]
  | polled hpc hid => simp only [sendStep, hpc, if_pos hid]
  | polling hpc hid => simp only [sendStep, hpc, if_neg hid]
  | signaled hpc hsig => simp only [sendStep, hpc, if_pos hsig]
  | unsignaled hpc hsig => simp only [sendStep, hpc]; exact if_neg hsig
  | waiting hpc hwait | waited hpc hwait => simp only [sendStep, hpc, hwait, Option.map_some]

theorem sendStep_inv (h : InvAt B F Z A P C s) (hs : sendStep s = some s') : Inv B s' := by
  have hsend := h.send
  cases sendStep_cases hs with
  | full hpc =>
    rw [hpc] at hsend
    obtain ⟨hP, p, done, hst⟩ := hsend
    exact ⟨F, Z, A, P, C, h.pow, h.words, h.chan.postRead 42, h.recv, hP, p, done, hst⟩
  | @copied _ _ _ data data' later hpc hroom =>
    rw [hpc] at hsend
    obtain ⟨hP, p, done, hst⟩ := hsend
    obtain ⟨hchan, hst'⟩ := hst.write h hP hroom
    exact ⟨F, Z, A, P, C, h.pow, h.words, hchan, h.recv, hP, p, done ++ data, hst'⟩
  | @staged _ _ sizeToWrite data hpc hroom =>
    rw [hpc] at hsend
    obtain ⟨hP, p, done, hst⟩ := hsend
    obtain ⟨hchan, hst'⟩ := hst.write h hP hroom
    -- the frame is complete and gets its place in the ring
    have hframe : Frame.frame V p = done ++ data := by simpa using hst'.frame
    have hlen : (done ++ data).length = p.length + 16 := by
      rw [← hframe, length_frame, length_trailer]; omega
    have hend : endPos V B (F ++ [p]) = endPos V B F + (p.length + 16) := endPos_found p
    have hroom := hst'.room
    rw [hlen] at hroom
    have htodo : sizeToWrite.toNat = p.length + 16 := by rw [hst.size, toNat_frameSize hst.fits]
    have hcov := wraparound_covers h.pow (htodo.trans_le hst.fits) hst.start
    rw [htodo] at hcov
    refine ⟨F ++ [p], Z, A, P, C, h.pow, h.words, hchan.extend hst.fits (hend.trans_le hroom),
      h.recv.mono (List.prefix_append _ _) le_rfl h.chan.arrived_le, hst.sent, ?_,
      ⟨endPos V B F, 0, p.length + 16, hP, hend.symm, hcov⟩, ?_⟩
    · rw [hst'.pos, hlen, hend]
    · intro q hq hq'
      obtain ⟨i, rfl⟩ := Nat.exists_eq_add_of_le (hP ▸ hq)
      have hi : i < (Frame.frame V p).length := by rw [length_frame, length_trailer]; omega
      rw [stream_frame V (List.getElem?_eq_getElem hi)]
      exact hst'.staged i _ (hframe ▸ List.getElem?_eq_getElem hi)
  | polled hpc | polling hpc =>
    rw [hpc] at hsend
    exact ⟨F, Z, A, P, C, h.pow, h.words, { h.chan with }, h.recv, hsend⟩
  | signaled hpc =>
    rw [hpc] at hsend
    obtain ⟨P', hchan, hsend'⟩ := post_inv h hsend
    exact ⟨F, Z, A, P', C, h.pow, h.words, hchan, h.recv, hsend'⟩
  | unsignaled hpc =>
    rw [hpc] at hsend
    obtain ⟨P', hchan, hsend'⟩ := post_inv h hsend
    exact ⟨F, Z, A, P', C, h.pow, h.words, hchan, h.recv, sendOk_nextPart hsend'⟩
  | waiting hpc =>
    rw [hpc] at hsend
    exact ⟨F, Z, A, P, C, h.pow, h.words, { h.chan with }, h.recv, hsend⟩
  | waited hpc =>
    rw [hpc] at hsend
    exact ⟨F, Z, A, P, C, h.pow, h.words, { h.chan with }, h.recv, sendOk_nextPart hsend⟩

/-! ## The receiver's steps -/

/-- The parts of `len` bytes at offset `off` from the read position. -/
theorem InvAt.covers_read (h : InvAt B F Z A P C s) (off : ℕ) {len : UInt64}
    (hlen : len.toNat ≤ s.size.toNat) : Covers s.size.toNat (endPos V B s.received + off) 0
      (wraparound s.size len (s.conn.readPos + UInt64.ofNat off)) len.toNat :=
  wraparound_covers h.pow hlen (by rw [h.chan.readPos, Pos.ofNat_add])

theorem recvStep_inv (h : InvAt B F Z A P C s) (hs : recvStep s = some s') : Inv B s' := by
  have hrecv := h.recv
  unfold recvStep at hs
  cases hpc : s.recvPc with
  | idle | size | check => rw [hpc] at hs; cases hs
  | found limit receiveSize =>
    simp only [hpc] at hs
    rw [hpc] at hrecv
    obtain ⟨hZ, p, hp, rfl⟩ := hrecv
    split_ifs at hs with hlim
    · cases hs
      exact ⟨F, Z, A, P, C, h.pow, h.words, h.chan, hZ, h.send⟩
    · cases hs
      have hfits := h.chan.fits p (hp.1.subset (by simp))
      have hlen := toNat_length hfits
      have hcov := h.covers_read 8 (hlen.trans_le (by omega))
      rw [hlen] at hcov
      have hbytes := h.chan.payload hZ hp (length_readParts hcov) fun i hi => by
        rw [readParts_get hcov (by omega), Nat.zero_add]
      refine ⟨F, Z, A, P, C, h.pow, h.words, h.chan, ⟨hZ, ?_, ?_⟩, h.send⟩
      · rw [readFromReceiveBuffer]; exact hbytes.symm ▸ hp
      · rw [readFromReceiveBuffer]; exact hbytes.symm ▸ rfl
  | clear result receiveSize =>
    simp only [hpc] at hs
    rw [hpc] at hrecv
    obtain ⟨hZ, hp, rfl⟩ := hrecv
    cases hs
    have hfits := h.chan.fits result (hp.1.subset (by simp))
    have hlen : (8 + UInt64.ofNat result.length + 8).toNat = result.length + 16 := by
      rw [frameSize, toNat_frameSize hfits]
    have hcov := wraparound_covers h.pow (hlen.trans_le hfits) h.chan.readPos
    rw [hlen] at hcov
    refine ⟨F, _, A, P, C, h.pow, h.words, h.chan.clear hZ hp ?_ ?_,
      ⟨rfl, hp, rfl⟩, h.send⟩
    · intro i hi
      exact writeParts_pos (g := fun _ => 0) (by simp) hcov hfits
        (fun c _ j hj => by rw [List.getElem?_replicate, if_pos hj]) (Nat.zero_le i) hi
    · intro q hq hq'
      exact writeParts_after (by simp) hcov hq hq'
  | publish result receiveSize =>
    simp only [hpc] at hs
    rw [hpc] at hrecv
    obtain ⟨hZ, hp, rfl⟩ := hrecv
    cases hs
    have hr : s.conn.readPos + (8 + UInt64.ofNat result.length + 8) =
        UInt64.ofNat (endPos V B (s.received ++ [result])) := by
      rw [frameSize, h.chan.readPos, Pos.ofNat_add, endPos_found]
    exact ⟨F, Z, A, P, C, h.pow, h.words, h.chan.publish hZ hp hr, hZ, h.send⟩

/-! ## The whole system -/

theorem SendOk.mono {n C' : ℕ} {sent : List (List UInt8)} {sendPos : UInt64} {m : Mem} {pc : SendPc}
    (h : SendOk n B F P C sent sendPos m pc) (hC : C ≤ C') :
    SendOk n B F P C' sent sendPos m pc := by
  cases pc with
  | idle | post | waitForCompletion => exact h
  | writeToSendBuffer | pollRead =>
    obtain ⟨hP, p, done, hst⟩ := h
    exact ⟨hP, p, done, { hst with room := hst.room.trans (by omega) }⟩

theorem step_inv {a : Act} (h : InvAt B F Z A P C s)
    (hfits : ∀ data inln, a = .send data inln → data.length + 16 ≤ s.size.toNat)
    (hclean : ∀ p ∈ s.sent, Clean V p) (hs : step s a = some s') : Inv B s' := by
  cases a with
  | send data inln =>
    simp only [step] at hs
    split at hs
    next hpc => cases hs; exact ⟨F, Z, A, P, C, send_inv h hpc (hfits data inln rfl) inln⟩
    next => cases hs
  | sender => exact sendStep_inv h hs
  | receive maxSize =>
    simp only [step] at hs
    split at hs
    next hpc =>
      have hrecv := h.recv
      rw [hpc] at hrecv
      cases hs
      exact ⟨F, Z, A, P, C, h.pow, h.words, h.chan, ⟨hrecv, fun i _ b hb => by cases hb⟩, h.send⟩
    next => cases hs
  | load is =>
    simp only [step, Option.map_eq_some_iff] at hs
    obtain ⟨pc, hpoll, rfl⟩ := hs
    refine ⟨F, Z, A, P, C, h.pow, h.words, h.chan, ?_, h.send⟩
    refine RecvOk.poll borderFree_V zero_notMem_V h.chan (Pos.powerOfTwo_pos h.pow) ?_ h.recv
      (h.recv.trailerClean fun p hp => hclean p (h.posted.subset hp)) hpoll
    intro off i hi
    have h8 : (8 : UInt64).toNat = 8 := rfl
    have hcov := h.covers_read off (h8.trans_le (by have := h.words; omega))
    rw [List.getD_eq_getElem?_getD, readFromReceiveBuffer, readParts_get hcov (by omega),
      Nat.zero_add]
    rfl
  | receiver => exact recvStep_inv h hs
  | land k =>
    simp only [step, Option.map_eq_some_iff] at hs
    obtain ⟨conn, hland, rfl⟩ := hs
    refine ⟨F, Z, A + k, P, C, h.pow, h.words, h.chan.land hland,
      h.recv.mono List.prefix_rfl (Nat.le_add_right _ _) h.chan.arrived_le, ?_⟩
    dsimp only
    rw [Conn.land_sendBuf hland]; exact h.send
  | complete =>
    simp only [step, Option.map_eq_some_iff] at hs
    obtain ⟨conn, hcomp, rfl⟩ := hs
    obtain ⟨C', hC, hinv⟩ := h.chan.complete hcomp
    refine ⟨F, Z, A, P, C', h.pow, h.words, hinv, h.recv, ?_⟩
    dsimp only
    rw [Conn.complete_sendBuf hcomp]; exact h.send.mono hC

theorem sendStep_frame (hs : sendStep s = some s') : s'.size = s.size ∧ s'.sent = s.sent := by
  cases sendStep_cases hs <;> exact ⟨rfl, rfl⟩

/-- What a step can do to the size and the list of payloads sent. -/
theorem step_frame {a : Act} (hs : step s a = some s') :
    s'.size = s.size ∧
      (s'.sent = s.sent ∨ ∃ data inln, a = .send data inln ∧ s'.sent = s.sent ++ [data]) := by
  cases a with
  | send data inln =>
    simp only [step] at hs
    split at hs
    next =>
      cases hs
      unfold send
      dsimp only
      split_ifs
      · exact ⟨rfl, Or.inl rfl⟩
      · exact ⟨rfl, Or.inr ⟨data, inln, rfl, rfl⟩⟩
    next => cases hs
  | sender =>
    obtain ⟨hsize, hsent⟩ := sendStep_frame hs
    exact ⟨hsize, Or.inl hsent⟩
  | receive maxSize =>
    simp only [step] at hs
    split at hs
    next => cases hs; exact ⟨rfl, Or.inl rfl⟩
    next => cases hs
  | receiver =>
    simp only [step, recvStep] at hs
    split at hs
    next => split_ifs at hs <;> (cases hs; exact ⟨rfl, Or.inl rfl⟩)
    next => cases hs; exact ⟨rfl, Or.inl rfl⟩
    next => cases hs; exact ⟨rfl, Or.inl rfl⟩
    next => cases hs
  | load | land | complete =>
    simp only [step, Option.map_eq_some_iff] at hs
    obtain ⟨_, -, rfl⟩ := hs
    exact ⟨rfl, Or.inl rfl⟩

end

/-- What follows from the invariant holds in every run with payloads that fit and do not
    contain the trailer. -/
theorem allStates_of_payloads {P : State → Prop} {size : UInt64} (hpow : powerOfTwo size = true)
    (h16 : 16 ≤ size.toNat) (pos : UInt64) {acts : List Act}
    (hacts : ∀ data inln, Act.send data inln ∈ acts →
      data.length + 16 ≤ size.toNat ∧ ¬ V <:+: data) (hP : ∀ s, Inv pos.toNat s → P s) :
    AllStates step P (start size pos) acts := by
  refine allStates_of_along
    (I := fun s => Inv pos.toNat s ∧ (∀ p ∈ s.sent, Clean V p) ∧ s.size = size)
    (C := fun _ a => ∀ data inln, a = .send data inln →
      data.length + 16 ≤ size.toNat ∧ ¬ V <:+: data) (fun s h => hP s h.1) ?_ ?_
    (along_of_forall fun a ha _ data inln hd => hacts data inln (hd ▸ ha))
  · rintro s a s' ⟨⟨F, Z, A, P, C, h⟩, hclean, rfl⟩ ha hs
    obtain ⟨hsize, hsent⟩ := step_frame hs
    refine ⟨step_inv h (fun data inln hd => (ha data inln hd).1) hclean hs, ?_, hsize⟩
    rcases hsent with hsent | ⟨data, inln, rfl, hsent⟩
    · rw [hsent]; exact hclean
    · intro p hp
      rw [hsent] at hp
      rcases List.mem_append.1 hp with hp | hp
      · exact hclean p hp
      · rw [List.mem_singleton] at hp
        exact hp ▸ clean_of_not_infix (ha data inln rfl).2
  · exact ⟨inv_start hpow h16 pos, fun p hp => by (cases hp), rfl⟩

/-- **The message buffer is a FIFO queue**: the payloads returned are a prefix of those
    sent. -/
theorem fifo_messages {size : UInt64} (hpow : powerOfTwo size = true) (h16 : 16 ≤ size.toNat)
    (pos : UInt64) {acts : List Act}
    (hacts : ∀ data inln, Act.send data inln ∈ acts →
      data.length + 16 ≤ size.toNat ∧ ¬ V <:+: data) :
    AllStates step (fun s => s.received <+: s.sent) (start size pos) acts := by
  refine allStates_of_payloads hpow h16 pos hacts ?_
  rintro s ⟨F, Z, A, P, C, h⟩
  exact h.chan.prefix_.trans h.posted

/-- A frame that wraps around the end of the ring is posted as two writes and received
    while the second one arrives. -/
def wrapped : List Act :=
  [.send [1, 2] true, .sender, .sender, .sender, .sender, .land 8, .complete, .sender, .sender,
    .sender, .sender, .sender, .receive (some 2), .load (List.range 8), .land 3, .load [0, 1],
    .land 7, .load (List.range 8), .load (List.range 8), .load (List.range 8), .receiver, .receiver,
    .receiver]

theorem fifo_wrapped :
    ((run step (start 4096 4088) wrapped).map (·.received)) = some [[1, 2]] ∧
      AllStates step (fun s => s.received <+: s.sent) (start 4096 4088) wrapped := by
  refine ⟨by decide +kernel, fifo_messages (by decide) (by decide) 4088 ?_⟩
  intro data inln hd
  obtain ⟨rfl, -⟩ : data = [1, 2] ∧ inln = true := by simpa [wrapped] using hd
  exact ⟨by decide, by decide⟩

end RDMAMessageBuffer

end L5RDMA
