/-
  The three ways to put a frame into the remote ring agree.

  `RDMAMessageBuffer.send` splits the frame at the end of the ring,
  `VirtualRDMARingBuffer.send` writes through the second mapping, and
  `sendParanoid` writes the length last.  While a call is under way, what the
  ring will hold once all posted writes have landed (`Conn.settled`) is the old
  content with as much of the frame as is posted; in the end it is the old
  content with the frame at `sendPos` (`framed`), whichever of the three it was.
-/
import L5RDMA.Lib.Settled
import L5RDMA.Proof.Deadlock
import L5RDMA.Proof.SendParanoid

namespace L5RDMA

open Run Verbs Channel Frame
open Pos (lengthOf powerOfTwo)

/-! ## The frame in the ring -/

/-- The ring with the frame of `data` at position `pos`. -/
def framed (n : ℕ) (ring : Mem) (pos : ℕ) (data : List UInt8) : Mem :=
  Mem.write (· % n) ring pos (frame VirtualRDMARingBuffer.V data)

/-- `ring'` is `ring` but for the bytes of the frame of `data`, at the positions from `pos`
    on. -/
structure FrameAt (n : ℕ) (ring : Mem) (pos : ℕ) (data : List UInt8) (ring' : Mem) : Prop where
  written : ∀ i b, (frame VirtualRDMARingBuffer.V data)[i]? = some b → ring' ((pos + i) % n) = b
  kept : ∀ c, (∀ i < data.length + 16, (pos + i) % n ≠ c) → ring' c = ring c

theorem frameAt_framed {n : ℕ} (ring : Mem) (pos : ℕ) {data : List UInt8}
    (hfits : data.length + 16 ≤ n) : FrameAt n ring pos data (framed n ring pos data) := by
  have hlen : (frame VirtualRDMARingBuffer.V data).length = data.length + 16 := by
    rw [length_frame, length_trailer]; omega
  refine ⟨fun i b hb => ?_, fun c hc => Mem.write_of_ne fun i hi => hc i (hlen ▸ hi)⟩
  exact Ring.write_pos (fun _ _ => rfl) (hlen.trans_le hfits) hb

/-- The position after the frame. -/
def after (pos : UInt64) (data : List UInt8) : UInt64 := pos + UInt64.ofNat (data.length + 16)

/-- A write that has the bytes `bs` for the positions from `q` on. -/
theorem write_bytes {phys : ℕ → ℕ} {n off q : ℕ} {ring m : Mem} {w : Write} {bs : List UInt8}
    (hmap : Ring.Maps phys n off q w.length) (hlen : bs.length = w.length)
    (hbytes : ∀ i < w.length, bs[i]? = some (w.byte phys m i)) :
    Mem.write phys ring off (w.bytes phys m w.length) = Mem.write (· % n) ring q bs := by
  have hbs : bs = w.bytes phys m w.length := by
    ext1 i
    rcases Nat.lt_or_ge i w.length with hi | hi
    · rw [hbytes i hi]
      simp [Write.bytes, hi]
    · rw [List.getElem?_eq_none (by omega), List.getElem?_eq_none (by simpa using hi)]
  rw [hbs]
  exact Mem.write_congr _ fun i hi => hmap i (by simpa using hi)

/-- A write of the bytes after the first `k`. -/
theorem write_part {phys : ℕ → ℕ} {n off pos k : ℕ} {ring m : Mem} {w : Write} {bs : List UInt8}
    (hmap : Ring.Maps phys n off (pos + k) w.length) (hk : k + w.length ≤ bs.length)
    (hbytes : ∀ i < w.length, bs[k + i]? = some (w.byte phys m i)) :
    Mem.write phys (Mem.write (· % n) ring pos (bs.take k)) off (w.bytes phys m w.length) =
      Mem.write (· % n) ring pos (bs.take (k + w.length)) := by
  rw [List.take_add, Mem.write_append, List.length_take, Nat.min_eq_left (by omega)]
  refine write_bytes hmap (by rw [List.length_take, List.length_drop]; omega) fun i hi => ?_
  rw [List.getElem?_take_of_lt hi, List.getElem?_drop, hbytes i hi]

namespace VirtualRDMARingBuffer

/-- No call is under way, all that was posted has landed, and the remote ring holds `ring`. -/
structure Ready (size : UInt64) (ring : Mem) (pos : UInt64) (s : State) : Prop where
  size : s.size = size
  idle : s.sendPc = .idle
  landed : s.conn.Landed
  ring : s.conn.receiveBuf = ring
  pos : s.sendPos = pos

/-- A call of `send(data)` up to the landing of its writes. -/
def Sends (data : List UInt8) (s s' : State) : Prop :=
  ∃ acts, (∀ a ∈ acts, a.Unaided) ∧ run step s (.send data :: acts) = some s' ∧
    s'.sendPc = .idle ∧ s'.conn.Landed

/-- Where a call of `send(data)` is, in terms of what the ring will hold. -/
def Encoding (ring : Mem) (pos : UInt64) (data : List UInt8) (s : State) : Prop :=
  match s.sendPc with
  | .waitUntilSendFree sizeToWrite | .pollRead sizeToWrite | .post sizeToWrite =>
    Pending s.size.toNat pos.toNat [] [data] s.sendPos s.conn.sendBuf sizeToWrite data ∧
      s.conn.settled s.phys = ring
  | .waitForCompletion _ sizeToWrite | .advance sizeToWrite =>
    s.sendPos + sizeToWrite = after pos data ∧
      s.conn.settled s.phys = framed s.size.toNat ring pos.toNat data
  | .idle => s.sendPos = after pos data ∧
      s.conn.settled s.phys = framed s.size.toNat ring pos.toNat data

section
variable {size : UInt64} {ring : Mem} {pos : UInt64} {data : List UInt8} {s s' : State}

theorem Ready.send (h : Ready size ring pos s) (hpow : powerOfTwo size = true)
    (hfits : data.length + 16 ≤ size.toNat) : Encoding ring pos data (send s data) := by
  obtain ⟨rfl, -, hlanded, rfl, rfl⟩ := h
  have hpos : s.sendPos = UInt64.ofNat s.sendPos.toNat := UInt64.ofNat_toNat.symm
  have hlen : (lengthOf data).toNat = data.length := toNat_length hfits
  have hsize : 8 + lengthOf data + 8 = UInt64.ofNat (data.length + 16) := frameSize _
  have hle : ¬ 8 + lengthOf data + 8 > s.size := not_frameSize_gt hfits
  have hmap : Ring.Maps s.phys s.size.toNat s.startOfWrite s.sendPos.toNat (data.length + 16) := by
    rw [s.startOfWrite_eq hpow hpos]; exact Ring.maps_mod _ _ _
  simp only [VirtualRDMARingBuffer.send, if_neg hle, bytesOf, hlen]
  exact ⟨⟨rfl, hpos, hsize, hfits, staged_fill hmap hfits⟩, settle_landed hlanded _ _⟩

/-- The write of the whole frame. -/
theorem settled_writeRequest (hpow : powerOfTwo s.size = true) {sizeToWrite : UInt64}
    (hp : Pending s.size.toNat pos.toNat [] [data] s.sendPos s.conn.sendBuf sizeToWrite data) :
    Conn.settled s.phys { s.conn with sq := s.conn.sq ++ [.write (writeRequest s sizeToWrite)] } =
      framed s.size.toNat (s.conn.settled s.phys) pos.toNat data := by
  have hlen : (writeRequest s sizeToWrite).length = (frame V data).length := by
    rw [length_frame, length_trailer, show (writeRequest s sizeToWrite).length = sizeToWrite.toNat
      from rfl, hp.size, toNat_frameSize hp.fits]
    omega
  have hmap : Ring.Maps s.phys s.size.toNat s.startOfWrite pos.toNat
      (writeRequest s sizeToWrite).length := by
    rw [s.startOfWrite_eq hpow hp.pos]; exact Ring.maps_mod _ _ _
  rw [Conn.settled_post]
  refine write_bytes hmap hlen.symm fun i hi => ?_
  rw [hlen, length_frame, length_trailer] at hi
  exact writeRequest_byte hpow hp (by omega)

theorem sendStep_encoding (h : Encoding ring pos data s) (hpow : powerOfTwo s.size = true)
    (hs : sendStep s = some s') : Encoding ring pos data s' := by
  unfold Encoding at h
  cases sendStep_cases hs with
  | full hpc =>
    rw [hpc] at h
    exact ⟨h.1, (Conn.settled_read 42).trans h.2⟩
  | room hpc | polled hpc | polling hpc | waiting hpc | waited hpc | advance hpc =>
    rw [hpc] at h
    exact h
  | @signaled sizeToWrite hpc | @unsignaled sizeToWrite hpc =>
    rw [hpc] at h
    obtain ⟨hp, hring⟩ := h
    have hpos : s.sendPos + sizeToWrite = after pos data := by
      rw [hp.pos, hp.size, after, endPos_nil, UInt64.ofNat_toNat]
    have hsettled := settled_writeRequest hpow hp
    rw [hring] at hsettled
    exact ⟨hpos, hsettled⟩

/-- The network card's steps. -/
theorem Encoding.card (h : Encoding ring pos data s) {conn : Conn}
    (hset : conn.settled s.phys = s.conn.settled s.phys) (hbuf : conn.sendBuf = s.conn.sendBuf) :
    Encoding ring pos data { s with conn := conn } := by
  unfold State.phys at hset
  unfold Encoding State.phys at h ⊢
  dsimp only
  rw [hset, hbuf]
  exact h

theorem step_encoding {a : Act} (h : Encoding ring pos data s) (hpow : powerOfTwo s.size = true)
    (ha : a.Unaided) (hs : step s a = some s') : Encoding ring pos data s' ∧ s'.size = s.size := by
  refine ⟨?_, (step_frame hs).1⟩
  cases a with
  | send | receive | load | receiver => cases ha
  | sender => exact sendStep_encoding h hpow hs
  | land k =>
    simp only [step, Option.map_eq_some_iff] at hs
    obtain ⟨conn, hland, rfl⟩ := hs
    exact h.card (Conn.land_settled hland) (Conn.land_sendBuf hland)
  | complete =>
    simp only [step, Option.map_eq_some_iff] at hs
    obtain ⟨conn, hcomp, rfl⟩ := hs
    exact h.card (Conn.complete_settled hcomp) (Conn.complete_sendBuf hcomp)

/-- **What a call of `send` leaves.** -/
theorem Ready.sends (h : Ready size ring pos s) (hpow : powerOfTwo size = true)
    (hfits : data.length + 16 ≤ size.toNat) (hs : Sends data s s') :
    s'.conn.receiveBuf = framed size.toNat ring pos.toNat data ∧ s'.sendPos = after pos data := by
  obtain ⟨acts, hacts, hr, hidle, hlanded⟩ := hs
  have hsend : step s (.send data) = some (VirtualRDMARingBuffer.send s data) := by
    simp only [step, h.idle]
  rw [run_cons hsend] at hr
  have hsize : (VirtualRDMARingBuffer.send s data).size = size :=
    (step_frame hsend).1.trans h.size
  have hall : AllStates step (fun s => Encoding ring pos data s ∧ s.size = size) _ acts :=
    allStates_of_along (C := fun _ a => a.Unaided) (fun _ h => h) (fun s a s' h ha hs => by
      obtain ⟨henc, rfl⟩ := h
      exact step_encoding henc hpow ha hs)
    ⟨h.send hpow hfits, hsize⟩ (along_of_forall fun a ha _ => hacts a ha)
  obtain ⟨henc, rfl⟩ := hall.last hr
  unfold Encoding at henc
  rw [hidle] at henc
  exact ⟨hlanded.settled.symm.trans henc.2, henc.1⟩

end

end VirtualRDMARingBuffer

namespace RDMAMessageBuffer

/-- No call is under way, all that was posted has landed, and the remote ring holds `ring`. -/
structure Ready (size : UInt64) (ring : Mem) (pos : UInt64) (s : State) : Prop where
  size : s.size = size
  idle : s.sendPc = .idle
  landed : s.conn.Landed
  ring : s.conn.receiveBuf = ring
  pos : s.sendPos = pos

/-- A call of `send(data, inln)` up to the landing of its writes. -/
def Sends (data : List UInt8) (inln : Bool) (s s' : State) : Prop :=
  ∃ acts, (∀ a ∈ acts, a.Unaided) ∧ run step s (.send data inln :: acts) = some s' ∧
    s'.sendPc = .idle ∧ s'.conn.Landed

/-- The parts `parts` of the frame, after its first `k` bytes, are still to be posted. -/
def Posting (ring : Mem) (pos : UInt64) (data : List UInt8) (s : State) (parts : List Part) :
    Prop :=
  s.sendPos = after pos data ∧
    VirtualRDMARingBuffer.Staged s.size.toNat s.conn.sendBuf pos.toNat data ∧
    ∃ k, Covers s.size.toNat pos.toNat k parts (data.length + 16) ∧
      s.conn.settled id = Mem.write (· % s.size.toNat) ring pos.toNat ((frame V data).take k)

/-- Where a call of `send(data)` is, in terms of what the ring will hold. -/
def Encoding (ring : Mem) (pos : UInt64) (data : List UInt8) (s : State) : Prop :=
  match s.sendPc with
  | .writeToSendBuffer _ startOfWrite sizeToWrite bytes later
  | .pollRead _ startOfWrite sizeToWrite bytes later =>
    (∃ done, Staging s.size.toNat pos.toNat [] pos.toNat [data] s.sendPos s.conn.sendBuf
      startOfWrite sizeToWrite (bytes ++ later.flatten) data done) ∧
    s.conn.Landed ∧ s.conn.receiveBuf = ring
  | .post _ parts | .waitForCompletion _ _ parts => Posting ring pos data s parts
  | .idle => s.sendPos = after pos data ∧
      s.conn.settled id = framed s.size.toNat ring pos.toNat data

section
variable {size : UInt64} {ring : Mem} {pos : UInt64} {data : List UInt8} {s s' : State}

theorem length_frameV : (frame V data).length = data.length + 16 := by
  rw [length_frame, length_trailer]; omega

/-- All parts are posted. -/
theorem Posting.done (h : Posting ring pos data s []) : s.sendPos = after pos data ∧
    s.conn.settled id = framed s.size.toNat ring pos.toNat data := by
  obtain ⟨hpos, -, k, hcov, hset⟩ := h
  have hk : k = data.length + 16 := hcov
  rw [hk, ← length_frameV, List.take_length] at hset
  exact ⟨hpos, hset⟩

/-- The next part is posted. -/
theorem Posting.post {c : Part} {parts : List Part} (inln : Bool)
    (h : Posting ring pos data s (c :: parts)) :
    Posting ring pos data
      { s with conn := { s.conn with sq := s.conn.sq ++ [.write (writeRequest s inln c)] } }
      parts := by
  obtain ⟨hpos, hst, k, ⟨-, hmap, hcov⟩, hset⟩ := h
  have hle := hcov.le
  refine ⟨hpos, hst, k + c.length, hcov, ?_⟩
  have hlen : (writeRequest s inln c).length = c.length := rfl
  refine (Conn.settled_post _).trans ?_
  rw [hset]
  refine write_part (w := writeRequest s inln c) hmap (by rw [length_frameV]; exact hle) ?_
  intro i hi
  rw [hlen] at hi
  have hi' : k + i < (frame V data).length := by rw [length_frameV]; omega
  rw [writeRequest_byte hmap hi, List.getElem?_eq_getElem hi', add_assoc]
  exact congrArg some (hst _ _ (List.getElem?_eq_getElem hi')).symm

theorem Ready.send (h : Ready size ring pos s) (hfits : data.length + 16 ≤ size.toNat)
    (inln : Bool) : Encoding ring pos data (send s data inln) := by
  obtain ⟨rfl, -, hlanded, rfl, rfl⟩ := h
  have hpos : s.sendPos = UInt64.ofNat s.sendPos.toNat := UInt64.ofNat_toNat.symm
  have hsize : 8 + lengthOf data + 8 = UInt64.ofNat (data.length + 16) := frameSize _
  have hle : ¬ 8 + lengthOf data + 8 > s.size := not_frameSize_gt hfits
  have hlen : bytesOf (lengthOf data) = Bytes.le64 data.length := by
    rw [bytesOf, lengthOf, toNat_length hfits]
  simp only [RDMAMessageBuffer.send, if_neg hle]
  exact ⟨⟨[],
    { sent := rfl
      frame := by rw [hlen]; simp [Frame.frame, bytesOf, trailer]
      start := hpos
      size := hsize
      fits := hfits
      pos := hpos
      room := Nat.le_add_right _ _
      staged := fun i b hb => by cases hb }⟩, hlanded, rfl⟩

theorem sendStep_encoding (h : Encoding ring pos data s) (hpow : powerOfTwo s.size = true)
    (hs : sendStep s = some s') : Encoding ring pos data s' := by
  unfold Encoding at h
  cases sendStep_cases hs with
  | full hpc =>
    rw [hpc] at h
    obtain ⟨⟨done, hst⟩, hlanded, hring⟩ := h
    refine ⟨⟨done, hst⟩, fun w hw => ?_, hring⟩
    rcases List.mem_append.1 hw with hw | hw
    · exact hlanded w hw
    · simp at hw
  | @copied _ _ _ bytes bytes' later hpc =>
    rw [hpc] at h
    obtain ⟨⟨done, hst⟩, hlanded, hring⟩ := h
    have hadd := hst.done_add_le
    have hfits := hst.fits
    have hst' := hst.copy hpow (by rw [endPos_nil]; omega)
    exact ⟨⟨done ++ bytes, hst'⟩, hlanded, hring⟩
  | @staged _ _ sizeToWrite bytes hpc =>
    rw [hpc] at h
    obtain ⟨⟨done, hst⟩, hlanded, hring⟩ := h
    have hadd := hst.done_add_le
    have hfits := hst.fits
    have hst' := hst.copy hpow (by rw [endPos_nil]; omega)
    -- the frame is complete, and `wraparound` cuts it
    have hframe : Frame.frame V data = done ++ bytes := by simpa using hst'.frame
    have htodo : sizeToWrite.toNat = data.length + 16 := by
      rw [hst.size, toNat_frameSize hst.fits]
    have hcov := wraparound_covers hpow (htodo.trans_le hst.fits) hst.start
    rw [htodo] at hcov
    refine ⟨?_, fun i b hb => hst'.staged i b (hframe ▸ hb), 0, hcov, ?_⟩
    · rw [hst'.pos, ← hframe, length_frameV, endPos_nil, after, ← Pos.ofNat_add,
        UInt64.ofNat_toNat]
    · exact (settle_landed hlanded _ _).trans hring
  | polled hpc | polling hpc =>
    rw [hpc] at h
    exact h
  | signaled hpc =>
    rw [hpc] at h
    exact Posting.post _ h
  | @unsignaled inln _ parts hpc =>
    rw [hpc] at h
    have hnext := Posting.post inln h
    cases parts with
    | nil => exact hnext.done
    | cons c' parts => exact hnext
  | waiting hpc =>
    rw [hpc] at h
    exact h
  | @waited _ _ _ parts hpc =>
    rw [hpc] at h
    cases parts with
    | nil => exact Posting.done h
    | cons c' parts => exact h

/-- The network card's steps. -/
theorem Encoding.card (h : Encoding ring pos data s) {conn : Conn}
    (hset : conn.settled id = s.conn.settled id) (hbuf : conn.sendBuf = s.conn.sendBuf)
    (hland : s.conn.Landed → conn.Landed ∧ conn.receiveBuf = s.conn.receiveBuf) :
    Encoding ring pos data { s with conn := conn } := by
  unfold Encoding Posting at h ⊢
  dsimp only
  cases hpc : s.sendPc with
  | writeToSendBuffer | pollRead =>
    rw [hpc] at h
    obtain ⟨hlanded, hring⟩ := hland h.2.1
    dsimp only
    rw [hbuf]
    exact ⟨h.1, hlanded, hring.trans h.2.2⟩
  | post | waitForCompletion =>
    rw [hpc] at h
    dsimp only
    rw [hbuf, hset]
    exact h
  | idle =>
    rw [hpc] at h
    dsimp only
    rw [hset]
    exact h

theorem step_encoding {a : Act} (h : Encoding ring pos data s) (hpow : powerOfTwo s.size = true)
    (ha : a.Unaided) (hs : step s a = some s') : Encoding ring pos data s' ∧ s'.size = s.size := by
  refine ⟨?_, (step_frame hs).1⟩
  cases a with
  | send | receive | load | receiver => cases ha
  | sender => exact sendStep_encoding h hpow hs
  | land k =>
    simp only [step, Option.map_eq_some_iff] at hs
    obtain ⟨conn, hland, rfl⟩ := hs
    exact h.card (Conn.land_settled hland) (Conn.land_sendBuf hland) (Conn.land_landed hland)
  | complete =>
    simp only [step, Option.map_eq_some_iff] at hs
    obtain ⟨conn, hcomp, rfl⟩ := hs
    exact h.card (Conn.complete_settled hcomp) (Conn.complete_sendBuf hcomp)
      fun hl => ⟨Conn.complete_landed hcomp hl, Conn.complete_receiveBuf hcomp⟩

/-- **What a call of `send` leaves.** -/
theorem Ready.sends (h : Ready size ring pos s) (hpow : powerOfTwo size = true)
    (hfits : data.length + 16 ≤ size.toNat) {inln : Bool} (hs : Sends data inln s s') :
    s'.conn.receiveBuf = framed size.toNat ring pos.toNat data ∧ s'.sendPos = after pos data := by
  obtain ⟨acts, hacts, hr, hidle, hlanded⟩ := hs
  have hsend : step s (.send data inln) = some (RDMAMessageBuffer.send s data inln) := by
    simp only [step, h.idle]
  rw [run_cons hsend] at hr
  have hsize : (RDMAMessageBuffer.send s data inln).size = size :=
    (step_frame hsend).1.trans h.size
  have hall : AllStates step (fun s => Encoding ring pos data s ∧ s.size = size) _ acts :=
    allStates_of_along (C := fun _ a => a.Unaided) (fun _ h => h) (fun s a s' h ha hs => by
      obtain ⟨henc, rfl⟩ := h
      exact step_encoding henc hpow ha hs)
    ⟨h.send hfits inln, hsize⟩ (along_of_forall fun a ha _ => hacts a ha)
  obtain ⟨henc, rfl⟩ := hall.last hr
  unfold Encoding at henc
  rw [hidle] at henc
  exact ⟨hlanded.settled.symm.trans henc.2, henc.1⟩

end

end RDMAMessageBuffer

namespace VirtualRDMARingBuffer

namespace Paranoid

open Placement (Carries Partly Distinct)

/-- No call is under way, all that was posted has landed, and the remote ring holds `ring`. -/
structure Ready (size : UInt64) (ring : Mem) (pos : UInt64) (s : State) : Prop where
  size : s.ring.size = size
  idle : s.sendPc = .idle
  landed : s.ring.conn.Landed
  placed : s.placed = []
  ring : s.ring.conn.receiveBuf = ring
  pos : s.ring.sendPos = pos

/-- A step of the sender or of the network card. -/
def Act.Unaided : Act → Prop
  | .sender | .place _ | .complete => True
  | .sendParanoid _ | .receive _ | .load _ | .receiver => False

/-- A call of `sendParanoid` with `data` up to the landing of its writes. -/
def Sends (data : List UInt8) (s s' : State) : Prop :=
  ∃ acts, (∀ a ∈ acts, a.Unaided) ∧ run step s (.sendParanoid data :: acts) = some s' ∧
    s'.sendPc = .idle ∧ s'.ring.conn.Landed

/-- The call that is under way, up to the post of its length. -/
def Unposted (pos : UInt64) (data : List UInt8) (s : State) (dataSizeToWrite : UInt64) : Prop :=
  Waiting s.ring.size.toNat pos.toNat [] [data] s.ring.sendPos s.ring.conn.sendBuf
    dataSizeToWrite data

/-- Where a call of `sendParanoid` is, in terms of what the ring will hold. -/
def Encoding (ring : Mem) (pos : UInt64) (data : List UInt8) (s : State) : Prop :=
  match s.sendPc with
  | .waitUntilSendFree dataSizeToWrite | .pollRead dataSizeToWrite | .postData dataSizeToWrite =>
    Unposted pos data s dataSizeToWrite ∧ s.ring.conn.settled s.ring.phys = ring
  | .postSize dataSizeToWrite => Unposted pos data s dataSizeToWrite ∧
    s.ring.conn.settled s.ring.phys =
      Mem.write (· % s.ring.size.toNat) ring (pos.toNat + 8) (data ++ V)
  | .waitForCompletion _ dataSizeToWrite | .advance dataSizeToWrite =>
    s.ring.sendPos + (8 + dataSizeToWrite) = after pos data ∧
      s.ring.conn.settled s.ring.phys = framed s.ring.size.toNat ring pos.toNat data
  | .idle => s.ring.sendPos = after pos data ∧
    s.ring.conn.settled s.ring.phys = framed s.ring.size.toNat ring pos.toNat data

/-- Bytes have arrived in any order. -/
def PartlyOk (s : State) : Prop := Partly s.ring.phys s.ring.conn s.placed

section
variable {size : UInt64} {ring : Mem} {pos : UInt64} {data : List UInt8} {s s' : State}

theorem pending_of_landed {sq : List Request} (h : ∀ w, .write w ∈ sq → w.length = 0) :
    Placement.pending sq = [] := by
  induction sq with
  | nil => rfl
  | cons r sq ih =>
    have htail : Placement.pending sq = [] := ih fun w hw => h w (List.mem_cons_of_mem _ hw)
    cases r with
    | read id => exact htail
    | write w => rw [Placement.pending, if_pos (h w List.mem_cons_self)]; exact htail

theorem Ready.send (h : Ready size ring pos s) (hpow : powerOfTwo size = true)
    (hfits : data.length + 16 ≤ size.toNat) :
    Encoding ring pos data (sendParanoid s data) ∧ PartlyOk (sendParanoid s data) ∧
      (sendParanoid s data).ring.size = size := by
  obtain ⟨rfl, -, hlanded, hplaced, rfl, rfl⟩ := h
  have hpos : s.ring.sendPos = UInt64.ofNat s.ring.sendPos.toNat := UInt64.ofNat_toNat.symm
  have hlen : (lengthOf data).toNat = data.length := toNat_length hfits
  have hdata : lengthOf data + 8 = UInt64.ofNat (data.length + 8) := Pos.ofNat_add _ 8
  have hsize : 8 + (lengthOf data + 8) = UInt64.ofNat (data.length + 16) := by
    rw [← UInt64.add_assoc]; exact frameSize _
  have hle : ¬ 8 + (lengthOf data + 8) > s.ring.size := by
    rw [← UInt64.add_assoc]; exact not_frameSize_gt hfits
  have hmap : Ring.Maps s.ring.phys s.ring.size.toNat s.ring.startOfWrite s.ring.sendPos.toNat
      (data.length + 16) := by
    rw [s.ring.startOfWrite_eq hpow hpos]; exact Ring.maps_mod _ _ _
  have hpend := pending_of_landed hlanded
  simp only [sendParanoid, if_neg hle, bytesOf, hlen]
  refine ⟨⟨⟨⟨rfl, hpos, hsize, hfits, staged_fill hmap hfits⟩, hdata⟩,
    settle_landed hlanded _ _⟩, ⟨?_, fun _ => hplaced, ?_⟩, trivial⟩
  · intro w hw
    have hw : w ∈ Placement.pending s.ring.conn.sq := hw
    rw [hpend] at hw; cases hw
  · intro w hw
    have hw : w ∈ (Placement.pending s.ring.conn.sq).head? := hw
    rw [hpend] at hw; cases hw

/-- A write with bytes of the frame. -/
theorem settled_carries {phys : ℕ → ℕ} {n q len : ℕ} {g : ℕ → UInt8} {w : Write} {m r : Mem}
    (hc : Carries phys n g w ⟨q, len⟩) {bs : List UInt8} (hlen : bs.length = len)
    (hbs : ∀ i < len, bs[i]? = some (g (q + i))) :
    Mem.write phys r w.remoteOff (w.bytes phys m w.length) = Mem.write (· % n) r q bs := by
  have hw : w.length = len := hc.length
  refine write_bytes (hw ▸ hc.maps) (hlen.trans hw.symm) fun i hi => ?_
  rw [hw] at hi
  rw [hbs i hi]
  exact congrArg some (hc.bytes m i hi).symm

theorem distinct_of_carries {phys : ℕ → ℕ} {n q len : ℕ} {g : ℕ → UInt8} {w : Write}
    (hc : Carries phys n g w ⟨q, len⟩) (hn : len ≤ n) : Distinct phys w := by
  have hw : w.length = len := hc.length
  intro i hi j hj he
  rw [hc.maps i (hw ▸ hi), hc.maps j (hw ▸ hj)] at he
  dsimp only at he
  rcases Nat.le_total i j with hij | hij
  · have := Pos.eq_of_mod_eq he (by omega) (by omega)
    omega
  · have := Pos.eq_of_mod_eq he.symm (by omega) (by omega)
    omega

/-- The length goes in front of the payload and `validity`. -/
theorem write_size_last {n E : ℕ} (hfits : data.length + 16 ≤ n) (r : Mem) :
    Mem.write (· % n) (Mem.write (· % n) r (E + 8) (data ++ V)) E (Bytes.le64 data.length) =
      framed n r E data := by
  rw [framed, frame, List.append_assoc, Mem.write_append _ r E (Bytes.le64 _), Bytes.length_le64]
  refine Mem.write_comm r fun i hi j hj he => ?_
  rw [List.length_append, length_trailer] at hi
  rw [Bytes.length_le64] at hj
  have := Pos.eq_of_mod_eq he.symm (by omega) (by omega)
  omega

/-- The write of the payload and `validity`. -/
theorem settled_dataRequest (hpow : powerOfTwo s.ring.size = true) {dataSizeToWrite : UInt64}
    (hw : Unposted pos data s dataSizeToWrite)
    (hring : s.ring.conn.settled s.ring.phys = ring) :
    (post s.ring (dataRequest s.ring dataSizeToWrite)).conn.settled s.ring.phys =
      Mem.write (· % s.ring.size.toNat) ring (pos.toNat + 8) (data ++ V) := by
  refine (Conn.settled_post _).trans ?_
  rw [hring]
  refine settled_carries (dataRequest_carries hpow hw)
    (by rw [List.length_append, length_trailer]) fun i hi => ?_
  have hi' : i < (data ++ V).length := by rw [List.length_append, length_trailer]; omega
  have hb : (frame V data)[8 + i]? = some (data ++ V)[i] := by
    rw [frame, List.append_assoc, List.getElem?_append_right (by simp), Bytes.length_le64,
      Nat.add_sub_cancel_left, List.getElem?_eq_getElem hi']
  rw [List.getElem?_eq_getElem hi', add_assoc]
  exact congrArg some (stream_frame V hb).symm

/-- The write of the length. -/
theorem settled_sizeRequest (hpow : powerOfTwo s.ring.size = true) {dataSizeToWrite : UInt64}
    (hw : Unposted pos data s dataSizeToWrite)
    (hring : s.ring.conn.settled s.ring.phys =
      Mem.write (· % s.ring.size.toNat) ring (pos.toNat + 8) (data ++ V)) :
    (post s.ring (sizeRequest s.ring)).conn.settled s.ring.phys =
      framed s.ring.size.toNat ring pos.toNat data := by
  refine (Conn.settled_post _).trans ?_
  rw [hring, ← write_size_last hw.1.fits]
  refine settled_carries (sizeRequest_carries hpow hw) (Bytes.length_le64 _) fun i hi => ?_
  have hi' : i < (Bytes.le64 data.length).length := by rw [Bytes.length_le64]; exact hi
  have hb : (frame V data)[i]? = some (Bytes.le64 data.length)[i] := by
    rw [frame, List.append_assoc, List.getElem?_append_left hi', List.getElem?_eq_getElem hi']
  rw [List.getElem?_eq_getElem hi']
  exact congrArg some (stream_frame V hb).symm

theorem sendStep_encoding (h : Encoding ring pos data s) (hpart : PartlyOk s)
    (hpow : powerOfTwo s.ring.size = true) (hs : sendStep s = some s') :
    Encoding ring pos data s' ∧ PartlyOk s' ∧ s'.ring.size = s.ring.size := by
  unfold Encoding at h
  cases sendStep_cases hs with
  | full hpc =>
    rw [hpc] at h
    have hpend : Placement.pending (s.ring.conn.sq ++ [.read 42]) =
        Placement.pending s.ring.conn.sq := by
      rw [Placement.pending_append]; exact List.append_nil _
    refine ⟨⟨h.1, (Conn.settled_read 42).trans h.2⟩, ⟨?_, ?_, ?_⟩, rfl⟩
    · exact fun w hw => hpart.distinct w (hpend ▸ hw)
    · exact fun hnil => hpart.fresh (hpend ▸ hnil)
    · exact fun w hw => hpart.arrived w (hpend ▸ hw)
  | room hpc | polled hpc | polling hpc | waiting hpc | waited hpc | advance hpc =>
    rw [hpc] at h
    exact ⟨h, ⟨hpart.distinct, hpart.fresh, hpart.arrived⟩, rfl⟩
  | data hpc =>
    rw [hpc] at h
    obtain ⟨hw, hring⟩ := h
    have hfits := hw.1.fits
    exact ⟨⟨hw, settled_dataRequest hpow hw hring⟩,
      hpart.post (distinct_of_carries (dataRequest_carries hpow hw) (by omega)), rfl⟩
  | @signaled dataSizeToWrite hpc | @unsignaled dataSizeToWrite hpc =>
    rw [hpc] at h
    obtain ⟨hw, hring⟩ := h
    have hfits := hw.1.fits
    have hpos : s.ring.sendPos + (8 + dataSizeToWrite) = after pos data := by
      rw [hw.1.pos, hw.1.size, after, endPos_nil, UInt64.ofNat_toNat]
    exact ⟨⟨hpos, settled_sizeRequest hpow hw hring⟩,
      hpart.post (distinct_of_carries (sizeRequest_carries hpow hw) (by omega)), rfl⟩

/-- The network card's steps. -/
theorem Encoding.card (h : Encoding ring pos data s) {conn : Conn} (placed : List ℕ)
    (hset : conn.settled s.ring.phys = s.ring.conn.settled s.ring.phys)
    (hbuf : conn.sendBuf = s.ring.conn.sendBuf) :
    Encoding ring pos data { s with ring := { s.ring with conn := conn }, placed := placed } := by
  unfold State.phys at hset
  unfold Encoding Unposted State.phys at h ⊢
  dsimp only
  rw [hset, hbuf]
  exact h

theorem step_encoding {a : Act} (h : Encoding ring pos data s) (hpart : PartlyOk s)
    (hpow : powerOfTwo s.ring.size = true) (ha : a.Unaided) (hs : step s a = some s') :
    Encoding ring pos data s' ∧ PartlyOk s' ∧ s'.ring.size = s.ring.size := by
  cases a with
  | sendParanoid | receive | load | receiver => cases ha
  | sender => exact sendStep_encoding h hpart hpow hs
  | place i =>
    simp only [step, Option.map_eq_some_iff] at hs
    obtain ⟨⟨conn, placed⟩, hland, rfl⟩ := hs
    obtain ⟨hpart', hset⟩ := hpart.land hland
    refine ⟨h.card placed hset ?_, hpart', rfl⟩
    simp only [Placement.land, Option.map_eq_some_iff] at hland
    obtain ⟨_, -, he⟩ := hland
    cases he
    rfl
  | complete =>
    simp only [step, VirtualRDMARingBuffer.step, Option.map_eq_some_iff] at hs
    obtain ⟨_, ⟨conn, hcomp, rfl⟩, rfl⟩ := hs
    exact ⟨h.card s.placed (Conn.complete_settled hcomp) (Conn.complete_sendBuf hcomp),
      hpart.complete hcomp, rfl⟩

/-- **What a call of `sendParanoid` leaves.** -/
theorem Ready.sends (h : Ready size ring pos s) (hpow : powerOfTwo size = true)
    (hfits : data.length + 16 ≤ size.toNat) (hs : Sends data s s') :
    s'.ring.conn.receiveBuf = framed size.toNat ring pos.toNat data ∧
      s'.ring.sendPos = after pos data := by
  obtain ⟨acts, hacts, hr, hidle, hlanded⟩ := hs
  have hsend : step s (.sendParanoid data) = some (sendParanoid s data) := by
    simp only [step, h.idle]
  rw [run_cons hsend] at hr
  have hall : AllStates step
      (fun s => Encoding ring pos data s ∧ PartlyOk s ∧ s.ring.size = size) _ acts :=
    allStates_of_along (C := fun _ a => a.Unaided) (fun _ h => h) (fun s a s' h ha hs => by
      obtain ⟨henc, hpart, rfl⟩ := h
      exact step_encoding henc hpart hpow ha hs)
    (h.send hpow hfits) (along_of_forall fun a ha _ => hacts a ha)
  obtain ⟨henc, -, rfl⟩ := hall.last hr
  unfold Encoding at henc
  rw [hidle] at henc
  exact ⟨hlanded.settled.symm.trans henc.2, henc.1⟩

end

end Paranoid

end VirtualRDMARingBuffer

/-- **The three encoders agree**: whatever the remote ring holds and wherever `sendPos` is, each
    of them puts the frame at the positions from `sendPos` on and nothing anywhere else, and
    moves `sendPos` by its length. -/
theorem encoders_agree {size : UInt64} (hpow : powerOfTwo size = true) (ring : Mem) (pos : UInt64)
    {data : List UInt8} (hfits : data.length + 16 ≤ size.toNat) :
    ∃ ring', FrameAt size.toNat ring pos.toNat data ring' ∧
      (∀ s s' inln, RDMAMessageBuffer.Ready size ring pos s →
        RDMAMessageBuffer.Sends data inln s s' →
        s'.conn.receiveBuf = ring' ∧ s'.sendPos = after pos data) ∧
      (∀ s s', VirtualRDMARingBuffer.Ready size ring pos s →
        VirtualRDMARingBuffer.Sends data s s' →
        s'.conn.receiveBuf = ring' ∧ s'.sendPos = after pos data) ∧
      ∀ s s', VirtualRDMARingBuffer.Paranoid.Ready size ring pos s →
        VirtualRDMARingBuffer.Paranoid.Sends data s s' →
        s'.ring.conn.receiveBuf = ring' ∧ s'.ring.sendPos = after pos data :=
  ⟨framed size.toNat ring pos.toNat data, frameAt_framed ring pos.toNat hfits,
    fun _ _ _ h hs => h.sends hpow hfits hs, fun _ _ h hs => h.sends hpow hfits hs,
    fun _ _ h hs => h.sends hpow hfits hs⟩

/-- A ring of old bytes, with `sendPos` eight bytes before its end. -/
def VirtualRDMARingBuffer.inUse : VirtualRDMARingBuffer.State :=
  let s := start 4096 0xFFFFFFFFFFFFFFF8
  { s with messageCounter := 1, conn := { s.conn with receiveBuf := fun _ => 5 } }

def RDMAMessageBuffer.inUse : RDMAMessageBuffer.State :=
  let s := start 4096 0xFFFFFFFFFFFFFFF8
  { s with messageCounter := 1, conn := { s.conn with receiveBuf := fun _ => 5 } }

/-- A frame of 18 bytes wraps around the end, and the bytes of `sendParanoid` arrive back to
    front. -/
theorem encoders_agree_wrapped :
    ∃ s₁ s₂ s₃, RDMAMessageBuffer.Sends [1, 2] true RDMAMessageBuffer.inUse s₁ ∧
      VirtualRDMARingBuffer.Sends [1, 2] VirtualRDMARingBuffer.inUse s₂ ∧
      VirtualRDMARingBuffer.Paranoid.Sends [1, 2] ⟨VirtualRDMARingBuffer.inUse, .idle, []⟩ s₃ ∧
      s₁.conn.receiveBuf = s₂.conn.receiveBuf ∧
      s₂.conn.receiveBuf = s₃.ring.conn.receiveBuf ∧ s₃.ring.sendPos = 10 := by
  obtain ⟨ring', -, h₁, h₂, h₃⟩ := encoders_agree (show powerOfTwo 4096 = true by decide)
    (fun _ => 5) 0xFFFFFFFFFFFFFFF8 (show [1, 2].length + 16 ≤ (4096 : UInt64).toNat by decide)
  have hnil : ∀ {c : Conn}, c.sq = [] → c.Landed := fun hc w hw => by rw [hc] at hw; cases hw
  have hs₁ : RDMAMessageBuffer.Sends [1, 2] true RDMAMessageBuffer.inUse _ :=
    ⟨[.sender, .sender, .sender, .sender, .sender, .land 8, .complete, .land 10, .complete],
      by simp [RDMAMessageBuffer.Act.Unaided], rfl, rfl, hnil rfl⟩
  have hs₂ : VirtualRDMARingBuffer.Sends [1, 2] VirtualRDMARingBuffer.inUse _ :=
    ⟨[.sender, .sender, .sender, .land 18, .complete],
      by simp [VirtualRDMARingBuffer.Act.Unaided], rfl, rfl, hnil rfl⟩
  have hs₃ : VirtualRDMARingBuffer.Paranoid.Sends [1, 2]
      ⟨VirtualRDMARingBuffer.inUse, .idle, []⟩ _ :=
    ⟨[.sender, .sender, .place 9, .place 8, .place 7, .place 6, .place 5, .place 4, .place 3,
        .place 2, .place 1, .place 0, .sender, .sender, .place 7, .place 6, .place 5, .place 4,
        .place 3, .place 2, .place 1, .place 0, .complete, .complete],
      by simp [VirtualRDMARingBuffer.Paranoid.Act.Unaided], rfl, rfl, hnil rfl⟩
  have he₁ := h₁ _ _ _ ⟨rfl, rfl, hnil rfl, rfl, rfl⟩ hs₁
  have he₂ := h₂ _ _ ⟨rfl, rfl, hnil rfl, rfl, rfl⟩ hs₂
  have he₃ := h₃ _ _ ⟨rfl, rfl, hnil rfl, rfl, rfl, rfl⟩ hs₃
  exact ⟨_, _, _, hs₁, hs₂, hs₃, he₁.1.trans he₂.1.symm, he₂.1.trans he₃.1.symm,
    he₃.2.trans (by decide)⟩

end L5RDMA
