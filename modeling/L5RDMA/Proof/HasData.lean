/-
  What `hasData` of the message buffer says.

  It looks once at the length and at the trailer where it points.  A length of
  which some bytes are missing points too near, but then nothing that follows
  has arrived, and the ring is zero there.

  `hasData_exact`: it returns true exactly when the next frame is complete, and
  then `receive` returns the payload without polling again.
  `unread_reachable`: between two calls of `receive`, the ring of a connection
  is as `hasData_exact` supposes.
-/
import L5RDMA.Proof.RDMAMessageBuffer

namespace L5RDMA

namespace RDMAMessageBuffer

open Run Verbs Channel Frame
open Pos (powerOfTwo)

/-- Of the frames of `p` and the `later` messages, which begin at the read position, the first
    `k` bytes have arrived; the ring is zero elsewhere. -/
structure Unread (s : State) (p : List UInt8) (later : List (List UInt8)) (k : ℕ) : Prop where
  pow : powerOfTwo s.size = true
  fits : p.length + 16 ≤ s.size.toNat
  arrived : ∀ i < s.size.toNat,
    s.conn.receiveBuf ((s.conn.readPos.toNat + i) % s.size.toNat) =
      Frame.arrived ((p :: later).flatMap (frame V)) k i

/-- One pass of the polling loop, and the rest of the call. -/
def receiveOnce (limit : Option UInt64) : List Act :=
  [.receive limit, .load (List.range 8), .load (List.range 8), .receiver, .receiver, .receiver]

section
variable {s : State} {p : List UInt8} {later : List (List UInt8)} {k : ℕ}

/-- What is read from the ring. -/
theorem Unread.read (h : Unread s p later k) (off len : ℕ) (hlen : off + len ≤ s.size.toNat) :
    readFromReceiveBuffer s (s.conn.readPos + UInt64.ofNat off) (UInt64.ofNat len) =
      (List.range len).map fun i =>
        Frame.arrived (frame V p ++ later.flatMap (frame V)) k (off + i) := by
  have hlt := s.size.toNat_lt
  have hlen' : (UInt64.ofNat len).toNat = len := by
    rw [Pos.ofNat_toNat, Nat.mod_eq_of_lt (by omega)]
  have hpos : s.conn.readPos + UInt64.ofNat off = UInt64.ofNat (s.conn.readPos.toNat + off) := by
    rw [← Pos.ofNat_add, UInt64.ofNat_toNat]
  have hcov := wraparound_covers h.pow (hlen'.trans_le (by omega)) hpos
  rw [hlen'] at hcov
  ext i : 1
  rcases Nat.lt_or_ge i len with hi | hi
  · rw [readFromReceiveBuffer, readParts_get hcov (by omega), Nat.zero_add, List.getElem?_map,
      List.getElem?_range hi, Nat.add_assoc, h.arrived _ (by omega), List.flatMap_cons]
    rfl
  · rw [List.getElem?_eq_none, List.getElem?_eq_none]
    · simpa using hi
    · rw [readFromReceiveBuffer, length_readParts hcov]
      exact hi

theorem Unread.length_lt (h : Unread s p later k) : p.length < 2 ^ 64 := by
  have hfits := h.fits
  have hlt := s.size.toNat_lt
  omega

theorem Unread.readSize (h : Unread s p later k) : readFromReceiveBuffer s s.conn.readPos 8 =
    (List.range 8).map (Frame.arrived (frame V p ++ later.flatMap (frame V)) k) := by
  have hfits := h.fits
  have hread := h.read 0 8 (by omega)
  simp only [Nat.zero_add] at hread
  rw [show s.conn.readPos + UInt64.ofNat 0 = s.conn.readPos from UInt64.add_zero _] at hread
  exact hread

section
variable {receiveSize : UInt64}
  (hsize : receiveSize = UInt64.ofNat (Bytes.ofLE (readFromReceiveBuffer s s.conn.readPos 8)))
include hsize

theorem Unread.size_toNat (h : Unread s p later k) : receiveSize.toNat = Bytes.ofLE
    ((List.range 8).map (Frame.arrived (frame V p ++ later.flatMap (frame V)) k)) := by
  rw [hsize, h.readSize, ofLE_toNat (by simp)]

theorem Unread.readTrailer (h : Unread s p later k) :
    readFromReceiveBuffer s (s.conn.readPos + UInt64.ofNat (8 + receiveSize.toNat)) 8 =
      (List.range 8).map fun i =>
        Frame.arrived (frame V p ++ later.flatMap (frame V)) k (8 + receiveSize.toNat + i) := by
  have hfits := h.fits
  have hle : receiveSize.toNat ≤ p.length := by
    rw [h.size_toNat hsize]
    exact masked_arrived.ofLE_le
  exact h.read _ 8 (by omega)

/-- The trailer is where the length points only if all has arrived. -/
theorem Unread.trailer_iff (h : Unread s p later k) :
    readFromReceiveBuffer s (s.conn.readPos + UInt64.ofNat (8 + receiveSize.toNat)) 8 = V ↔
      p.length + 16 ≤ k := by
  rw [h.readTrailer hsize]
  have hiff := snapshot_iff (V := V) (by decide) zero_notMem_V h.length_lt (h.size_toNat hsize)
  rw [length_trailer] at hiff
  rw [hiff]
  omega

theorem Unread.size_eq (h : Unread s p later k) (hk : p.length + 16 ≤ k) :
    receiveSize = UInt64.ofNat p.length := by
  rw [← UInt64.toNat_inj, h.size_toNat hsize, map_arrived_length (by omega),
    Bytes.ofLE_le64 h.length_lt, Pos.ofNat_toNat, Nat.mod_eq_of_lt h.length_lt]

end

theorem Unread.hasData_iff (h : Unread s p later k) : hasData s = true ↔ p.length + 16 ≤ k := by
  rw [← h.trailer_iff rfl, hasData, decide_eq_true_iff]
  have hpos : ∀ n : UInt64, s.conn.readPos + 8 + n =
      s.conn.readPos + UInt64.ofNat (8 + n.toNat) := by
    intro n
    rw [← Pos.ofNat_add, UInt64.ofNat_toNat, UInt64.add_assoc]
    rfl
  rw [hpos]
  exact word_eq_iff (by rw [h.readTrailer rfl]; simp)

/-! ## The call of `receive` -/

/-- A whole load. -/
theorem load_whole {bs : List UInt8} (hl : bs.length = 8) :
    (List.range 8).map (fun i => (Load.empty i).getD (bs.getD i 0)) = bs := by
  ext i : 1
  rcases Nat.lt_or_ge i 8 with hi | hi
  · rw [List.getElem?_map, List.getElem?_range hi, List.getElem?_eq_getElem (hl.symm ▸ hi)]
    simp [Load.empty, hl, hi]
  · rw [List.getElem?_eq_none (by simpa using hi), List.getElem?_eq_none (hl.trans_le hi)]

theorem step_loadSize {limit : Option UInt64} (hpc : s.recvPc = .size limit .empty)
    (hl : (readFromReceiveBuffer s s.conn.readPos 8).length = 8) :
    step s (.load (List.range 8)) = some { s with
      recvPc := .check limit
        (UInt64.ofNat (Bytes.ofLE (readFromReceiveBuffer s s.conn.readPos 8))) .empty } := by
  have hpos : s.conn.readPos + UInt64.ofNat 0 = s.conn.readPos := UInt64.add_zero _
  simp only [step, hpc, poll, Load.word_take_range, hpos, load_whole hl, Option.map_some]

theorem step_loadTrailer {limit : Option UInt64} {receiveSize : UInt64}
    (hpc : s.recvPc = .check limit receiveSize .empty)
    (hV : readFromReceiveBuffer s (s.conn.readPos + UInt64.ofNat (8 + receiveSize.toNat)) 8 = V) :
    step s (.load (List.range 8)) =
      some { s with recvPc := .found limit receiveSize } := by
  have hword : UInt64.ofNat (Bytes.ofLE V) = validity := (word_eq_iff (length_trailer _)).2 rfl
  simp only [step, hpc, poll, Load.word_take_range, hV, load_whole (length_trailer validity), hword,
    if_true, Option.map_some]

/-- The loop is left after its first pass, -/
theorem Unread.run_poll (h : Unread s p later k) (hk : p.length + 16 ≤ k)
    (hpc : s.recvPc = .idle) (limit : Option UInt64) :
    run step s [.receive limit, .load (List.range 8), .load (List.range 8)] =
      some { s with recvPc := .found limit (UInt64.ofNat p.length) } := by
  have hsize := h.size_eq rfl hk
  have htrailer := (h.trailer_iff rfl).2 hk
  rw [hsize] at htrailer
  have h₁ : step s (.receive limit) = some { s with recvPc := .size limit .empty } := by
    simp only [step, hpc]
  have h₂ : step { s with recvPc := .size limit .empty } (.load (List.range 8)) =
      some { s with recvPc := .check limit (UInt64.ofNat p.length) .empty } := by
    have hl : (readFromReceiveBuffer s s.conn.readPos 8).length = 8 := by
      rw [h.readSize]
      simp
    rw [← hsize]
    exact step_loadSize rfl hl
  have h₃ : step { s with recvPc := .check limit (UInt64.ofNat p.length) .empty }
      (.load (List.range 8)) = some { s with recvPc := .found limit (UInt64.ofNat p.length) } :=
    step_loadTrailer rfl htrailer
  rw [run_cons h₁, run_cons h₂, run_cons h₃]
  rfl

/-- and what it has found is the payload. -/
theorem Unread.payload (h : Unread s p later k) (hk : p.length + 16 ≤ k) :
    readFromReceiveBuffer s (s.conn.readPos + 8) (UInt64.ofNat p.length) = p := by
  have hfits := h.fits
  have hread := h.read 8 p.length (by omega)
  refine hread.trans (map_arrived _ _ _ (by omega) fun i hi => ?_)
  exact frame_payload hi

theorem Unread.run_receive (h : Unread s p later k) (hk : p.length + 16 ≤ k)
    (hpc : s.recvPc = .idle) {limit : Option UInt64}
    (hlimit : ∀ maxSize ∈ limit, p.length ≤ maxSize.toNat) :
    ∃ s', run step s (receiveOnce limit) = some s' ∧ s'.recvPc = .idle ∧
      s'.received = s.received ++ [p] ∧
      s'.conn.readPos = s.conn.readPos + (8 + UInt64.ofNat p.length + 8) := by
  have hfits : ¬ ∃ maxSize ∈ limit, UInt64.ofNat p.length > maxSize := by
    rintro ⟨maxSize, hm, hgt⟩
    have hle := hlimit maxSize hm
    rw [gt_iff_lt, UInt64.lt_iff_toNat_lt, Pos.ofNat_toNat, Nat.mod_eq_of_lt h.length_lt] at hgt
    omega
  rw [receiveOnce, show ([.receive limit, .load (List.range 8), .load (List.range 8), .receiver,
    .receiver, .receiver] : List Act) = [.receive limit, .load (List.range 8),
      .load (List.range 8)] ++ [.receiver, .receiver, .receiver] from rfl,
    run_append (h.run_poll hk hpc limit)]
  simp only [run, step, recvStep, if_neg hfits]
  refine ⟨_, rfl, rfl, ?_, rfl⟩
  exact congrArg (fun bs => s.received ++ [bs]) (h.payload hk)

/-- **`hasData` is exact.** -/
theorem hasData_exact (h : Unread s p later k) :
    (hasData s = true ↔ p.length + 16 ≤ k) ∧
      (hasData s = true → s.recvPc = .idle → ∀ limit,
        (∀ maxSize ∈ limit, p.length ≤ maxSize.toNat) →
          ∃ s', run step s (receiveOnce limit) = some s' ∧ s'.recvPc = .idle ∧
            s'.received = s.received ++ [p]) := by
  refine ⟨h.hasData_iff, fun hd hpc limit hlimit => ?_⟩
  obtain ⟨s', hr, hpc', hreceived, -⟩ := h.run_receive (h.hasData_iff.1 hd) hpc hlimit
  exact ⟨s', hr, hpc', hreceived⟩

end

/-- A payload that is itself the trailer, in a ring where its frame wraps around. -/
def arriving (k : ℕ) : State :=
  let s := start 4096 4088
  { s with conn := { s.conn with
      receiveBuf := fun c => Frame.arrived ([V].flatMap (frame V)) k ((c + 8) % 4096) } }

theorem unread_arriving (k : ℕ) : Unread (arriving k) V [] k where
  pow := show powerOfTwo 4096 = true by decide
  fits := show V.length + 16 ≤ 4096 by decide
  arrived := by
    intro i hi
    have hi : i < 4096 := hi
    show Frame.arrived _ k (((4088 + i) % 4096 + 8) % 4096) = _
    rw [show ((4088 + i) % 4096 + 8) % 4096 = i by omega]

/-- The last byte is missing. -/
theorem hasData_arriving :
    (hasData (arriving 23) = true ↔ V.length + 16 ≤ 23) ∧
      (hasData (arriving 23) = true → (arriving 23).recvPc = .idle → ∀ limit,
        (∀ maxSize ∈ limit, V.length ≤ maxSize.toNat) →
          ∃ s', run step (arriving 23) (receiveOnce limit) = some s' ∧ s'.recvPc = .idle ∧
            s'.received = (arriving 23).received ++ [V]) :=
  hasData_exact (unread_arriving 23)

example : hasData (arriving 23) = false ∧ hasData (arriving 24) = true := by decide

/-! ## In a run of the system -/

section
variable {B : ℕ} {F : List (List UInt8)} {Z A P C : ℕ} {s : State}

/-- The stream from the message after those of `G` on. -/
theorem stream_endPos (B : ℕ) (G T : List (List UInt8)) (i : ℕ) :
    stream V B (G ++ T) (endPos V B G + i) = (T.flatMap (frame V)).getD i 0 := by
  rw [stream, endPos, List.flatMap_append,
    show B + (G.flatMap (frame V)).length + i - B = (G.flatMap (frame V)).length + i by omega,
    List.getD_append_right _ _ _ _ (Nat.le_add_right _ _), Nat.add_sub_cancel_left]

/-- Between two calls the receiver is in front of the next frame. -/
theorem InvAt.unread (h : InvAt B F Z A P C s) (hpc : s.recvPc = .idle) :
    ∃ p later k, Unread s p later k := by
  have hZ := h.recv
  rw [hpc] at hZ
  obtain rfl : Z = endPos V B s.received := hZ
  obtain ⟨T, rfl⟩ := h.chan.prefix_
  have hcell : ∀ i, (s.conn.readPos.toNat + i) % s.size.toNat =
      (endPos V B s.received + i) % s.size.toNat := by
    intro i
    obtain ⟨j, hj, hn⟩ := Pos.powerOfTwo_spec h.pow
    rw [h.chan.readPos, Pos.ofNat_toNat, ← Nat.mod_add_mod, hn,
      Nat.mod_mod_of_dvd _ (Nat.pow_dvd_pow 2 hj.le), Nat.mod_add_mod]
  have hring : ∀ i < s.size.toNat,
      s.conn.receiveBuf ((s.conn.readPos.toNat + i) % s.size.toNat) =
        Frame.arrived (T.flatMap (frame V)) (A - endPos V B s.received) i := by
    intro i hi
    rw [hcell, h.chan.window _ (Nat.le_add_right _ _) (by omega), Frame.arrived, stream_endPos]
    exact if_congr (by omega) rfl rfl
  cases T with
  | nil =>
    refine ⟨[], [], 0, h.pow, h.words, fun i hi => ?_⟩
    rw [hring i hi, Frame.arrived, Frame.arrived]
    simp
  | cons p later => exact ⟨p, later, _, h.pow, h.chan.fits p (by simp), hring⟩

end

/-- **Every state between two calls of `receive`** is one that `hasData` is exact in. -/
theorem unread_reachable {size : UInt64} (hpow : powerOfTwo size = true) (h16 : 16 ≤ size.toNat)
    (pos : UInt64) {acts : List Act}
    (hacts : ∀ data inln, Act.send data inln ∈ acts →
      data.length + 16 ≤ size.toNat ∧ ¬ V <:+: data) :
    AllStates step (fun s => s.recvPc = .idle → ∃ p later k, Unread s p later k)
      (start size pos) acts := by
  refine allStates_of_payloads hpow h16 pos hacts ?_
  rintro s ⟨F, Z, A, P, C, h⟩ hpc
  exact h.unread hpc

end RDMAMessageBuffer

end L5RDMA
