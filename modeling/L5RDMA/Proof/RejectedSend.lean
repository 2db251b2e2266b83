/-
  A `send` that is rejected.

  The payload is copied to the staging ring before its length is checked.  A
  payload that is too long may so replace bytes of frames that the network
  card has yet to read, or leave the mapping, before `send` throws; and a length
  whose sum with the header and the trailer wraps around passes the check.

  `send_changesNothing_iff`: of a payload that does not fit, `send` changes
  nothing exactly if none of this happens.  `cells_subset_openCells`: the frames
  concerned are those that the send queue holds.
-/
import L5RDMA.Proof.FlowControl

namespace L5RDMA

namespace VirtualRDMARingBuffer

open Run Verbs Channel
open Pos (lengthOf powerOfTwo)

/-! ## Frames in flight -/

/-- The writes of a send queue. -/
def writes : List Request → ℕ
  | [] => 0
  | .write _ :: sq => writes sq + 1
  | .read _ :: sq => writes sq

/-- The bytes of the frames of some payloads, with the sum of each as `send` computes it. -/
def frameBytes : List (List UInt8) → ℕ
  | [] => 0
  | p :: ps => (8 + lengthOf p + 8).toNat + frameBytes ps

namespace State
variable (s : State)

/-- Where the next frame is posted. -/
def postPos : UInt64 :=
  match s.sendPc with
  | .waitForCompletion _ sizeToWrite | .advance sizeToWrite => s.sendPos + sizeToWrite
  | _ => s.sendPos

/-- The payloads whose frames are posted but whose writes have not completed: as many as there
    are writes in the send queue. -/
def openSends : List (List UInt8) := s.posted.drop (s.posted.length - writes s.conn.sq)

/-- The cells of their frames, which lie one behind the other. -/
def openCells : List ℕ :=
  (List.range (frameBytes s.openSends)).map fun j =>
    ((s.postPos - UInt64.ofNat (j + 1)) &&& s.bitmask).toNat

end State

/-- `send` throws, and leaves everything as it was. -/
structure ChangesNothing (s : State) (data : List UInt8) : Prop where
  throws : (send s data).sendPc = .idle
  sendPos : (send s data).sendPos = s.sendPos
  messageCounter : (send s data).messageCounter = s.messageCounter
  remoteRing : (send s data).conn.receiveBuf = s.conn.receiveBuf
  frames : ∀ c ∈ s.openCells, (send s data).conn.sendBuf c = s.conn.sendBuf c
  /-- all bytes are written to the doubled mapping -/
  mapping : ∀ j < data.length, s.startOfWrite + 8 + j < 2 * s.size.toNat

/-- The sum that is checked does not wrap around, the payload ends in the mapping, and of the
    bytes it puts into cells of frames in flight, the last of each is the one already there. -/
structure Harmless (s : State) (data : List UInt8) : Prop where
  sum : data.length + 16 < 2 ^ 64
  end_le : data ≠ [] → s.startOfWrite + 8 + data.length ≤ 2 * s.size.toNat
  same : ∀ j b, data[j]? = some b → data.length ≤ j + s.size.toNat →
    s.phys (s.startOfWrite + 8 + j) ∈ s.openCells →
      s.conn.sendBuf (s.phys (s.startOfWrite + 8 + j)) = b

section
variable {s s' : State} {data : List UInt8}

theorem send_of_throws (h : 8 + lengthOf data + 8 > s.size) :
    send s data = { s with conn := { s.conn with
      sendBuf := Mem.write s.phys s.conn.sendBuf (s.startOfWrite + 8) data } } := by
  unfold send
  exact if_pos h

theorem send_throws_iff (hidle : s.sendPc = .idle) :
    (send s data).sendPc = .idle ↔ s.size.toNat < (data.length + 16) % 2 ^ 64 := by
  have hcheck : 8 + lengthOf data + 8 > s.size ↔ s.size.toNat < (data.length + 16) % 2 ^ 64 :=
    frameSize_gt_iff _ _
  by_cases h : 8 + lengthOf data + 8 > s.size
  · rw [send_of_throws h]
    exact iff_of_true hidle (hcheck.1 h)
  · refine iff_of_false ?_ fun hlt => h (hcheck.2 hlt)
    unfold send
    simp [h]

/-- What `send` does to the staging ring before it throws. -/
theorem sendBuf_eq_iff (hpow : powerOfTwo s.size = true) (h : 8 + lengthOf data + 8 > s.size)
    {c : ℕ} : (send s data).conn.sendBuf c = s.conn.sendBuf c ↔
      ∀ j b, data[j]? = some b → data.length ≤ j + s.size.toNat →
        s.phys (s.startOfWrite + 8 + j) = c → s.conn.sendBuf c = b := by
  rw [send_of_throws h]
  have hmap : Ring.Maps s.phys s.size.toNat (s.startOfWrite + 8) (s.startOfWrite + 8) data.length :=
    fun _ _ => rfl
  exact Ring.write_eq_iff hmap (Pos.powerOfTwo_pos hpow)

theorem changesNothing_iff_harmless (hpow : powerOfTwo s.size = true) (hidle : s.sendPc = .idle)
    (hbig : s.size.toNat < data.length + 16) : ChangesNothing s data ↔ Harmless s data := by
  have hthrows : (send s data).sendPc = .idle ↔ _ := send_throws_iff hidle
  have hcheck : s.size.toNat < (data.length + 16) % 2 ^ 64 → 8 + lengthOf data + 8 > s.size :=
    (frameSize_gt_iff _ _).2
  constructor
  · intro h
    have hlt := hthrows.1 h.throws
    have hend : data ≠ [] → s.startOfWrite + 8 + data.length ≤ 2 * s.size.toNat := by
      intro hne
      have hpos := List.length_pos_iff.2 hne
      have := h.mapping (data.length - 1) (by omega)
      omega
    refine ⟨?_, hend, ?_⟩
    · -- in the mapping of the largest ring a sum that wraps around passes the check
      by_contra hwrap
      have hne : data ≠ [] := by
        rintro rfl
        simp at hwrap
      have hle := hend hne
      obtain ⟨k, hk, hsize⟩ := Pos.powerOfTwo_spec hpow
      have hmax : 2 ^ k ≤ 2 ^ 63 := Nat.pow_le_pow_right (by norm_num) (by omega)
      have : (data.length + 16) % 2 ^ 64 = data.length + 16 - 2 ^ 64 := by
        rw [Nat.mod_eq_sub_mod (by omega), Nat.mod_eq_of_lt (by omega)]
      omega
    · intro j b hb hj hc
      exact (sendBuf_eq_iff hpow (hcheck hlt)).1 (h.frames _ hc) j b hb hj rfl
  · intro h
    have hlt : s.size.toNat < (data.length + 16) % 2 ^ 64 := by
      rw [Nat.mod_eq_of_lt h.sum]; exact hbig
    have hgt := hcheck hlt
    have hsend := send_of_throws hgt
    refine ⟨hthrows.2 hlt, by rw [hsend], by rw [hsend], by rw [hsend], ?_, ?_⟩
    · intro c hc
      rw [sendBuf_eq_iff hpow hgt]
      rintro j b hb hj rfl
      exact h.same j b hb hj hc
    · intro j hj
      have := h.end_le (List.ne_nil_of_length_pos (by omega))
      omega

end

/-! ## The frames in the send queue -/

/-- A sum of 64 bits is the same position of a ring. -/
theorem toNat_add_mod {n : UInt64} (hpow : powerOfTwo n = true) (a b : UInt64) (i : ℕ) :
    ((a + b).toNat + i) % n.toNat = (a.toNat + b.toNat + i) % n.toNat := by
  obtain ⟨k, hk, hn⟩ := Pos.powerOfTwo_spec hpow
  have hdvd : n.toNat ∣ 2 ^ 64 := hn ▸ Nat.pow_dvd_pow 2 hk.le
  rw [UInt64.toNat_add, Nat.add_mod, Nat.mod_mod_of_dvd _ hdvd, ← Nat.add_mod]

/-- The writes of the send queue are what is left of the frames of `ps`, which reach from
    position `A` to `P`. -/
def Holds (mask : UInt64) : UInt64 → List Request → List (List UInt8) → UInt64 → Prop
  | A, [], ps, P => ps = [] ∧ A = P
  | A, .read _ :: sq, ps, P => Holds mask A sq ps P
  | _, .write _ :: _, [], _ => False
  | A, .write w :: sq, p :: ps, P =>
    (∃ k, w.localOff = (A &&& mask).toNat + k ∧ k + w.length = (8 + lengthOf p + 8).toNat) ∧
      Holds mask (A + (8 + lengthOf p + 8)) sq ps P

namespace Holds
variable {mask A P : UInt64} {sq : List Request} {ps : List (List UInt8)}

theorem writes_eq (h : Holds mask A sq ps P) : writes sq = ps.length := by
  induction sq generalizing A ps with
  | nil => rw [h.1]; rfl
  | cons r sq ih =>
    cases r with
    | read id => exact ih h
    | write w =>
      cases ps with
      | nil => exact h.elim
      | cons p ps => rw [writes, ih h.2, List.length_cons]

theorem end_eq (h : Holds mask A sq ps P) : P = A + UInt64.ofNat (frameBytes ps) := by
  induction sq generalizing A ps with
  | nil => obtain ⟨rfl, rfl⟩ := h; exact (UInt64.add_zero A).symm
  | cons r sq ih =>
    cases r with
    | read id => exact ih h
    | write w =>
      cases ps with
      | nil => exact h.elim
      | cons p ps =>
        rw [ih h.2, frameBytes, UInt64.ofNat_add, UInt64.ofNat_toNat, UInt64.add_assoc]

theorem read (h : Holds mask A sq ps P) (id : UInt64) : Holds mask A (sq ++ [.read id]) ps P := by
  induction sq generalizing A ps with
  | nil => exact h
  | cons r sq ih =>
    cases r with
    | read id' => exact ih h
    | write w =>
      cases ps with
      | nil => exact h.elim
      | cons p ps => exact ⟨h.1, ih h.2⟩

theorem write (h : Holds mask A sq ps P) {w : Write} {p : List UInt8}
    (hoff : w.localOff = (P &&& mask).toNat) (hlen : w.length = (8 + lengthOf p + 8).toNat) :
    Holds mask A (sq ++ [.write w]) (ps ++ [p]) (P + (8 + lengthOf p + 8)) := by
  induction sq generalizing A ps with
  | nil =>
    obtain ⟨rfl, rfl⟩ := h
    exact ⟨⟨0, hoff, by rw [zero_add, hlen]⟩, rfl, rfl⟩
  | cons r sq ih =>
    cases r with
    | read id => exact ih h
    | write w' =>
      cases ps with
      | nil => exact h.elim
      | cons p' ps => exact ⟨h.1, ih h.2⟩

theorem drop {w : Write} {k : ℕ} (h : Holds mask A (.write w :: sq) ps P) (hk : k ≤ w.length) :
    Holds mask A (.write (w.drop k) :: sq) ps P := by
  cases ps with
  | nil => exact h.elim
  | cons p ps =>
    obtain ⟨⟨j, hoff, hlen⟩, h⟩ := h
    refine ⟨⟨j + k, ?_, ?_⟩, h⟩
    · simp only [Write.drop]; omega
    · simp only [Write.drop]; omega

/-- A queued write reads cells of one of the frames. -/
theorem cells {size : UInt64} (hpow : powerOfTwo size = true)
    (h : Holds (size - 1) A sq ps P) : ∀ r ∈ sq, ∀ c ∈ r.cells (· % size.toNat),
      ∃ i < frameBytes ps, c = (A.toNat + i) % size.toNat := by
  induction sq generalizing A ps with
  | nil => intro r hr; cases hr
  | cons r₀ sq ih =>
    cases r₀ with
    | read id =>
      intro r hr c hc
      rcases List.mem_cons.1 hr with rfl | hr
      · cases hc
      · exact ih h r hr c hc
    | write w =>
      cases ps with
      | nil => exact h.elim
      | cons p ps =>
        obtain ⟨⟨k, hoff, hlen⟩, h⟩ := h
        intro r hr c hc
        rcases List.mem_cons.1 hr with rfl | hr
        · cases hin : w.inlined with
          | some bs => simp [Request.cells, hin] at hc
          | none =>
            simp only [Request.cells, hin, List.mem_map, List.mem_range] at hc
            obtain ⟨i, hi, rfl⟩ := hc
            have hmask := Pos.ofNat_and_mask hpow A.toNat
            rw [UInt64.ofNat_toNat] at hmask
            refine ⟨k + i, by rw [frameBytes]; omega, ?_⟩
            rw [hoff, hmask, add_assoc, Nat.mod_add_mod]
        · obtain ⟨i, hi, rfl⟩ := ih h r hr c hc
          refine ⟨(8 + lengthOf p + 8).toNat + i, by rw [frameBytes]; omega, ?_⟩
          rw [toNat_add_mod hpow, add_assoc]

end Holds

/-- What is in the send queue, and the payload that is next. -/
structure QueueOk (s : State) : Prop where
  queue : ∃ A ps, ps <:+ s.posted ∧ Holds s.bitmask A s.conn.sq ps s.postPos
  next :
    match s.sendPc with
    | .waitUntilSendFree sizeToWrite | .pollRead sizeToWrite | .post sizeToWrite =>
      ∃ ps p, s.sent = ps ++ [p] ∧ sizeToWrite = 8 + lengthOf p + 8
    | _ => True

section
variable {s s' : State}

theorem queueOk_start (size pos : UInt64) : QueueOk (start size pos) :=
  ⟨⟨pos, [], List.suffix_rfl, rfl, rfl⟩, trivial⟩

/-- A step that leaves the sender alone. -/
theorem QueueOk.frame (h : QueueOk s) (hsize : s'.size = s.size) (hpc : s'.sendPc = s.sendPc)
    (hsent : s'.sent = s.sent) (hpos : s'.sendPos = s.sendPos)
    (hsq : ∀ A ps P, ps <:+ s.posted → Holds s.bitmask A s.conn.sq ps P →
      ∃ A' ps', ps' <:+ s.posted ∧ Holds s.bitmask A' s'.conn.sq ps' P) : QueueOk s' := by
  obtain ⟨⟨A, ps, hps, hq⟩, hnext⟩ := h
  have hposted : s'.posted = s.posted := by unfold State.posted; rw [hpc, hsent]
  have hpost : s'.postPos = s.postPos := by unfold State.postPos; rw [hpc, hpos]
  have hmask : s'.bitmask = s.bitmask := by unfold State.bitmask; rw [hsize]
  refine ⟨?_, by rw [hpc, hsent]; exact hnext⟩
  rw [hposted, hpost, hmask]
  exact hsq A ps _ hps hq

theorem send_queueOk (h : QueueOk s) (hidle : s.sendPc = .idle) (data : List UInt8) :
    QueueOk (send s data) := by
  by_cases hthrows : 8 + lengthOf data + 8 > s.size
  · rw [send_of_throws hthrows]
    exact h.frame rfl rfl rfl rfl fun A ps _ hps hq => ⟨A, ps, hps, hq⟩
  · obtain ⟨⟨A, ps, hps, hq⟩, -⟩ := h
    unfold send
    dsimp only
    rw [if_neg hthrows]
    refine ⟨⟨A, ps, ?_, ?_⟩, s.sent, data, rfl, rfl⟩
    · simpa [State.posted, hidle] using hps
    · simpa [State.postPos, State.bitmask, hidle] using hq

theorem sendStep_queueOk (h : QueueOk s) (hs : sendStep s = some s') : QueueOk s' := by
  obtain ⟨⟨A, ps, hps, hq⟩, hnext⟩ := h
  cases sendStep_cases hs with
  | full hpc =>
    simp only [hpc] at hnext
    simp only [State.posted, State.postPos, hpc] at hps hq
    exact ⟨⟨A, ps, hps, hq.read 42⟩, hnext⟩
  | room hpc | polled hpc | polling hpc =>
    simp only [hpc] at hnext
    simp only [State.posted, State.postPos, hpc] at hps hq
    exact ⟨⟨A, ps, hps, hq⟩, hnext⟩
  | signaled hpc | unsignaled hpc =>
    simp only [hpc] at hnext
    simp only [State.posted, State.postPos, hpc] at hps hq
    obtain ⟨posted, p, hsent, rfl⟩ := hnext
    rw [hsent, List.dropLast_concat] at hps
    have hpost : ps ++ [p] <:+ s.sent := by
      obtain ⟨l, rfl⟩ := hps
      exact ⟨l, by rw [hsent, List.append_assoc]⟩
    have hwrite := hq.write (w := writeRequest s (8 + lengthOf p + 8)) (p := p) rfl rfl
    exact ⟨⟨A, ps ++ [p], hpost, hwrite⟩, trivial⟩
  | waiting hpc | waited hpc | advance hpc =>
    simp only [State.posted, State.postPos, hpc] at hps hq
    exact ⟨⟨A, ps, hps, hq⟩, trivial⟩

theorem land_queueOk (h : QueueOk s) {conn : Conn} {k : ℕ}
    (hland : s.conn.land s.phys k = some conn) : QueueOk { s with conn := conn } := by
  obtain ⟨w, sq, hsq, hk, rfl⟩ := Conn.land_cases hland
  refine h.frame rfl rfl rfl rfl fun A ps P hps hq => ⟨A, ps, hps, ?_⟩
  rw [hsq] at hq
  exact hq.drop hk

theorem complete_queueOk (h : QueueOk s) {conn : Conn} (hcomp : s.conn.complete = some conn) :
    QueueOk { s with conn := conn } := by
  obtain ⟨w, sq, hsq, -, rfl⟩ | ⟨id, sq, hsq, rfl⟩ := Conn.complete_cases hcomp
  · refine h.frame rfl rfl rfl rfl fun A ps P hps hq => ?_
    rw [hsq] at hq
    cases ps with
    | nil => exact hq.elim
    | cons p ps => exact ⟨_, ps, (List.suffix_cons p ps).trans hps, hq.2⟩
  · refine h.frame rfl rfl rfl rfl fun A ps P hps hq => ⟨A, ps, hps, ?_⟩
    rw [hsq] at hq
    exact hq

theorem step_queueOk {a : Act} (h : QueueOk s) (hs : step s a = some s') : QueueOk s' := by
  have hkeep : ∀ A ps P, ps <:+ s.posted → Holds s.bitmask A s.conn.sq ps P →
      ∃ A' ps', ps' <:+ s.posted ∧ Holds s.bitmask A' s.conn.sq ps' P :=
    fun A ps _ hps hq => ⟨A, ps, hps, hq⟩
  cases a with
  | send data =>
    simp only [step] at hs
    split at hs
    next hidle => cases hs; exact send_queueOk h hidle data
    next => cases hs
  | sender => exact sendStep_queueOk h hs
  | receive maxSize =>
    simp only [step] at hs
    split at hs
    next =>
      cases hs
      unfold receive
      split
      · split_ifs
        · exact h
        · exact h.frame rfl rfl rfl rfl hkeep
      · exact h.frame rfl rfl rfl rfl hkeep
    next => cases hs
  | load is =>
    simp only [step, Option.map_eq_some_iff] at hs
    obtain ⟨pc, -, rfl⟩ := hs
    exact h.frame rfl rfl rfl rfl hkeep
  | receiver =>
    simp only [step, recvStep] at hs
    split at hs
    next => split_ifs at hs <;> (cases hs; exact h.frame rfl rfl rfl rfl hkeep)
    next => cases hs; exact h.frame rfl rfl rfl rfl hkeep
    next => cases hs; exact h.frame rfl rfl rfl rfl hkeep
    next => cases hs
  | land k =>
    simp only [step, Option.map_eq_some_iff] at hs
    obtain ⟨conn, hland, rfl⟩ := hs
    exact land_queueOk h hland
  | complete =>
    simp only [step, Option.map_eq_some_iff] at hs
    obtain ⟨conn, hcomp, rfl⟩ := hs
    exact complete_queueOk h hcomp

/-- The frames in flight are those that the send queue holds. -/
theorem QueueOk.holds (h : QueueOk s) : ∃ A, Holds s.bitmask A s.conn.sq s.openSends s.postPos := by
  obtain ⟨⟨A, ps, hps, hq⟩, -⟩ := h
  refine ⟨A, ?_⟩
  rw [State.openSends, hq.writes_eq, ← List.suffix_iff_eq_drop.1 hps]
  exact hq

/-- What the network card has yet to read is in the cells of the frames in flight. -/
theorem QueueOk.cells_subset_openCells (h : QueueOk s) (hpow : powerOfTwo s.size = true) :
    ∀ r ∈ s.conn.sq, r.cells s.phys ⊆ s.openCells := by
  obtain ⟨A, hq⟩ := h.holds
  intro r hr c hc
  obtain ⟨i, hi, rfl⟩ := hq.cells hpow r hr c hc
  refine List.mem_map.2 ⟨frameBytes s.openSends - 1 - i, List.mem_range.2 (by omega), ?_⟩
  have hback : s.postPos - UInt64.ofNat (frameBytes s.openSends - 1 - i + 1) =
      UInt64.ofNat (A.toNat + i) := by
    have hsum : frameBytes s.openSends = i + (frameBytes s.openSends - 1 - i + 1) := by omega
    rw [hq.end_eq]
    nth_rewrite 1 [hsum]
    rw [UInt64.ofNat_add i, ← UInt64.add_assoc, UInt64.add_sub_cancel, UInt64.ofNat_add,
      UInt64.ofNat_toNat]
  rw [hback]
  exact Pos.ofNat_and_mask hpow _

end

/-! ## Calls in reachable states -/

theorem reachable_queueOk {size pos : UInt64} {acts : List Act} {s : State}
    (hrun : run step (start size pos) acts = some s) : QueueOk s ∧ s.size = size := by
  have hinv : AllStates step (fun s => QueueOk s ∧ s.size = size) (start size pos) acts :=
    allStates_of_inv (I := fun s => QueueOk s ∧ s.size = size) (fun _ h => h)
      (fun _ _ _ h hs => ⟨step_queueOk h.1 hs, (step_frame hs).1.trans h.2⟩) acts
      ⟨queueOk_start size pos, rfl⟩
  exact hinv.last hrun

/-- The frames in flight have the cells that a queued write reads, -/
theorem cells_subset_openCells {size : UInt64} (hpow : powerOfTwo size = true) (pos : UInt64)
    {acts : List Act} {s : State} (hrun : run step (start size pos) acts = some s) :
    ∀ r ∈ s.conn.sq, r.cells s.phys ⊆ s.openCells := by
  obtain ⟨hq, hsize⟩ := reachable_queueOk hrun
  exact hq.cells_subset_openCells (hsize ▸ hpow)

/-- and **a payload that does not fit** is rejected without changing anything exactly if it is
    harmless. -/
theorem send_changesNothing_iff {size : UInt64} (hpow : powerOfTwo size = true) (pos : UInt64)
    {acts : List Act} {s : State} (hrun : run step (start size pos) acts = some s)
    (hidle : s.sendPc = .idle) {data : List UInt8} (hbig : size.toNat < data.length + 16) :
    ChangesNothing s data ↔ Harmless s data := by
  obtain ⟨-, rfl⟩ := reachable_queueOk hrun
  exact changesNothing_iff_harmless hpow hidle hbig

/-- The payload of a frame that is not INLINE. -/
def large : List UInt8 := List.replicate 600 0

/-- The frame is posted from position 16 on, and its write has not completed. -/
def postLarge : List Act := sendFirst ++ .send large :: List.replicate 3 .sender

/-- What the sender does after its copy leaves the staging ring alone. -/
theorem sendBuf_sender {s s' : State} {n : ℕ}
    (h : run step s (List.replicate n .sender) = some s') : s'.conn.sendBuf = s.conn.sendBuf := by
  induction n generalizing s with
  | zero => cases h; rfl
  | succ n ih =>
    obtain ⟨s₁, hs, hrun⟩ := step_of_run_cons h
    rw [ih hrun]
    cases sendStep_cases hs <;> rfl

/-- Nothing but the frame is in flight. -/
theorem exists_postLarge : ∃ s, run step (start 4096 0) postLarge = some s ∧ s.sendPc = .idle ∧
    s.startOfWrite = 632 ∧ (∃ r ∈ s.conn.sq, 24 ∈ r.cells s.phys) ∧
    (∀ c, 16 ≤ c ∧ c < 632 ↔ c ∈ s.openCells) ∧ Staged 4096 s.conn.sendBuf 16 large := by
  have hfirst : ((run step (start 4096 0) sendFirst).map fun s => (s.size, s.startOfWrite)) =
      some (4096, 16) := by decide +kernel
  have hrun : ((run step (start 4096 0) postLarge).map fun s =>
      (s.sendPc.ctorIdx, s.startOfWrite, s.conn.sq.any fun r => decide (24 ∈ r.cells s.phys),
        s.openCells)) = some (0, 632, true, (List.range 616).map (631 - ·)) := by decide +kernel
  obtain ⟨s₀, hs₀, he₀⟩ := Option.map_eq_some_iff.1 hfirst
  obtain ⟨s, hs, he⟩ := Option.map_eq_some_iff.1 hrun
  simp only [Prod.mk.injEq] at he₀
  simp only [Prod.mk.injEq, List.any_eq_true, decide_eq_true_eq] at he
  obtain ⟨hidle, hpos, hread, hopen⟩ := he
  refine ⟨s, hs, ?_, hpos, hread, fun c => ?_, ?_⟩
  · cases hpc : s.sendPc with
    | idle => rfl
    | waitUntilSendFree | pollRead | post | waitForCompletion | advance =>
      rw [hpc] at hidle; cases hidle
  · rw [hopen, List.mem_map]
    constructor
    · rintro ⟨hle, hlt⟩
      exact ⟨631 - c, List.mem_range.2 (by omega), by omega⟩
    · rintro ⟨i, hi, rfl⟩
      have := List.mem_range.1 hi
      omega
  · rw [postLarge, run_append hs₀] at hs
    obtain ⟨s₁, hsend, hsteps⟩ := step_of_run_cons hs
    rw [sendBuf_sender hsteps]
    simp only [step] at hsend
    split at hsend
    · have hadm : Admitted s₀ (.send large) := by
        rw [Admitted, he₀.1]; decide +kernel
      have hstaged := staged_send (E := 16) (by rw [he₀.1, he₀.2]; rfl) hadm
      rwa [Option.some.inj hsend, he₀.1] at hstaged
    · cases hsend

/-- The bytes of the frame that a payload of a byte too much reaches. -/
def largeFrame : List UInt8 := (Frame.frame V large).take 609

theorem length_largeFrame : largeFrame.length = 609 := by decide +kernel

/-- Of the frame it reaches, a payload of a byte too much leaves what is there. -/
theorem send_changesNothing_same : ∃ s, run step (start 4096 0) postLarge = some s ∧
    s.openCells ≠ [] ∧ ChangesNothing s (List.replicate 3472 0 ++ largeFrame) := by
  obtain ⟨s, hs, hidle, hpos, -, hopen, hframe⟩ := exists_postLarge
  have hsize : s.size = 4096 := (reachable_queueOk hs).2
  have hlen : (List.replicate 3472 0 ++ largeFrame).length = 4081 := by
    rw [List.length_append, List.length_replicate, length_largeFrame]
  have hpow : powerOfTwo 4096 = true := by decide
  have hbig : (4096 : UInt64).toNat < (List.replicate 3472 0 ++ largeFrame).length + 16 := by
    rw [hlen]; decide
  refine ⟨s, hs, List.ne_nil_of_mem ((hopen 16).1 (by omega)), ?_⟩
  refine (send_changesNothing_iff hpow 0 hs hidle hbig).2 ⟨?_, fun _ => ?_, ?_⟩
  · rw [hlen]; norm_num
  · rw [hlen, hpos, hsize]; decide
  · intro j b hb _ hc
    have hphys (i : ℕ) : s.phys i = i % 4096 := by rw [State.phys, hsize]; rfl
    rw [hphys, hpos] at hc ⊢
    obtain ⟨hge, hlt⟩ := (hopen _).2 hc
    have hj : j < 4081 := hlen ▸ (List.getElem?_eq_some_iff.1 hb).1
    -- byte `i` of the frame
    obtain ⟨i, rfl⟩ : ∃ i, j = 3472 + i := ⟨j - 3472, by omega⟩
    have hcell : (632 + 8 + (3472 + i)) % 4096 = (16 + i) % 4096 := by omega
    rw [List.getElem?_append_right (by rw [List.length_replicate]; omega), List.length_replicate,
      Nat.add_sub_cancel_left, largeFrame, List.getElem?_take_of_lt (by omega)] at hb
    rw [hcell]
    exact hframe i b hb

def tooLong : List UInt8 := List.replicate 4081 1

/-- A rejected payload replaces bytes that the network card has yet to read. -/
theorem rejected_overwrites : ∃ s, run step (start 4096 0) postLarge = some s ∧
    s.sendPc = .idle ∧ 4096 < tooLong.length + 16 ∧
    (∃ r ∈ s.conn.sq, 24 ∈ r.cells s.phys) ∧ ¬ ChangesNothing s tooLong := by
  obtain ⟨s, hs, hidle, hpos, hread, hopen, hframe⟩ := exists_postLarge
  have hsize : s.size = 4096 := (reachable_queueOk hs).2
  have hlen : tooLong.length = 4081 := List.length_replicate
  have hpow : powerOfTwo s.size = true := by rw [hsize]; decide
  have hbig : s.size.toNat < tooLong.length + 16 := by rw [hsize, hlen]; decide
  refine ⟨s, hs, hidle, by rw [hlen]; norm_num, hread, fun h => ?_⟩
  have hharmless := (changesNothing_iff_harmless hpow hidle hbig).1 h
  -- a byte of the payload for cell 24, which is 0
  have hcell : s.phys (s.startOfWrite + 8 + 3480) = 24 := by
    rw [State.phys, hsize, hpos]; rfl
  have hbyte : tooLong[3480]? = some 1 := List.getElem?_replicate_of_lt (by norm_num)
  have hsame := hharmless.same 3480 1 hbyte (by rw [hlen, hsize]; decide)
  rw [hcell] at hsame
  have hzero : s.conn.sendBuf 24 = 0 := hframe 8 0 rfl
  rw [hzero] at hsame
  exact absurd (hsame ((hopen 24).1 (by omega))) (by decide)

end VirtualRDMARingBuffer

end L5RDMA
