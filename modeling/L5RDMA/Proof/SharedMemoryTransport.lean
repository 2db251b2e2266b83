/-
  The shared-memory transport is a stream of bytes.

  `stream_of_room`: in every run in which each `send` of the ring starts with
  room for its bytes, what `read` and `readSome` have returned is a prefix of
  what was written, in the right amounts, and nobody is held up who has the
  bytes or the space that it waits for.  (Without the condition the ring may
  be overwritten, see `noOverwrite_iff`.)

  * `InvAt`: the bytes written are those passed to the ring and those still to
    pass, the bytes returned are those the ring has given back (`Holds`);
  * `Serves`: how far the call of the ring is that a `read` waits for.
-/
import L5RDMA.SharedMemoryTransport
import L5RDMA.Proof.VirtualRingBuffer

namespace L5RDMA

namespace SharedMemory

open Run VirtualRingBuffer
open Pos (powerOfTwo)

/-- A call has returned as many bytes as it should. -/
def Returned.SizeOk : Returned → Prop
  | .read size buffer => buffer.length = size.toNat
  | .readSome maxSize buffer => 1 ≤ buffer.length ∧ buffer.length ≤ maxSize.toNat

/-- The bytes that an active `read` has in its buffer. -/
def ReadPc.buffer : ReadPc → List UInt8
  | .read _ _ buffer => buffer
  | _ => []

/-- Each `send` of the ring starts with room for its bytes, and `readSome` asks for at least
    one byte. -/
def RoomAtSend (s : State) : Act → Prop
  | .writer =>
    match s.writing, s.ring.sendPc with
    | some data, .idle =>
      data ≠ [] →
        s.ring.used.toNat + min data.length s.bufferSize.toNat ≤ s.bufferSize.toNat
    | _, _ => True
  | .readSome maxSize => 1 ≤ maxSize.toNat
  | _ => True

/-- Where the call of the ring is that a `read` or `readSome` is in, with `W` bytes published
    and `R` read. -/
def Serves (bufferSize : UInt64) (W R : ℕ) : ReadPc → RecvPc → Prop
  | .idle, pc => pc = .idle
  | .read size i buffer, pc =>
    buffer.length = i.toNat ∧ i ≤ size ∧
      match pc with
      | .idle => True
      | .wait some? chunk _ => some? = false ∧ i < size ∧ chunk = min (size - i) bufferSize
      | .load _ _ => False
      | .copy chunk _ => i < size ∧ chunk = min (size - i) bufferSize
      | .publish bytes chunk _ =>
        i < size ∧ chunk = min (size - i) bufferSize ∧ bytes.length = chunk.toNat
  | .readSome maxSize, pc =>
    match pc with
    | .idle => False
    | .wait some? chunk _ => some? = true ∧ 1 ≤ chunk.toNat ∧ chunk ≤ maxSize
    | .load chunk _ => 1 ≤ chunk.toNat ∧ chunk ≤ maxSize ∧ R < W
    | .copy size _ => 1 ≤ size.toNat ∧ size ≤ maxSize
    | .publish bytes size _ => 1 ≤ size.toNat ∧ size ≤ maxSize ∧ bytes.length = size.toNat

structure InvAt (s : State) (W R : ℕ) : Prop where
  ring : Holds s.ring W R
  written : s.written = s.ring.input ++ s.writing.getD []
  returned : s.returned.flatMap Returned.buffer ++ s.reading.buffer = s.ring.output
  sizes : ∀ r ∈ s.returned, r.SizeOk
  serves : Serves s.bufferSize W R s.reading s.ring.recvPc

theorem invAt_init {bufferSize : UInt64} (h : powerOfTwo bufferSize = true)
    (cachedRemoteRead : UInt64) : InvAt (init bufferSize cachedRemoteRead) 0 0 where
  ring := holds_init h cachedRemoteRead
  written := rfl
  returned := rfl
  sizes := fun _ hr => by cases hr
  serves := rfl

section
variable {w : Writer} {s s' : State} {W R : ℕ}

/-- What is published can be read as well later. -/
theorem Serves.mono {n : UInt64} {W' : ℕ} {reading : ReadPc} {pc : RecvPc}
    (h : Serves n W R reading pc) (hW : W ≤ W') : Serves n W' R reading pc := by
  cases reading with
  | idle | read => exact h
  | readSome maxSize =>
    cases pc with
    | idle | wait | copy | publish => exact h
    | load chunk lr => exact ⟨h.1, h.2.1, h.2.2.trans_le hW⟩

/-- The bytes returned are the first of those written. -/
theorem InvAt.prefix_ (h : InvAt s W R) :
    s.returned.flatMap Returned.buffer <+: s.written := by
  have hout : s.ring.output <+: s.ring.input := h.ring.output ▸ List.take_prefix _ _
  have hret : s.returned.flatMap Returned.buffer <+: s.ring.output :=
    h.returned ▸ List.prefix_append _ _
  rw [h.written]
  exact (hret.trans hout).trans (List.prefix_append _ _)

theorem writeImpl_inv (h : InvAt s W R) (hC : RoomAtSend s .writer)
    (hs : SharedMemory.writeImpl s = some s') : ∃ W' R', InvAt s' W' R' := by
  unfold SharedMemory.writeImpl at hs
  unfold RoomAtSend at hC
  have hwritten := h.written
  cases hw : s.writing with
  | none => rw [hw] at hs; cases hs
  | some data =>
    rw [hw] at hwritten hC
    simp only [hw] at hs
    by_cases hidle : s.ring.sendPc = .idle
    · rw [hidle] at hC
      simp only [hidle] at hs
      split_ifs at hs with hd
      · cases hs
        subst hd
        exact ⟨W, R, h.ring, hwritten, h.returned, h.sizes, h.serves⟩
      · -- the next chunk
        simp only [Option.map_eq_some_iff] at hs
        obtain ⟨ring, hring, rfl⟩ := hs
        have hroom : s.ring.used.toNat +
            (data.take (min data.length s.bufferSize.toNat)).length ≤ s.ring.size.toNat := by
          rw [List.length_take]
          exact (Nat.add_le_add_left (Nat.min_le_left _ _) _).trans (hC hd)
        have hholds := h.ring.send hroom hring
        simp only [VirtualRingBuffer.step, hidle] at hring
        split_ifs at hring
        cases hring
        refine ⟨W, R, hholds, ?_, h.returned, h.sizes, h.serves⟩
        show s.written = (s.ring.input ++ data.take _) ++ data.drop _
        rw [List.append_assoc, List.take_append_drop]; exact hwritten
    · have hs' : ((VirtualRingBuffer.step s.ring .sender).map fun ring =>
          { s with ring := ring, writing := some data }) = some s' := by
        cases hpc : s.ring.sendPc with
        | idle => exact absurd hpc hidle
        | check | wait | copy | publish => simp only [hpc] at hs; exact hs
      simp only [Option.map_eq_some_iff] at hs'
      obtain ⟨ring, hring, rfl⟩ := hs'
      obtain ⟨hsize, hin, hout, hrecv⟩ := sendStep_frame hring
      refine ⟨_, R, h.ring.sender hring, ?_, ?_, h.sizes, ?_⟩
      · dsimp only; rw [hin]; exact hwritten
      · dsimp only; rw [hout]; exact h.returned
      · have hserves := h.serves.mono (Nat.le_add_right W s.ring.sendPc.publishes)
        unfold State.bufferSize at hserves ⊢
        dsimp only
        rw [hsize, hrecv]; exact hserves

/-- The next chunk of a `read`. -/
theorem chunk_toNat {size i n : UInt64} (hi : i ≤ size) :
    (min (size - i) n).toNat = min (size.toNat - i.toNat) n.toNat := by
  rw [Pos.toNat_min, UInt64.toNat_sub_of_le _ _ hi]

/-- A call of the ring that does not return yet. -/
theorem Serves.recvStep {ring ring' : VirtualRingBuffer.State} {n : UInt64} {reading : ReadPc}
    (h : Serves n W R reading ring.recvPc) (hring : VirtualRingBuffer.InvAt ring W R)
    (hpub : ∀ bytes size lr, ring.recvPc ≠ .publish bytes size lr)
    (hs : VirtualRingBuffer.recvStep ring = some ring') :
    Serves n W R reading ring'.recvPc := by
  have hlt := ring.size.toNat_lt
  have hroom := hring.room
  have hle := hring.le
  have hsub := Pos.ofNat_sub_toNat hle (show W - R < 2 ^ 64 by omega)
  have hrecv := hring.recv
  unfold VirtualRingBuffer.recvStep at hs
  cases hpc : ring.recvPc with
  | idle => rw [hpc] at hs; cases hs
  | publish bytes size lr => exact absurd hpc (hpub bytes size lr)
  | wait some? chunk lr =>
    rw [hpc] at h hrecv
    cases hrecv
    simp only [hpc, hring.written] at hs
    cases reading with
    | idle => cases h
    | read size i buffer =>
      obtain ⟨hlen, hi, rfl, hchunk⟩ := h
      simp only [Bool.false_eq_true, ↓reduceIte] at hs
      split_ifs at hs
      · cases hs
        rw [hpc]
        exact ⟨hlen, hi, rfl, hchunk⟩
      · cases hs
        exact ⟨hlen, hi, hchunk⟩
    | readSome maxSize =>
      obtain ⟨rfl, h1, hmax⟩ := h
      simp only [↓reduceIte] at hs
      split_ifs at hs with havail
      · cases hs
        rw [hpc]
        exact ⟨rfl, h1, hmax⟩
      · cases hs
        rw [UInt64.not_lt, UInt64.le_iff_toNat_le, hsub, UInt64.toNat_one] at havail
        have : R < W := by omega
        exact ⟨h1, hmax, this⟩
  | load chunk lr =>
    rw [hpc] at h hrecv
    cases hrecv
    simp only [hpc, hring.written] at hs
    cases hs
    cases reading with
    | idle => cases h
    | read size i buffer => exact h.2.2.elim
    | readSome maxSize =>
      obtain ⟨h1, hmax, havail⟩ := h
      dsimp only
      have hmin := Pos.toNat_min (UInt64.ofNat W - UInt64.ofNat R) chunk
      rw [hsub] at hmin
      rw [UInt64.le_iff_toNat_le] at hmax
      constructor
      · omega
      · rw [UInt64.le_iff_toNat_le]; omega
  | copy size lr =>
    rw [hpc] at h
    simp only [hpc] at hs
    cases hs
    cases reading with
    | idle => cases h
    | read size' i buffer =>
      obtain ⟨hlen, hi, hlt', hchunk⟩ := h
      exact ⟨hlen, hi, hlt', hchunk, Mem.length_read _ _ _ _⟩
    | readSome maxSize =>
      obtain ⟨h1, hmax⟩ := h
      exact ⟨h1, hmax, Mem.length_read _ _ _ _⟩

/-- Call `receive` or `receiveSome`. -/
theorem InvAt.call (h : InvAt s W R) {reading : ReadPc} {some? : Bool} {chunk : UInt64}
    (hbuf : reading.buffer = s.reading.buffer)
    (hserves : Serves s.bufferSize W R reading
      (.wait some? chunk s.ring.receiver.localRw.read)) :
    InvAt { s with
      ring := { s.ring with recvPc := .wait some? chunk s.ring.receiver.localRw.read }
      reading := reading } W R where
  ring := h.ring.call some? chunk
  written := h.written
  returned := by rw [← h.returned, ← hbuf]
  sizes := h.sizes
  serves := hserves

/-- A step of a call of the ring that does not return yet. -/
theorem InvAt.ringStep (h : InvAt s W R) {ring : VirtualRingBuffer.State}
    (hpub : ∀ bytes size lr, s.ring.recvPc ≠ .publish bytes size lr)
    (hs : recvStep s.ring = some ring) : InvAt { s with ring := ring } W R := by
  have hpub0 : s.ring.recvPc.publishes = 0 ∧ s.ring.recvPc.bytes = [] := by
    cases hpc : s.ring.recvPc with
    | publish bytes size lr => exact absurd hpc (hpub bytes size lr)
    | idle | wait | load | copy => exact ⟨rfl, rfl⟩
  obtain ⟨hsize, hin, hout⟩ := recvStep_frame hs
  have hring := h.ring.receiver hs
  rw [hpub0.1, Nat.add_zero] at hring
  rw [hpub0.2, List.append_nil] at hout
  refine ⟨hring, ?_, ?_, h.sizes, ?_⟩
  · dsimp only; rw [hin]; exact h.written
  · dsimp only; rw [hout]; exact h.returned
  · have hserves := h.serves.recvStep h.ring.counters hpub hs
    unfold State.bufferSize at hserves ⊢
    rw [hsize]; exact hserves

theorem flatMap_snoc (rs : List Returned) (r : Returned) :
    (rs ++ [r]).flatMap Returned.buffer = rs.flatMap Returned.buffer ++ r.buffer := by
  simp

theorem forall_mem_snoc {P : Returned → Prop} {rs : List Returned} {r : Returned}
    (hrs : ∀ r ∈ rs, P r) (hr : P r) : ∀ r' ∈ rs ++ [r], P r' := by
  simpa [or_imp, forall_and] using ⟨hrs, hr⟩

/-- The last step of `receive` for a chunk of `read`, -/
theorem InvAt.received (h : InvAt s W R) {size i chunk lr : UInt64} {buffer bytes : List UInt8}
    (hr : s.reading = .read size i buffer) (hpc : s.ring.recvPc = .publish bytes chunk lr)
    {ring : VirtualRingBuffer.State} (hs : recvStep s.ring = some ring) :
    ∃ R', InvAt { s with
      ring := ring
      reading := .read size (i + min (size - i) s.bufferSize) (buffer ++ bytes) } W R' := by
  have hserves := h.serves
  have hreturned := h.returned
  rw [hr] at hserves hreturned
  rw [hpc] at hserves
  obtain ⟨hlen, hi, hlt, hchunk, hbytes⟩ := hserves
  obtain ⟨hsize, hin, hout⟩ := recvStep_frame hs
  rw [hpc] at hout
  have hidle : ring.recvPc = .idle := by
    simp only [VirtualRingBuffer.recvStep, hpc] at hs
    cases hs
    rfl
  have hchunk' := chunk_toNat (n := s.bufferSize) hi
  rw [UInt64.le_iff_toNat_le] at hi
  rw [hchunk] at hbytes
  have hadd : (i + min (size - i) s.bufferSize).toNat = i.toNat + bytes.length := by
    have := size.toNat_lt
    rw [UInt64.toNat_add, hbytes, Nat.mod_eq_of_lt]
    omega
  refine ⟨_, h.ring.receiver hs, ?_, ?_, h.sizes, ?_⟩
  · dsimp only; rw [hin]; exact h.written
  · dsimp only
    rw [hout, ← hreturned, List.append_assoc]
    rfl
  · dsimp only
    rw [hidle]
    refine ⟨?_, ?_, trivial⟩
    · rw [List.length_append, hlen, hadd]
    · rw [UInt64.le_iff_toNat_le, hadd]; omega

/-- and that of `receiveSome`, with which `readSome` returns. -/
theorem InvAt.receivedSome (h : InvAt s W R) {maxSize size lr : UInt64} {bytes : List UInt8}
    (hr : s.reading = .readSome maxSize) (hpc : s.ring.recvPc = .publish bytes size lr)
    {ring : VirtualRingBuffer.State} (hs : recvStep s.ring = some ring) :
    ∃ R', InvAt { s with
      ring := ring
      reading := .idle
      returned := s.returned ++ [.readSome maxSize bytes] } W R' := by
  have hserves := h.serves
  have hreturned := h.returned
  rw [hr] at hserves hreturned
  rw [hpc] at hserves
  obtain ⟨h1, hmax, hbytes⟩ := hserves
  obtain ⟨hsize, hin, hout⟩ := recvStep_frame hs
  rw [hpc] at hout
  refine ⟨_, h.ring.receiver hs, ?_, ?_, ?_, ?_⟩
  · dsimp only; rw [hin]; exact h.written
  · dsimp only
    rw [hout, ← hreturned, flatMap_snoc, List.append_assoc, List.append_assoc]
    exact congrArg _ (List.append_nil bytes)
  · rw [UInt64.le_iff_toNat_le, ← hbytes] at hmax
    exact forall_mem_snoc h.sizes ⟨hbytes ▸ h1, hmax⟩
  · simp only [VirtualRingBuffer.recvStep, hpc] at hs
    cases hs
    rfl

/-- `read` returns when it has the bytes it was called for. -/
theorem InvAt.readDone (h : InvAt s W R) {size i : UInt64} {buffer : List UInt8}
    (hr : s.reading = .read size i buffer) (hpc : s.ring.recvPc = .idle) (hdone : ¬ i < size) :
    InvAt { s with reading := .idle, returned := s.returned ++ [.read size buffer] } W R := by
  have hserves := h.serves
  have hreturned := h.returned
  rw [hr] at hserves hreturned
  rw [hpc] at hserves
  obtain ⟨hlen, hi, -⟩ := hserves
  have hsize : i = size := by
    rw [UInt64.le_iff_toNat_le] at hi
    rw [UInt64.lt_iff_toNat_lt] at hdone
    exact UInt64.toNat_inj.1 (by omega)
  refine ⟨h.ring, h.written, ?_, ?_, hpc⟩
  · rw [← hreturned, flatMap_snoc, List.append_assoc]
    exact congrArg _ (List.append_nil buffer)
  · refine forall_mem_snoc h.sizes ?_
    show buffer.length = size.toNat
    rw [hlen, hsize]

theorem readImpl_inv (h : InvAt s W R) (hs : SharedMemory.readImpl s = some s') :
    ∃ W' R', InvAt s' W' R' := by
  have hserves := h.serves
  have hcall := @InvAt.call s W R h
  have hstep := @InvAt.ringStep s W R h
  unfold SharedMemory.readImpl at hs
  cases hr : s.reading with
  | idle => rw [hr] at hs; cases hs
  | read size i buffer =>
    simp only [hr] at hs
    rw [hr] at hserves hcall
    cases hpc : s.ring.recvPc with
    | idle =>
      rw [hpc] at hserves
      obtain ⟨hlen, hi, -⟩ := hserves
      simp only [hpc] at hs
      split_ifs at hs with hlt
      · simp only [VirtualRingBuffer.step, hpc, Option.map_some, Option.some.injEq] at hs
        subst hs
        exact ⟨W, R, hcall rfl ⟨hlen, hi, rfl, hlt, rfl⟩⟩
      · cases hs
        exact ⟨W, R, h.readDone hr hpc hlt⟩
    | publish bytes chunk lr =>
      simp only [hpc, Option.map_eq_some_iff] at hs
      obtain ⟨ring, hring, rfl⟩ := hs
      exact ⟨W, h.received hr hpc hring⟩
    | wait | load | copy =>
      simp only [hpc, Option.map_eq_some_iff] at hs
      obtain ⟨ring, hring, rfl⟩ := hs
      have := hstep (by rw [hpc]; intro _ _ _ he; cases he) hring
      rw [hr] at this
      exact ⟨W, R, this⟩
  | readSome maxSize =>
    simp only [hr] at hs
    rw [hr] at hserves
    cases hpc : s.ring.recvPc with
    | idle => rw [hpc] at hserves; cases hserves
    | publish bytes size lr =>
      simp only [hpc, Option.map_eq_some_iff] at hs
      obtain ⟨ring, hring, rfl⟩ := hs
      exact ⟨W, h.receivedSome hr hpc hring⟩
    | wait | load | copy =>
      simp only [hpc, Option.map_eq_some_iff] at hs
      obtain ⟨ring, hring, rfl⟩ := hs
      have := hstep (by rw [hpc]; intro _ _ _ he; cases he) hring
      rw [hr] at this
      exact ⟨W, R, this⟩

theorem readSomeImpl_inv {maxSize : UInt64} (h : InvAt s W R) (hidle : s.reading = .idle)
    (h1 : 1 ≤ maxSize.toNat) (hs : SharedMemory.readSomeImpl s maxSize = some s') :
    InvAt s' W R := by
  have hserves := h.serves
  rw [hidle] at hserves
  have hpc : s.ring.recvPc = .idle := hserves
  obtain ⟨k, -, hk⟩ := Pos.powerOfTwo_spec h.ring.pow
  have hsize : 1 ≤ s.bufferSize.toNat := by
    have := Nat.one_le_two_pow (n := k)
    unfold State.bufferSize
    omega
  have hmin := Pos.toNat_min maxSize s.bufferSize
  simp only [SharedMemory.readSomeImpl, VirtualRingBuffer.step, hpc, Option.map_some,
    Option.some.injEq] at hs
  subst hs
  refine h.call ?_ ⟨rfl, ?_, ?_⟩
  · rw [hidle]; rfl
  · omega
  · rw [UInt64.le_iff_toNat_le]; omega

theorem step_inv {a : Act} (h : ∃ W R, InvAt s W R) (hC : RoomAtSend s a)
    (hs : step w s a = some s') : ∃ W R, InvAt s' W R := by
  obtain ⟨W, R, h⟩ := h
  cases a with
  | write data =>
    simp only [step] at hs
    split at hs
    next hw =>
      cases hs
      have hwritten := h.written
      rw [hw] at hwritten
      refine ⟨W, R, h.ring, ?_, h.returned, h.sizes, h.serves⟩
      dsimp only
      rw [hwritten, List.append_assoc]
      rfl
    next => cases hs
  | writer => cases w <;> exact writeImpl_inv h hC hs
  | read size =>
    simp only [step] at hs
    split at hs
    next hr =>
      cases hs
      have hserves := h.serves
      have hreturned := h.returned
      rw [hr] at hserves hreturned
      refine ⟨W, R, h.ring, h.written, hreturned, h.sizes, ?_⟩
      dsimp only
      rw [show s.ring.recvPc = .idle from hserves]
      exact ⟨rfl, UInt64.le_iff_toNat_le.2 (Nat.zero_le _), trivial⟩
    next => cases hs
  | readSome maxSize =>
    simp only [step] at hs
    split at hs
    next hr => cases w <;> exact ⟨W, R, readSomeImpl_inv h hr hC hs⟩
    next => cases hs
  | reader => cases w <;> exact readImpl_inv h hs

/-! ### The calls return -/

theorem step_writer (w : Writer) (s : State) : step w s .writer = SharedMemory.writeImpl s := by
  cases w <;> rfl

theorem step_reader (w : Writer) (s : State) : step w s .reader = SharedMemory.readImpl s := by
  cases w <;> rfl

/-- A step of `send` of the ring, -/
theorem step_writer_ring {ring : VirtualRingBuffer.State} (hw : s.writing ≠ none)
    (hs : sendStep s.ring = some ring) : step w s .writer = some { s with ring := ring } := by
  obtain ⟨data, hdata⟩ := Option.ne_none_iff_exists'.1 hw
  rw [step_writer, SharedMemory.writeImpl, hdata]
  dsimp only
  cases hpc : s.ring.sendPc with
  | idle => unfold sendStep at hs; rw [hpc] at hs; cases hs
  | check | wait | copy | publish =>
    simp only [VirtualRingBuffer.step, hs, Option.map_some]

/-- and one of `receive` or `receiveSome` before the last. -/
theorem step_reader_ring {ring : VirtualRingBuffer.State} (hr : s.reading ≠ .idle)
    (hpub : ∀ bytes size lr, s.ring.recvPc ≠ .publish bytes size lr)
    (hs : recvStep s.ring = some ring) : step w s .reader = some { s with ring := ring } := by
  rw [step_reader, SharedMemory.readImpl]
  cases hpc : s.ring.recvPc with
  | idle => unfold recvStep at hs; rw [hpc] at hs; cases hs
  | publish bytes size lr => exact absurd hpc (hpub bytes size lr)
  | wait | load | copy =>
    cases hread : s.reading with
    | idle => exact absurd hread hr
    | read | readSome => simp only [VirtualRingBuffer.step, hs, Option.map_some]

def Sent (s : State) : Prop := s.ring.sendPc = .idle

theorem within_publish {data : List UInt8} {lw : UInt64} (hw : s.writing ≠ none)
    (hpc : s.ring.sendPc = .publish data lw) : Within (step w) .writer Sent 1 s := by
  have hs := step_writer_ring (w := w) hw (by unfold sendStep; rw [hpc])
  refine Within.after ?_ hs
  show VirtualRingBuffer.SendPc.idle = .idle
  rfl

theorem within_copy {data : List UInt8} {lw : UInt64} (hw : s.writing ≠ none)
    (hpc : s.ring.sendPc = .copy data lw) : Within (step w) .writer Sent 2 s := by
  have hs := step_writer_ring (w := w) hw (by unfold sendStep; rw [hpc])
  refine Within.after ?_ hs
  exact within_publish hw rfl

theorem within_wait (h : InvAt s W R) {data : List UInt8} {lw : UInt64} (hw : s.writing ≠ none)
    (hpc : s.ring.sendPc = .wait data lw) : Within (step w) .writer Sent 3 s := by
  have hroom := h.ring.room
  have hle := h.ring.counters.le
  have hsend := h.ring.counters.send
  have hlt := s.ring.size.toNat_lt
  rw [hpc] at hroom hsend
  obtain ⟨rfl, hd⟩ := hsend
  have hW : W + data.length ≤ R + s.ring.size.toNat := hroom
  have hfull : s.ring.full (UInt64.ofNat W) s.ring.receiver.localRw.read (Pos.lengthOf data)
      = false := by
    have hlen : (Pos.lengthOf data).toNat = data.length := lengthOf_toNat hd
    have hdle : Pos.lengthOf data ≤ s.ring.size := by
      rw [UInt64.le_iff_toNat_le, hlen]; exact hd
    rw [h.ring.counters.read]
    simp only [VirtualRingBuffer.State.full, gt_iff_lt, decide_eq_false_iff_not, UInt64.not_lt,
      UInt64.le_iff_toNat_le, Pos.ofNat_sub_toNat hle (show W - R < 2 ^ 64 by omega),
      UInt64.toNat_sub_of_le _ _ hdle, hlen]
    omega
  have hs := step_writer_ring (w := w) hw (by
    unfold sendStep; rw [hpc]; dsimp only; rw [hfull]; rfl)
  refine Within.after ?_ hs
  exact within_copy hw rfl

theorem send_returns (h : InvAt s W R) (hw : s.writing ≠ none) :
    Within (step w) .writer Sent 4 s := by
  cases hpc : s.ring.sendPc with
  | idle => exact Or.inl hpc
  | wait => exact (within_wait h hw hpc).succ
  | copy => exact (within_copy hw hpc).succ.succ
  | publish => exact (within_publish hw hpc).succ.succ.succ
  | check data lw =>
    have hroom := h.ring.roomAtReturn
    cases hfull : s.ring.full lw s.ring.sender.cachedRemoteRead (Pos.lengthOf data) with
    | true =>
      have hs := step_writer_ring (w := w) hw (by
        unfold sendStep; rw [hpc]; dsimp only; rw [hfull]; rfl)
      refine Within.after (Within.succ ?_) hs
      exact within_copy hw rfl
    | false =>
      have hring : sendStep s.ring = some { s.ring with sendPc := .wait data lw } := by
        unfold sendStep; rw [hpc]; dsimp only; rw [hfull]; rfl
      have hs := step_writer_ring (w := w) hw hring
      refine Within.after ?_ hs
      have hRoom : RoomAtSend s .writer := by
        unfold RoomAtSend
        rw [hpc]
        cases s.writing with
        | none | some => trivial
      obtain ⟨W', R', h'⟩ := step_inv (w := w) ⟨W, R, h⟩ hRoom hs
      exact within_wait h' hw rfl

/-- What the active call has asked the ring for is there. -/
def Available (s : State) : Prop :=
  match s.reading with
  | .idle => False
  | .read size i _ => i < size ∧ min (size - i) s.bufferSize ≤ s.ring.used
  | .readSome _ => 1 ≤ s.ring.used

/-- The call of the ring in `reading` has returned. -/
def Received (bufferSize : UInt64) (reading : ReadPc) (s : State) : Prop :=
  match reading with
  | .idle => False
  | .read size i buffer =>
    ∃ bytes, s.reading = .read size (i + min (size - i) bufferSize) (buffer ++ bytes)
  | .readSome _ => s.reading = .idle

section
variable {n : UInt64} {reading : ReadPc}

theorem within_recvPublish {bytes : List UInt8} {chunk lr : UInt64} (hn : s.bufferSize = n)
    (hr : s.reading = reading) (hne : reading ≠ .idle)
    (hpc : s.ring.recvPc = .publish bytes chunk lr) :
    Within (step w) .reader (Received n reading) 1 s := by
  subst hn
  obtain ⟨ring, hring⟩ : ∃ ring, recvStep s.ring = some ring := by
    unfold recvStep; rw [hpc]; exact ⟨_, rfl⟩
  cases reading with
  | idle => exact absurd rfl hne
  | read size i buffer =>
    have hs : step w s .reader = some
        { s with
          ring := ring
          reading := .read size (i + min (size - i) s.bufferSize) (buffer ++ bytes) } := by
      rw [step_reader, SharedMemory.readImpl, hr]
      simp only [hpc, VirtualRingBuffer.step, hring, Option.map_some]
    exact Or.inr ⟨_, hs, bytes, rfl⟩
  | readSome maxSize =>
    have hs : step w s .reader = some
        { s with
          ring := ring
          reading := .idle
          returned := s.returned ++ [.readSome maxSize bytes] } := by
      rw [step_reader, SharedMemory.readImpl, hr]
      simp only [hpc, VirtualRingBuffer.step, hring, Option.map_some]
    exact Or.inr ⟨_, hs, rfl⟩

theorem within_recvCopy {size lr : UInt64} (hn : s.bufferSize = n)
    (hr : s.reading = reading) (hne : reading ≠ .idle) (hpc : s.ring.recvPc = .copy size lr) :
    Within (step w) .reader (Received n reading) 2 s := by
  have hs := step_reader_ring (w := w) (hr.trans_ne hne) (by rw [hpc]; intro _ _ _ he; cases he)
    (by unfold recvStep; rw [hpc])
  refine Within.after ?_ hs
  exact within_recvPublish hn hr hne rfl

theorem within_load {maxSize lr : UInt64} (hn : s.bufferSize = n)
    (hr : s.reading = reading) (hne : reading ≠ .idle) (hpc : s.ring.recvPc = .load maxSize lr) :
    Within (step w) .reader (Received n reading) 3 s := by
  have hs := step_reader_ring (w := w) (hr.trans_ne hne) (by rw [hpc]; intro _ _ _ he; cases he)
    (by unfold recvStep; rw [hpc])
  refine Within.after ?_ hs
  exact within_recvCopy hn hr hne rfl

/-- `receive` of `chunk` bytes that are there, -/
theorem within_wait_all (h : InvAt s W R) {chunk lr : UInt64} (hn : s.bufferSize = n)
    (hr : s.reading = reading) (hne : reading ≠ .idle)
    (hpc : s.ring.recvPc = .wait false chunk lr) (havail : chunk ≤ s.ring.used) :
    Within (step w) .reader (Received n reading) 3 s := by
  have hrecv := h.ring.counters.recv
  rw [hpc] at hrecv
  cases hrecv
  have hused : s.ring.sender.localRw.written - UInt64.ofNat R = s.ring.used := by
    rw [VirtualRingBuffer.State.used, h.ring.counters.read]
  have hring : recvStep s.ring = some { s.ring with recvPc := .copy chunk (UInt64.ofNat R) } := by
    unfold recvStep
    rw [hpc]
    dsimp only
    rw [hused, if_neg Bool.false_ne_true, if_neg (UInt64.not_lt.2 havail),
      if_neg Bool.false_ne_true]
  have hs := step_reader_ring (w := w) (hr.trans_ne hne) (by rw [hpc]; intro _ _ _ he; cases he)
    hring
  refine Within.after ?_ hs
  exact within_recvCopy hn hr hne rfl

/-- and `receiveSome` when a byte is there. -/
theorem within_wait_some (h : InvAt s W R) {chunk lr : UInt64} (hn : s.bufferSize = n)
    (hr : s.reading = reading) (hne : reading ≠ .idle)
    (hpc : s.ring.recvPc = .wait true chunk lr) (havail : 1 ≤ s.ring.used) :
    Within (step w) .reader (Received n reading) 4 s := by
  have hrecv := h.ring.counters.recv
  rw [hpc] at hrecv
  cases hrecv
  have hused : s.ring.sender.localRw.written - UInt64.ofNat R = s.ring.used := by
    rw [VirtualRingBuffer.State.used, h.ring.counters.read]
  have hring : recvStep s.ring = some { s.ring with recvPc := .load chunk (UInt64.ofNat R) } := by
    unfold recvStep
    rw [hpc]
    dsimp only
    rw [hused, if_pos rfl, if_neg (UInt64.not_lt.2 havail), if_pos rfl]
  have hs := step_reader_ring (w := w) (hr.trans_ne hne) (by rw [hpc]; intro _ _ _ he; cases he)
    hring
  refine Within.after ?_ hs
  exact within_load hn hr hne rfl

end

theorem receive_returns (h : InvAt s W R) (havail : Available s) :
    Within (step w) .reader (Received s.bufferSize s.reading) 4 s := by
  have hserves := h.serves
  unfold Available at havail
  cases hr : s.reading with
  | idle => rw [hr] at havail; exact havail.elim
  | read size i buffer =>
    rw [hr] at havail hserves
    obtain ⟨hlt, havail⟩ := havail
    obtain ⟨hlen, hi, hserves⟩ := hserves
    have hne : ReadPc.read size i buffer ≠ .idle := fun he => by cases he
    cases hpc : s.ring.recvPc with
    | idle =>
      have hs : step w s .reader = some { s with
          ring := { s.ring with
            recvPc :=
              .wait false (min (size - i) s.bufferSize) s.ring.receiver.localRw.read } } := by
        rw [step_reader, SharedMemory.readImpl, hr]
        simp only [hpc, if_pos hlt, VirtualRingBuffer.step, Option.map_some]
      obtain ⟨W', R', h'⟩ := step_inv (w := w) (a := .reader) ⟨W, R, h⟩ trivial hs
      refine Within.after ?_ hs
      exact within_wait_all h' rfl hr hne rfl havail
    | wait some? chunk lr =>
      rw [hpc] at hserves
      obtain ⟨rfl, -, rfl⟩ := hserves
      exact (within_wait_all h rfl hr hne hpc havail).succ
    | load => rw [hpc] at hserves; exact hserves.elim
    | copy => exact (within_recvCopy rfl hr hne hpc).succ.succ
    | publish => exact (within_recvPublish rfl hr hne hpc).succ.succ.succ
  | readSome maxSize =>
    rw [hr] at havail hserves
    have hne : ReadPc.readSome maxSize ≠ .idle := fun he => by cases he
    cases hpc : s.ring.recvPc with
    | idle => rw [hpc] at hserves; exact hserves.elim
    | wait some? chunk lr =>
      rw [hpc] at hserves
      obtain ⟨rfl, -⟩ := hserves
      exact within_wait_some h rfl hr hne hpc havail
    | load => exact (within_load rfl hr hne hpc).succ
    | copy => exact (within_recvCopy rfl hr hne hpc).succ.succ
    | publish => exact (within_recvPublish rfl hr hne hpc).succ.succ.succ

end

/-! ## The stream -/

/-- What has been read is a prefix of what was written, every call has returned the
    right amount, and nobody is held up who has the bytes or the space it waits for. -/
structure Stream (w : Writer) (s : State) : Prop where
  prefix_ : s.returned.flatMap Returned.buffer <+: s.written
  sizes : ∀ r ∈ s.returned, r.SizeOk
  send : s.writing ≠ none → Within (step w) .writer Sent 4 s
  write : s.writing ≠ none → Sent s →
    ∃ s', step w s .writer = some s' ∧ (s'.writing = none ∨ ¬ Sent s')
  receive : Available s → Within (step w) .reader (Received s.bufferSize s.reading) 4 s
  read : ∀ size i buffer, s.reading = .read size i buffer → ¬ i < size →
    Within (step w) .reader (fun s' => s'.reading = .idle) 1 s

theorem InvAt.stream {w : Writer} {s : State} {W R : ℕ} (h : InvAt s W R) : Stream w s where
  prefix_ := h.prefix_
  sizes := h.sizes
  send := send_returns h
  write := by
    intro hw hsent
    obtain ⟨data, hdata⟩ := Option.ne_none_iff_exists'.1 hw
    have hidle : s.ring.sendPc = .idle := hsent
    rw [step_writer, SharedMemory.writeImpl, hdata]
    simp only [hidle]
    split_ifs with hd
    · exact ⟨_, rfl, Or.inl rfl⟩
    · have hlen : (data.take (min data.length s.bufferSize.toNat)).length ≤ s.ring.size.toNat := by
        rw [List.length_take]
        exact (Nat.min_le_left _ _).trans (Nat.min_le_right _ _)
      simp only [VirtualRingBuffer.step, hidle, if_pos hlen, Option.map_some]
      exact ⟨_, rfl, Or.inr fun he => by cases he⟩
  receive := receive_returns h
  read := by
    intro size i buffer hr hi
    have hserves := h.serves
    rw [hr] at hserves
    obtain ⟨hlen, hle, hserves⟩ := hserves
    have hidle : s.ring.recvPc = .idle := by
      cases hpc : s.ring.recvPc with
      | idle => rfl
      | load => rw [hpc] at hserves; exact hserves.elim
      | wait => rw [hpc] at hserves; exact absurd hserves.2.1 hi
      | copy | publish => rw [hpc] at hserves; exact absurd hserves.1 hi
    have hs : step w s .reader = some
        { s with reading := .idle, returned := s.returned ++ [.read size buffer] } := by
      rw [step_reader, SharedMemory.readImpl, hr]
      simp only [hidle, if_neg hi]
    exact Or.inr ⟨_, hs, rfl⟩

instance RoomAtSend.decidable : ∀ s a, Decidable (RoomAtSend s a)
  | s, .writer =>
    show Decidable (match s.writing, s.ring.sendPc with
      | some data, .idle => data ≠ [] →
        s.ring.used.toNat + min data.length s.bufferSize.toNat ≤ s.bufferSize.toNat
      | _, _ => True) from
    match s.writing, s.ring.sendPc with
    | some data, .idle => inferInstanceAs (Decidable (data ≠ [] →
        s.ring.used.toNat + min data.length s.bufferSize.toNat ≤ s.bufferSize.toNat))
    | some _, .check _ _ | some _, .wait _ _ | some _, .copy _ _ | some _, .publish _ _ =>
      isTrue trivial
    | none, _ => isTrue trivial
  | _, .readSome maxSize => inferInstanceAs (Decidable (1 ≤ maxSize.toNat))
  | _, .write _ | _, .read _ | _, .reader => isTrue trivial

/-- **The transport is a stream**, as long as each `send` of the ring starts with room for
    its bytes. -/
theorem stream_of_room (w : Writer) {bufferSize : UInt64} (h : powerOfTwo bufferSize = true)
    (cachedRemoteRead : UInt64) (acts : List Act)
    (hroom : Along (step w) RoomAtSend (init bufferSize cachedRemoteRead) acts) :
    AllStates (step w) (Stream w) (init bufferSize cachedRemoteRead) acts :=
  allStates_of_along (I := fun s => ∃ W R, InvAt s W R) (fun _ ⟨_, _, hi⟩ => hi.stream)
    (fun _ _ _ hi hC hs => step_inv hi hC hs) ⟨0, 0, invAt_init h cachedRemoteRead⟩ hroom

/-- All but a byte of the ring is written, and all but another one read; of the next write the
    first byte is the last of the ring. -/
def acrossTheEnd : List Act :=
  [.write (List.replicate 4095 1)] ++ List.replicate 6 .writer ++ [.readSome 4094] ++
    List.replicate 4 .reader ++ [.write [4, 5, 6]] ++ List.replicate 5 .writer ++ [.read 4] ++
    List.replicate 5 .reader

theorem stream_acrossTheEnd :
    AllStates (step .server) (Stream .server) (init 4096 0) acrossTheEnd ∧
      ((run (step .server) (init 4096 0) acrossTheEnd).map fun s =>
          (s.returned[0]?.map fun r => r.buffer.length, s.returned[1]?.map Returned.buffer)) =
        some (some 4094, some [1, 4, 5, 6]) :=
  ⟨stream_of_room .server (by decide) 0 acrossTheEnd (by decide +kernel), by decide +kernel⟩

end SharedMemory

end L5RDMA
