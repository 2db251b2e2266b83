/-
  When the shared-memory ring overwrites unread bytes.

  `waitUntilSendFree` means to skip the load of the remote counter while the
  cached one already shows enough space, but its early return has the test
  the wrong way round: it returns when the cached counter shows too little.
  `noOverwrite_iff`: a run is free of overwrites iff each of its early returns
  happens to find the space (`RoomAtReturn`).  The loop itself is right.

  A ring that is not overwritten has the bytes that are written and not read
  (`Holds`).
-/
import L5RDMA.Lib.Ring
import L5RDMA.VirtualRingBuffer

namespace L5RDMA

namespace VirtualRingBuffer

open Run
open Pos (lengthOf powerOfTwo)

/-- Nothing unread is overwritten: the counters are at most a ring apart, and when
    `waitUntilSendFree` has returned the bytes of the call are free. -/
def NoOverwrite (s : State) : Prop :=
  s.used ≤ s.size ∧
    ∀ data localWritten, s.sendPc = .copy data localWritten →
      s.used.toNat + data.length ≤ s.size.toNat

/-- An early return of `waitUntilSendFree` finds `length` bytes free. -/
def RoomAtReturn (s : State) : Act → Prop
  | .sender =>
    match s.sendPc with
    | .check data localWritten =>
      s.full localWritten s.sender.cachedRemoteRead (lengthOf data) = true →
        s.used.toNat + data.length ≤ s.size.toNat
    | _ => True
  | _ => True

/-! ## The invariant -/

/-- What the sender knows when `W` bytes are written and `R` read, in a ring of `n`
    bytes. -/
def SendOk (n W R : ℕ) : SendPc → Prop
  | .idle => True
  | .check data localWritten | .wait data localWritten =>
    localWritten = UInt64.ofNat W ∧ data.length ≤ n
  | .copy data localWritten | .publish data localWritten =>
    localWritten = UInt64.ofNat W ∧ W + data.length ≤ R + n

/-- What the receiver knows. -/
def RecvOk (W R : ℕ) : RecvPc → Prop
  | .idle => True
  | .wait _ _ localRead | .load _ localRead => localRead = UInt64.ofNat R
  | .copy size localRead | .publish _ size localRead =>
    localRead = UInt64.ofNat R ∧ R + size.toNat ≤ W

/-- The counters stand for `W` bytes written and `R` bytes read, `W - R` of them in
    the ring. -/
structure InvAt (s : State) (W R : ℕ) : Prop where
  written : s.sender.localRw.written = UInt64.ofNat W
  read : s.receiver.localRw.read = UInt64.ofNat R
  le : R ≤ W
  room : W ≤ R + s.size.toNat
  send : SendOk s.size.toNat W R s.sendPc
  recv : RecvOk W R s.recvPc

def Inv (s : State) : Prop := ∃ W R, InvAt s W R

theorem inv_init (size cachedRemoteRead : UInt64) : Inv (init size cachedRemoteRead) :=
  ⟨0, 0, rfl, rfl, le_rfl, by simp, trivial, trivial⟩

section
variable {s s' : State} {W R : ℕ}

theorem InvAt.used_toNat (h : InvAt s W R) : s.used.toNat = W - R := by
  have := s.size.toNat_lt
  have := h.room
  rw [State.used, h.written, h.read, Pos.ofNat_sub_toNat h.le (by omega)]

theorem lengthOf_toNat {data : List UInt8} (h : data.length ≤ s.size.toNat) :
    (lengthOf data).toNat = data.length := by
  have := s.size.toNat_lt
  rw [lengthOf, Pos.ofNat_toNat, Nat.mod_eq_of_lt (by omega)]

/-- A passed test against a counter the receiver has really reached. -/
theorem room_of_not_full (h : InvAt s W R) {data : List UInt8} (hd : data.length ≤ s.size.toNat)
    (hf : ¬ s.full (UInt64.ofNat W) (UInt64.ofNat R) (lengthOf data) = true) :
    W + data.length ≤ R + s.size.toNat := by
  have hlt := s.size.toNat_lt
  have hroom := h.room
  have hle : lengthOf data ≤ s.size := by
    rw [UInt64.le_iff_toNat_le, lengthOf_toNat hd]; exact hd
  simp only [State.full, gt_iff_lt, decide_eq_true_eq, UInt64.not_lt, UInt64.le_iff_toNat_le,
    Pos.ofNat_sub_toNat h.le (show W - R < 2 ^ 64 by omega), UInt64.toNat_sub_of_le _ _ hle,
    lengthOf_toNat hd] at hf
  have := h.le
  omega

theorem InvAt.noOverwrite (h : InvAt s W R) : NoOverwrite s := by
  have hu := h.used_toNat
  have hroom := h.room
  have hle := h.le
  refine ⟨by rw [UInt64.le_iff_toNat_le, hu]; omega, ?_⟩
  intro data localWritten hpc
  have hs := h.send
  rw [hpc] at hs
  have := hs.2
  rw [hu]; omega

/-! ## The steps -/

/-- What is free for the sender stays free when more is read. -/
theorem SendOk.mono {n R' : ℕ} {pc : SendPc} (h : SendOk n W R pc) (hR : R ≤ R') :
    SendOk n W R' pc := by
  cases pc with
  | idle => trivial
  | check | wait => exact h
  | copy | publish => exact ⟨h.1, by have := h.2; omega⟩

/-- What is available to the receiver stays available when more is written. -/
theorem RecvOk.mono {W' : ℕ} {pc : RecvPc} (h : RecvOk W R pc) (hW : W ≤ W') :
    RecvOk W' R pc := by
  cases pc with
  | idle => trivial
  | wait | load => exact h
  | copy | publish => exact ⟨h.1, by have := h.2; omega⟩

/-- The bytes that the next step of the sender publishes, -/
def SendPc.publishes : SendPc → ℕ
  | .publish data _ => data.length
  | _ => 0

/-- and those that the next step of the receiver gives back. -/
def RecvPc.publishes : RecvPc → ℕ
  | .publish _ size _ => size.toNat
  | _ => 0

theorem sendStep_inv (h : InvAt s W R) (hC : RoomAtReturn s .sender) (hs : sendStep s = some s') :
    InvAt s' (W + s.sendPc.publishes) R := by
  have hsend := h.send
  unfold sendStep at hs
  unfold RoomAtReturn at hC
  cases hpc : s.sendPc with
  | idle => rw [hpc] at hs; cases hs
  | check data lw =>
    simp only [hpc] at hs hC
    rw [hpc] at hsend
    split_ifs at hs with hf
    · cases hs
      have hroom : W + data.length ≤ R + s.size.toNat := by
        have hu := h.used_toNat
        have := hC hf
        omega
      exact ⟨h.written, h.read, h.le, h.room, ⟨hsend.1, hroom⟩, h.recv⟩
    · cases hs
      exact ⟨h.written, h.read, h.le, h.room, hsend, h.recv⟩
  | wait data lw =>
    simp only [hpc, h.read] at hs
    rw [hpc] at hsend
    obtain ⟨rfl, hd⟩ := hsend
    split_ifs at hs with hf
    · cases hs
      exact ⟨h.written, h.read, h.le, h.room, ⟨rfl, hd⟩, h.recv⟩
    · cases hs
      exact ⟨h.written, h.read, h.le, h.room, ⟨rfl, room_of_not_full h hd hf⟩, h.recv⟩
  | copy data lw =>
    simp only [hpc] at hs
    rw [hpc] at hsend
    cases hs
    exact ⟨h.written, h.read, h.le, h.room, hsend, h.recv⟩
  | publish data lw =>
    simp only [hpc] at hs
    rw [hpc] at hsend
    obtain ⟨rfl, hd⟩ := hsend
    cases hs
    have hle : R ≤ W + data.length := le_add_right h.le
    exact ⟨Pos.ofNat_add _ _, h.read, hle, hd, trivial, h.recv.mono (Nat.le_add_right _ _)⟩

theorem recvStep_inv (h : InvAt s W R) (hs : recvStep s = some s') :
    InvAt s' W (R + s.recvPc.publishes) := by
  have hrecv := h.recv
  have hlt := s.size.toNat_lt
  have hroom := h.room
  have hle := h.le
  have hsub := Pos.ofNat_sub_toNat hle (show W - R < 2 ^ 64 by omega)
  unfold recvStep at hs
  cases hpc : s.recvPc with
  | idle => rw [hpc] at hs; cases hs
  | wait some? maxSize localRead =>
    simp only [hpc, h.written] at hs
    rw [hpc] at hrecv
    cases hrecv
    split_ifs at hs with h1 h2 h3
    · cases hs; exact h
    · cases hs
      exact ⟨h.written, h.read, h.le, h.room, h.send, rfl⟩
    · cases hs; exact h
    · cases hs
      rw [UInt64.not_lt, UInt64.le_iff_toNat_le, hsub] at h3
      have havail : R + maxSize.toNat ≤ W := by omega
      exact ⟨h.written, h.read, h.le, h.room, h.send, rfl, havail⟩
  | load maxSize localRead =>
    simp only [hpc, h.written] at hs
    rw [hpc] at hrecv
    cases hrecv
    cases hs
    have hmin : min (UInt64.ofNat W - UInt64.ofNat R) maxSize ≤ UInt64.ofNat W - UInt64.ofNat R :=
      Std.min_le_left
    rw [UInt64.le_iff_toNat_le, hsub] at hmin
    have havail : R + (min (UInt64.ofNat W - UInt64.ofNat R) maxSize).toNat ≤ W := by omega
    exact ⟨h.written, h.read, h.le, h.room, h.send, rfl, havail⟩
  | copy size localRead =>
    simp only [hpc] at hs
    rw [hpc] at hrecv
    cases hs
    exact ⟨h.written, h.read, h.le, h.room, h.send, hrecv⟩
  | publish bytes size localRead =>
    simp only [hpc] at hs
    rw [hpc] at hrecv
    obtain ⟨rfl, hsz⟩ := hrecv
    cases hs
    have hread : UInt64.ofNat R + size = UInt64.ofNat (R + size.toNat) := by
      rw [← Pos.ofNat_add, UInt64.ofNat_toNat]
    have hroom' : W ≤ R + size.toNat + s.size.toNat := by omega
    exact ⟨h.written, hread, hsz, hroom', h.send.mono (Nat.le_add_right _ _), trivial⟩

theorem step_inv {a : Act} (h : Inv s) (hC : RoomAtReturn s a) (hs : step s a = some s') :
    Inv s' := by
  obtain ⟨W, R, h⟩ := h
  cases a with
  | send data =>
    simp only [step] at hs
    split at hs
    · split_ifs at hs with hd
      cases hs
      exact ⟨W, R, h.written, h.read, h.le, h.room, ⟨h.written, hd⟩, h.recv⟩
    · cases hs
  | sender => exact ⟨_, R, sendStep_inv h hC hs⟩
  | receive maxSize | receiveSome maxSize =>
    simp only [step] at hs
    split at hs
    · cases hs
      exact ⟨W, R, h.written, h.read, h.le, h.room, h.send, h.read⟩
    · cases hs
  | receiver => exact ⟨W, _, recvStep_inv h hs⟩

/-- An early return without room leads to a state in which the call is about to
    overwrite unread bytes. -/
theorem step_overwrites {a : Act} (hC : ¬ RoomAtReturn s a) (hs : step s a = some s') :
    ¬ NoOverwrite s' := by
  cases a with
  | sender =>
    unfold RoomAtReturn at hC
    simp only [step, sendStep] at hs
    cases hpc : s.sendPc with
    | check data lw =>
      simp only [hpc, Classical.not_imp] at hC hs
      rw [if_pos hC.1] at hs
      cases hs
      exact fun h => hC.2 (h.2 data lw rfl)
    | idle | wait | copy | publish => simp [hpc] at hC
  | send | receive | receiveSome | receiver => exact absurd trivial hC

end

/-- **The ring is not overwritten iff no early return of `waitUntilSendFree` lacks
    room.** -/
theorem noOverwrite_iff (size cachedRemoteRead : UInt64) (acts : List Act) :
    AllStates step NoOverwrite (init size cachedRemoteRead) acts ↔
      Along step RoomAtReturn (init size cachedRemoteRead) acts :=
  allStates_iff_along (I := Inv) (fun _ ⟨_, _, h⟩ => h.noOverwrite)
    (fun _ _ _ h hC hs => step_inv h hC hs) (fun _ _ _ _ hC hs => step_overwrites hC hs) acts
    (inv_init size cachedRemoteRead)

def zeros : List UInt8 := List.replicate 4096 0

/-- Two sends of a whole ring, nothing read in between. -/
def twoFullSends : List Act :=
  [.send zeros, .sender, .sender, .sender, .sender, .send zeros, .sender, .sender, .sender]

theorem twoFullSends_overwrites :
    Pos.powerOfTwo 4096 = true ∧ (∀ data, Act.send data ∈ twoFullSends → data.length ≤ 4096) ∧
      ¬ AllStates step NoOverwrite (init 4096 0) twoFullSends := by
  refine ⟨by decide, ?_, ?_⟩
  · intro data hd
    obtain rfl : data = zeros := by simpa [twoFullSends] using hd
    decide +kernel
  · intro h
    have hused :
        ((run step (init 4096 0) twoFullSends).map fun s => (s.used, s.size)) =
          some (8192, 4096) := by decide +kernel
    obtain ⟨s, hs, he⟩ := Option.map_eq_some_iff.1 hused
    have hle := (h.last hs).1
    simp only [Prod.mk.injEq] at he
    rw [he.1, he.2] at hle
    exact absurd hle (by decide)

/-! ## The bytes in the ring -/

/-- The bytes of a call of `send` that are not published. -/
def SendPc.data : SendPc → List UInt8
  | .idle => []
  | .check data _ | .wait data _ | .copy data _ | .publish data _ => data

/-- Those of them that are in the ring. -/
def SendPc.copied : SendPc → List UInt8
  | .publish data _ => data
  | _ => []

/-- The bytes that a call of `receive` or `receiveSome` is about to give back. -/
def RecvPc.bytes : RecvPc → List UInt8
  | .publish bytes _ _ => bytes
  | _ => []

/-- What the ring holds when `W` bytes are published and `R` read. -/
structure Holds (s : State) (W R : ℕ) : Prop where
  pow : powerOfTwo s.size = true
  counters : InvAt s W R
  room : W + s.sendPc.data.length ≤ R + s.size.toNat
  input : s.input.length = W + s.sendPc.data.length
  pending : s.input.drop W = s.sendPc.data
  buf : ∀ p, R ≤ p → p < W + s.sendPc.copied.length →
    s.input[p]? = some (s.sender.localBuf (p % s.size.toNat))
  output : s.output = s.input.take R
  bytes : ∀ bytes size localRead, s.recvPc = .publish bytes size localRead →
    bytes = (s.input.drop R).take size.toNat

theorem holds_init {size : UInt64} (h : powerOfTwo size = true) (cachedRemoteRead : UInt64) :
    Holds (init size cachedRemoteRead) 0 0 where
  pow := h
  counters := ⟨rfl, rfl, le_rfl, Nat.zero_le _, trivial, trivial⟩
  room := Nat.zero_le _
  input := rfl
  pending := rfl
  buf := fun p _ hp => absurd hp (Nat.not_lt_zero p)
  output := rfl
  bytes := fun _ _ _ h => by cases h

section
variable {s s' : State} {W R : ℕ}

theorem Holds.pos_mod (h : Holds s W R) (a : ℕ) :
    (UInt64.ofNat a &&& s.bitmask).toNat = a % s.size.toNat :=
  Pos.ofNat_and_mask h.pow a

/-- With room for the bytes of the call, no early return is a mistake. -/
theorem Holds.roomAtReturn (h : Holds s W R) : RoomAtReturn s .sender := by
  unfold RoomAtReturn
  have hroom := h.room
  have hu := h.counters.used_toNat
  cases hpc : s.sendPc with
  | check data lw =>
    rw [hpc] at hroom
    dsimp only [SendPc.data] at hroom ⊢
    intro _
    have := h.counters.le
    omega
  | idle | wait | copy | publish => trivial

/-- Call `send`. -/
theorem Holds.send (h : Holds s W R) {data : List UInt8}
    (hroom : s.used.toNat + data.length ≤ s.size.toNat) (hs : step s (.send data) = some s') :
    Holds s' W R := by
  have hu := h.counters.used_toNat
  have hle := h.counters.le
  have hinput := h.input
  have hc := h.counters
  simp only [step] at hs
  split at hs
  next hpc =>
    rw [hpc] at hinput
    have hlen : s.input.length = W := hinput
    split_ifs at hs with hd
    cases hs
    refine ⟨h.pow, ⟨hc.written, hc.read, hle, hc.room, ⟨hc.written, hd⟩, hc.recv⟩, ?_, ?_, ?_, ?_,
      ?_, ?_⟩
    · dsimp only [SendPc.data]; omega
    · rw [List.length_append, hlen]; rfl
    · rw [← hlen, List.drop_left]; rfl
    · intro p hp hpW
      have hpW' : p < W := hpW
      have hbuf := h.buf p hp (by rw [hpc]; exact hpW')
      rw [List.getElem?_append_left (by omega), hbuf]
    · rw [h.output, List.take_append_of_le_length (by omega)]
    · intro bytes size lr hrecv
      have hbytes := h.bytes bytes size lr hrecv
      have hok := hc.recv
      rw [show s.recvPc = _ from hrecv] at hok
      have hsz := hok.2
      rw [hbytes, List.drop_append_of_le_length (by omega),
        List.take_append_of_le_length (by rw [List.length_drop]; omega)]
  next => cases hs

/-- The next step of `send`. -/
theorem Holds.sender (h : Holds s W R) (hs : sendStep s = some s') :
    Holds s' (W + s.sendPc.publishes) R := by
  have hc := sendStep_inv h.counters h.roomAtReturn hs
  have hroom := h.room
  have hinput := h.input
  have hpending := h.pending
  have hbuf := h.buf
  unfold sendStep at hs
  cases hpc : s.sendPc with
  | idle => rw [hpc] at hs; cases hs
  | check data lw =>
    rw [hpc] at hroom hinput hpending hbuf hc
    simp only [hpc] at hs
    split_ifs at hs <;>
      (cases hs; exact ⟨h.pow, hc, hroom, hinput, hpending, hbuf, h.output, h.bytes⟩)
  | wait data lw =>
    rw [hpc] at hroom hinput hpending hbuf hc
    simp only [hpc] at hs
    split_ifs at hs <;>
      (cases hs; exact ⟨h.pow, hc, hroom, hinput, hpending, hbuf, h.output, h.bytes⟩)
  | copy data lw =>
    have hsend := h.counters.send
    rw [hpc] at hroom hinput hpending hbuf hc hsend
    obtain ⟨rfl, -⟩ := hsend
    simp only [hpc] at hs
    cases hs
    refine ⟨h.pow, hc, hroom, hinput, hpending, ?_, h.output, h.bytes⟩
    intro p hp hpW
    have hpW' : p < W + data.length := hpW
    have hroom' : W + data.length ≤ R + s.size.toNat := hroom
    have hpending' : s.input.drop W = data := hpending
    have hle := h.counters.le
    dsimp only
    rw [h.pos_mod]
    have hmap : Ring.Maps s.phys s.size.toNat (W % s.size.toNat) W data.length :=
      Ring.maps_mod _ _ _
    rcases Nat.lt_or_ge p W with hlt | hge
    · rw [Ring.write_before hmap hlt (by omega)]
      exact hbuf p hp hlt
    · obtain ⟨i, rfl⟩ := Nat.exists_eq_add_of_le hge
      have hi : i < data.length := by omega
      have hget := List.getElem?_eq_getElem hi
      rw [Ring.write_pos hmap (by omega) hget, ← hget, ← List.getElem?_drop, hpending']
  | publish data lw =>
    rw [hpc] at hroom hinput hpending hbuf hc
    simp only [hpc] at hs
    cases hs
    refine ⟨h.pow, hc, hroom, hinput, ?_, hbuf, h.output, h.bytes⟩
    have hdrop := congrArg (List.drop data.length) hpending
    rw [List.drop_drop] at hdrop
    exact hdrop.trans List.drop_length

/-- Call `receive` or `receiveSome`. -/
theorem Holds.call (h : Holds s W R) (some? : Bool) (maxSize : UInt64) :
    Holds { s with recvPc := .wait some? maxSize s.receiver.localRw.read } W R :=
  have hc := h.counters
  ⟨h.pow, ⟨hc.written, hc.read, hc.le, hc.room, hc.send, hc.read⟩, h.room, h.input, h.pending,
    h.buf, h.output, fun _ _ _ h => by cases h⟩

/-- The next step of `receive` or `receiveSome`. -/
theorem Holds.receiver (h : Holds s W R) (hs : recvStep s = some s') :
    Holds s' W (R + s.recvPc.publishes) := by
  have hc := recvStep_inv h.counters hs
  have hrecv := h.counters.recv
  have hroom := h.room
  have hinput := h.input
  unfold recvStep at hs
  cases hpc : s.recvPc with
  | idle => rw [hpc] at hs; cases hs
  | wait some? maxSize lr =>
    rw [hpc] at hc
    simp only [hpc] at hs
    split_ifs at hs <;> cases hs
    · exact ⟨h.pow, hc, hroom, hinput, h.pending, h.buf, h.output, h.bytes⟩
    · exact ⟨h.pow, hc, hroom, hinput, h.pending, h.buf, h.output, fun _ _ _ h => by cases h⟩
    · exact ⟨h.pow, hc, hroom, hinput, h.pending, h.buf, h.output, h.bytes⟩
    · exact ⟨h.pow, hc, hroom, hinput, h.pending, h.buf, h.output, fun _ _ _ h => by cases h⟩
  | load maxSize lr =>
    rw [hpc] at hc
    simp only [hpc] at hs
    cases hs
    exact ⟨h.pow, hc, hroom, hinput, h.pending, h.buf, h.output, fun _ _ _ h => by cases h⟩
  | copy size lr =>
    rw [hpc] at hc hrecv
    obtain ⟨rfl, hsz⟩ := hrecv
    simp only [hpc] at hs
    cases hs
    refine ⟨h.pow, hc, hroom, hinput, h.pending, h.buf, h.output, ?_⟩
    intro bytes size' lr' he
    cases he
    show _ = (s.input.drop R).take size.toNat
    rw [h.pos_mod]
    have hmap : Ring.Maps s.phys s.size.toNat (R % s.size.toNat) R size.toNat :=
      Ring.maps_mod _ _ _
    ext i : 1
    rcases Nat.lt_or_ge i size.toNat with hi | hi
    · rw [Ring.read_pos hmap hi, List.getElem?_take_of_lt hi, List.getElem?_drop,
        h.buf (R + i) (by omega) (by omega)]
    · rw [List.getElem?_eq_none (by rw [Mem.length_read]; exact hi),
        List.getElem?_take_eq_none hi]
  | publish bytes size lr =>
    have hbytes := h.bytes bytes size lr hpc
    rw [hpc] at hc
    simp only [hpc] at hs
    cases hs
    refine ⟨h.pow, hc, ?_, hinput, h.pending, ?_, ?_, fun _ _ _ h => by cases h⟩
    · dsimp only [RecvPc.publishes]; omega
    · intro p hp hpW
      exact h.buf p (le_of_add_le_left hp) hpW
    · show s.output ++ bytes = s.input.take (R + size.toNat)
      rw [h.output, hbytes, List.take_add]

/-- What the sender leaves as it is. -/
theorem sendStep_frame (hs : sendStep s = some s') :
    s'.size = s.size ∧ s'.input = s.input ∧ s'.output = s.output ∧ s'.recvPc = s.recvPc := by
  unfold sendStep at hs
  cases hpc : s.sendPc with
  | idle => rw [hpc] at hs; cases hs
  | check | wait =>
    simp only [hpc] at hs
    split_ifs at hs <;> (cases hs; exact ⟨rfl, rfl, rfl, rfl⟩)
  | copy | publish => simp only [hpc] at hs; cases hs; exact ⟨rfl, rfl, rfl, rfl⟩

/-- What the receiver leaves as it is, and what it gives back. -/
theorem recvStep_frame (hs : recvStep s = some s') :
    s'.size = s.size ∧ s'.input = s.input ∧ s'.output = s.output ++ s.recvPc.bytes := by
  unfold recvStep at hs
  cases hpc : s.recvPc with
  | idle => rw [hpc] at hs; cases hs
  | wait =>
    simp only [hpc] at hs
    split_ifs at hs <;> (cases hs; exact ⟨rfl, rfl, (List.append_nil _).symm⟩)
  | load | copy => simp only [hpc] at hs; cases hs; exact ⟨rfl, rfl, (List.append_nil _).symm⟩
  | publish => simp only [hpc] at hs; cases hs; exact ⟨rfl, rfl, rfl⟩

end

end VirtualRingBuffer

end L5RDMA
