/-
  The RDMA transport over its ring.

  `calls_refine`: the calls of the reader end as they would over a list of
  messages, one for each chunk of what has been written, in whatever order the
  ends and the network card go on.  `sameSizes_returned`: reads of the sizes of
  the writes get what was written.

  * `Performed`: calls that have ended, and the messages that they have left;
  * `Serves`: how far the call of the ring is that a call of the reader waits for;
  * `InvSmall`: small writes are INLINE, so that no condition on the order of the
    steps is needed.
-/
import L5RDMA.RdmaConnection
import L5RDMA.Proof.FailedReceive
import L5RDMA.Proof.RdmaTransport

namespace L5RDMA

namespace Rdma

/-! ## Chunks -/

theorem loop_fuel {limit fuel fuel' rest : ℕ} (hl : 0 < limit) (h : rest ≤ fuel)
    (h' : rest ≤ fuel') : loop limit fuel rest = loop limit fuel' rest := by
  induction fuel generalizing fuel' rest with
  | zero =>
    obtain rfl := Nat.le_zero.1 h
    cases fuel' <;> rfl
  | succ fuel ih =>
    cases fuel' with
    | zero => obtain rfl := Nat.le_zero.1 h'; rfl
    | succ fuel' =>
      unfold loop
      split_ifs with h0
      · rfl
      · exact congrArg _ (ih (by omega) (by omega))

section
variable {n : ℕ}

theorem chunks_pos (h : 16 < n) {size : ℕ} (hpos : 0 < size) :
    chunks n size = min size (n - 2 * 8) :: chunks n (size - min size (n - 2 * 8)) := by
  obtain ⟨k, rfl⟩ := Nat.exists_eq_succ_of_ne_zero hpos.ne'
  rw [chunks, loop, if_neg (Nat.succ_ne_zero k)]
  exact congrArg _ (loop_fuel (by omega) (by omega) le_rfl)

@[simp] theorem writeImpl_nil (n : ℕ) : writeImpl n [] = [] := rfl

theorem writeImpl_cons (h : 16 < n) {data : List UInt8} (hne : data ≠ []) :
    writeImpl n data = data.take (min data.length (n - 2 * 8)) ::
      writeImpl n (data.drop (min data.length (n - 2 * 8))) := by
  rw [writeImpl, chunks_pos h (List.length_pos_iff.2 hne), List.splitLengths_cons, writeImpl,
    List.length_drop]

end

namespace Connection

open Run Verbs Channel
open Pos (powerOfTwo)
open VirtualRDMARingBuffer (V InvClean FillSafe)

/-! ## Calls over a list of messages -/

section
variable {n : ℕ} {cs ds : List ℕ} {R R' T M : Ring} {ask : Ask} {asks more : List Ask}
  {outcome : Outcome} {ended : List Outcome}

/-- More messages do not change what is done with the first ones. -/
theorem takeChunks_mono {buffer : Option Buffer} (h : takeChunks cs R = some (buffer, R'))
    (T : Ring) : takeChunks cs (R ++ T) = some (buffer, R' ++ T) := by
  induction cs generalizing R buffer with
  | nil => cases h; rfl
  | cons c cs ih =>
    cases R with
    | nil => cases h
    | cons msg R =>
      rw [List.cons_append, takeChunks]
      rw [takeChunks] at h
      split_ifs at h ⊢ with hlong
      · cases h; rfl
      · obtain ⟨⟨b, R₁⟩, hb, he⟩ := Option.map_eq_some_iff.1 h
        cases he
        rw [ih hb]; rfl

theorem takeChunks_append {cells : Buffer} (h : takeChunks cs R = some (some cells, R')) :
    takeChunks (cs ++ ds) R =
      (takeChunks ds R').map fun (buffer, ring) => (buffer.map (cells ++ ·), ring) := by
  induction cs generalizing R cells with
  | nil =>
    cases h
    simp
  | cons c cs ih =>
    cases R with
    | nil => cases h
    | cons msg R =>
      rw [List.cons_append, takeChunks]
      rw [takeChunks] at h
      split_ifs at h ⊢ with hlong
      · cases h
      · obtain ⟨⟨b, R₁⟩, hb, he⟩ := Option.map_eq_some_iff.1 h
        cases b with
        | none => cases he
        | some b =>
          cases he
          rw [ih hb, Option.map_map]
          congr 1
          funext ⟨b', r⟩
          cases b' <;> simp

theorem perform_mono (h : ask.perform n R = some (outcome, R')) (T : Ring) :
    ask.perform n (R ++ T) = some (outcome, R' ++ T) := by
  cases ask with
  | read size =>
    obtain ⟨⟨b, R₁⟩, hb, he⟩ := Option.map_eq_some_iff.1 h
    cases he
    rw [Ask.perform, takeChunks_mono hb]; rfl
  | readSome maxSize =>
    simp only [Ask.perform] at h ⊢
    split_ifs at h ⊢ with hlarge
    · cases h; rfl
    · cases R with
      | nil => cases h
      | cons msg R =>
        rw [List.cons_append]
        dsimp only at h ⊢
        split_ifs at h ⊢ <;> (cases h; rfl)

/-- The calls `asks` have ended with `ended`, and the messages `R` of `M` are left. -/
inductive Performed (n : ℕ) (M : Ring) : List Ask → List Outcome → Ring → Prop
  | nil : Performed n M [] [] M
  | snoc {asks : List Ask} {ended : List Outcome} {R R' : Ring} {ask : Ask} {outcome : Outcome}
      (h : Performed n M asks ended R) (ho : ask.perform n R = some (outcome, R')) :
      Performed n M (asks ++ [ask]) (ended ++ [outcome]) R'

theorem Performed.mono (h : Performed n M asks ended R) (T : Ring) :
    Performed n (M ++ T) asks ended (R ++ T) := by
  induction h with
  | nil => exact .nil
  | snoc _ ho ih => exact ih.snoc (perform_mono ho T)

theorem Performed.outcomes (h : Performed n M asks ended R) (more : List Ask) :
    outcomes n (asks ++ more) M = ended ++ Connection.outcomes n more R := by
  induction h generalizing more with
  | nil => rfl
  | snoc _ ho ih =>
    rw [List.append_assoc, ih, List.append_assoc, List.singleton_append, Connection.outcomes, ho]
    rfl

end

/-! ## The ring -/

/-- In `receive(whereTo, chunk)`. -/
def InCall (chunk : UInt64) : RecvPc → Prop
  | .idle => False
  | .size limit _ | .check limit _ _ | .found limit _ => limit = some chunk
  | .clear bytes _ | .publish bytes _ => bytes.length ≤ chunk.toNat

section
variable {B : ℕ} {ring ring' : VirtualRDMARingBuffer.State} {chunk : UInt64}

theorem invClean_of_ne_send {b : VirtualRDMARingBuffer.Act} (h : InvClean B ring)
    (hb : ∀ data, b ≠ .send data) (hs : VirtualRDMARingBuffer.step ring b = some ring') :
    InvClean B ring' := by
  have hfree : VirtualRDMARingBuffer.Admitted ring b ∧ VirtualRDMARingBuffer.PatternFree b ∧
      FillSafe ring b := by
    cases b with
    | send data => exact absurd rfl (hb data)
    | sender | receive | load | receiver | land | complete => exact ⟨trivial, trivial, trivial⟩
  exact VirtualRDMARingBuffer.step_invClean h hfree.1 hfree.2.1 hfree.2.2 hs

/-- The message that is found is the next one. -/
theorem next_of_found (h : InvClean B ring) {limit : Option UInt64} {receiveSize : UInt64}
    (hpc : ring.recvPc = .found limit receiveSize) :
    ∃ p, ring.received ++ [p] <+: ring.sent ∧ receiveSize.toNat = p.length := by
  obtain ⟨⟨F, Z, A, C, h⟩, -⟩ := h
  have hrecv := h.recv
  rw [hpc] at hrecv
  obtain ⟨-, p, hp, rfl⟩ := hrecv
  exact ⟨p, hp.1.trans h.posted, toNat_length (h.chan.fits p (hp.1.subset (by simp)))⟩

theorem next_of_publish (h : InvClean B ring) {bytes : List UInt8} {receiveSize : UInt64}
    (hpc : ring.recvPc = .publish bytes receiveSize) : ring.received ++ [bytes] <+: ring.sent := by
  obtain ⟨⟨F, Z, A, C, h⟩, -⟩ := h
  have hrecv := h.recv
  rw [hpc] at hrecv
  exact hrecv.2.1.1.trans h.posted

theorem inCall_poll {v : UInt64} {byteAt : ℕ → ℕ → UInt8} {is : List ℕ} {pc pc' : RecvPc}
    (h : InCall chunk pc) (hs : poll v byteAt is pc = some pc') : InCall chunk pc' := by
  have hat : pc.AtCall chunk := by
    cases pc with
    | idle | found | clear | publish => cases hs
    | size | check => exact h
  have hat' := Receiver.poll_atCall hat hs
  cases pc' with
  | idle =>
    -- the polling loop does not return
    cases pc with
    | idle | found | clear | publish => cases hs
    | size limit got =>
      simp only [poll] at hs
      split at hs <;> cases hs
    | check limit receiveSize got =>
      simp only [poll] at hs
      split at hs
      · cases hs
      · split_ifs at hs <;> cases hs
  | size | check | found => exact hat'
  | clear | publish => exact hat'.elim

/-- What `receive` does behind its polling loop, if it does not return. -/
theorem receiver_cases (h : InCall chunk ring.recvPc)
    (hpub : ∀ bytes receiveSize, ring.recvPc ≠ .publish bytes receiveSize)
    (hs : VirtualRDMARingBuffer.step ring .receiver = some ring') :
    ring'.received = ring.received ∧
      (InCall chunk ring'.recvPc ∨ ring'.recvPc = .idle ∧
        ∃ receiveSize, ring.recvPc = .found (some chunk) receiveSize ∧ chunk < receiveSize) := by
  simp only [VirtualRDMARingBuffer.step, VirtualRDMARingBuffer.recvStep] at hs
  cases hpc : ring.recvPc with
  | idle | size | check => rw [hpc] at hs; cases hs
  | publish bytes receiveSize => exact absurd hpc (hpub bytes receiveSize)
  | found limit receiveSize =>
    rw [hpc] at h
    obtain rfl : limit = some chunk := h
    simp only [hpc] at hs
    split_ifs at hs with hlong
    · cases hs
      exact ⟨rfl, Or.inr ⟨rfl, receiveSize, rfl, by simpa using hlong⟩⟩
    · cases hs
      refine ⟨rfl, Or.inl ?_⟩
      simp only [InCall, Mem.length_read]
      rw [← UInt64.le_iff_toNat_le]
      simpa using hlong
  | clear bytes receiveSize =>
    rw [hpc] at h
    simp only [hpc] at hs
    cases hs
    exact ⟨rfl, Or.inl h⟩

theorem publish_cases {bytes : List UInt8} {receiveSize : UInt64}
    (hpc : ring.recvPc = .publish bytes receiveSize)
    (hs : VirtualRDMARingBuffer.step ring .receiver = some ring') :
    ring'.received = ring.received ++ [bytes] ∧ ring'.recvPc = .idle := by
  simp only [VirtualRDMARingBuffer.step, VirtualRDMARingBuffer.recvStep, hpc] at hs
  cases hs
  exact ⟨rfl, rfl⟩

/-- A call of `receive` that throws, or begins. -/
theorem receive_cases (hs : VirtualRDMARingBuffer.step ring (.receive (some chunk)) = some ring') :
    ring'.received = ring.received ∧
      (ring'.recvPc = .idle ∧ 8 + chunk + 8 > ring.size ∨
        InCall chunk ring'.recvPc ∧ ¬ 8 + chunk + 8 > ring.size) := by
  simp only [VirtualRDMARingBuffer.step] at hs
  split at hs
  case h_2 => cases hs
  case h_1 hidle =>
    cases hs
    simp only [VirtualRDMARingBuffer.receive]
    split_ifs with hlarge
    · exact ⟨rfl, Or.inl ⟨hidle, hlarge⟩⟩
    · exact ⟨rfl, Or.inr ⟨rfl, hlarge⟩⟩

/-- A call of `send` that does not throw. -/
theorem send_cases {data : List UInt8} (hfits : data.length + 16 ≤ ring.size.toNat)
    (hs : VirtualRDMARingBuffer.step ring (.send data) = some ring') :
    ring'.sent = ring.sent ++ [data] ∧ ring'.sendPc ≠ .idle := by
  simp only [VirtualRDMARingBuffer.step] at hs
  split at hs
  case h_2 => cases hs
  case h_1 =>
    cases hs
    have hle : ¬ 8 + Pos.lengthOf data + 8 > ring.size := not_frameSize_gt hfits
    constructor
    · simp only [VirtualRDMARingBuffer.send, if_neg hle]
    · simp only [VirtualRDMARingBuffer.send, if_neg hle]
      exact VirtualRDMARingBuffer.SendPc.noConfusion

end

/-! ## The invariant -/

/-- What the writes come to. -/
def State.messages (s : State) : Ring := s.written.flatMap (Rdma.writeImpl s.bufferSize.toNat)

/-- The bytes that the next `send` is called with. -/
def State.chunk (s : State) (data : List UInt8) : List UInt8 :=
  data.take (min data.length (s.bufferSize - 2 * 8).toNat)

/-- Where the call of the reader is, with the messages `R` left of `M`. -/
def Serves (bufferSize : UInt64) (M R : Ring) (asked : List Ask) (ended : List Outcome) :
    ReadPc → RecvPc → Prop
  | .idle, pc => pc = .idle ∧ Performed bufferSize.toNat M asked ended R
  | .read size i cells, pc => ∃ asks R₀ done, asked = asks ++ [.read size] ∧
      Performed bufferSize.toNat M asks ended R₀ ∧ i ≤ size ∧
      chunks bufferSize.toNat size.toNat =
        done ++ chunks bufferSize.toNat (size.toNat - i.toNat) ∧
      takeChunks done R₀ = some (some cells, R) ∧
      (pc = .idle ∨ i < size ∧ InCall (min (size - i) (bufferSize - 2 * 8)) pc)
  | .readSome maxSize, pc => ∃ asks, asked = asks ++ [.readSome maxSize] ∧
      Performed bufferSize.toNat M asks ended R ∧
      min maxSize.toNat bufferSize.toNat + 16 ≤ bufferSize.toNat ∧
      InCall (min maxSize bufferSize) pc

structure Inv (s : State) : Prop where
  ring : InvClean 0 s.ring
  room : 16 < s.bufferSize.toNat
  sent : s.messages = s.ring.sent ++ Rdma.writeImpl s.bufferSize.toNat (s.writing.getD [])
  threw : s.writeThrew = false
  serves : Serves s.bufferSize s.messages (s.messages.drop s.ring.received.length) s.asked s.ended
    s.reading s.ring.recvPc

/-- A chunk that is sent does not contain the bytes of `validity`, and its fill of the staging ring
    replaces none that a posted write has yet to read. -/
def Safe (s : State) : Act → Prop
  | .writer => ∀ data ∈ s.writing, data ≠ [] → s.ring.sendPc = .idle →
      ¬ V <:+: s.chunk data ∧ FillSafe s.ring (.send (s.chunk data))
  | _ => True

theorem inv_init {bufferSize : UInt64} (hpow : powerOfTwo bufferSize = true)
    (hroom : 16 < bufferSize.toNat) : Inv (init bufferSize) where
  ring := VirtualRDMARingBuffer.invClean_start hpow 0
  room := hroom
  sent := rfl
  threw := rfl
  serves := ⟨rfl, .nil⟩

theorem Performed.length {n : ℕ} {M R : Ring} {asks : List Ask} {ended : List Outcome}
    (h : Performed n M asks ended R) : asks.length = ended.length := by
  induction h with
  | nil => rfl
  | snoc _ _ ih => rw [List.length_append, List.length_append, ih]; rfl

/-- **The calls have ended** as they do over the messages. -/
theorem Inv.refines {s : State} (h : Inv s) :
    s.ended <+: outcomes s.bufferSize.toNat s.asked s.messages ∧
      s.asked.length ≤ s.ended.length + 1 := by
  have hserves := h.serves
  cases hr : s.reading with
  | idle =>
    rw [hr] at hserves
    have hp := hserves.2
    rw [← List.append_nil s.asked, hp.outcomes, List.append_nil, hp.length]
    exact ⟨List.prefix_append _ _, Nat.le_succ _⟩
  | read size i cells =>
    rw [hr] at hserves
    obtain ⟨asks, R₀, done, hasked, hp, -⟩ := hserves
    rw [hasked, hp.outcomes, List.length_append, hp.length]
    exact ⟨List.prefix_append _ _, le_rfl⟩
  | readSome maxSize =>
    rw [hr] at hserves
    obtain ⟨asks, hasked, hp, -⟩ := hserves
    rw [hasked, hp.outcomes, List.length_append, hp.length]
    exact ⟨List.prefix_append _ _, le_rfl⟩

section
variable {bufferSize : UInt64} {M R : Ring} {asked : List Ask} {ended : List Outcome}
  {reading : ReadPc} {pc pc' : RecvPc}

theorem Serves.mono (h : Serves bufferSize M R asked ended reading pc) (T : Ring) :
    Serves bufferSize (M ++ T) (R ++ T) asked ended reading pc := by
  cases reading with
  | idle => exact ⟨h.1, h.2.mono T⟩
  | read size i cells =>
    obtain ⟨asks, R₀, done, hasked, hp, hi, hdone, htake, hpc⟩ := h
    exact ⟨asks, R₀ ++ T, done, hasked, hp.mono T, hi, hdone, takeChunks_mono htake T, hpc⟩
  | readSome maxSize =>
    obtain ⟨asks, hasked, hp, hle, hpc⟩ := h
    exact ⟨asks, hasked, hp.mono T, hle, hpc⟩

/-- The call of the ring goes on. -/
theorem Serves.goesOn (h : Serves bufferSize M R asked ended reading pc)
    (hpc : ∀ chunk, InCall chunk pc → InCall chunk pc') (hbusy : pc ≠ .idle) :
    Serves bufferSize M R asked ended reading pc' := by
  cases reading with
  | idle => exact absurd h.1 hbusy
  | read size i cells =>
    obtain ⟨asks, R₀, done, hasked, hp, hi, hdone, htake, hor⟩ := h
    obtain ⟨hlt, hin⟩ := hor.resolve_left hbusy
    exact ⟨asks, R₀, done, hasked, hp, hi, hdone, htake, Or.inr ⟨hlt, hpc _ hin⟩⟩
  | readSome maxSize =>
    obtain ⟨asks, hasked, hp, hle, hin⟩ := h
    exact ⟨asks, hasked, hp, hle, hpc _ hin⟩

end

section
variable {s s' : State} {a : Act}

/-- What a step does to the ring, and to the data that `write` has still to send. -/
theorem ring_cases (hs : step s a = some s') :
    (s'.ring = s.ring ∨
      ∃ b, VirtualRDMARingBuffer.step s.ring b = some s'.ring ∧ ∀ data, b = .send data →
        a = .writer ∧ ∃ todo, s.writing = some todo ∧ todo ≠ [] ∧ s.ring.sendPc = .idle ∧
          data = s.chunk todo) ∧
    ∀ data ∈ s'.writing, data ∈ s.writing ∨ a = .write data ∨
      ∃ todo ∈ s.writing, ∃ k, data = todo.drop k := by
  have hno {b : VirtualRDMARingBuffer.Act} (hb : ∀ data, b ≠ .send data) (data : List UInt8)
      (hd : b = .send data) : a = .writer ∧ ∃ todo, s.writing = some todo ∧ todo ≠ [] ∧
        s.ring.sendPc = .idle ∧ data = s.chunk todo := absurd hd (hb data)
  have hreceive {t : State} {maxSize : UInt64} (hs : receive t maxSize = some s') :
      VirtualRDMARingBuffer.step t.ring (.receive (some maxSize)) = some s'.ring ∧
        s'.writing = t.writing := by
    obtain ⟨ring, hring, rfl⟩ := Option.map_eq_some_iff.1 hs
    rw [hring]
    split <;> exact ⟨rfl, rfl⟩
  have hreceiving (hs : receiving s = some s') :
      VirtualRDMARingBuffer.step s.ring .receiver = some s'.ring ∧ s'.writing = s.writing := by
    obtain ⟨ring, hring, rfl⟩ := Option.map_eq_some_iff.1 hs
    rw [hring]
    split <;> exact ⟨rfl, rfl⟩
  cases a with
  | write data =>
    simp only [step] at hs
    split at hs
    · cases hs
      exact ⟨Or.inl rfl, fun _ hd => Or.inr (Or.inl (by cases hd; rfl))⟩
    · cases hs
  | read size =>
    simp only [step] at hs
    split at hs
    · cases hs
      exact ⟨Or.inl rfl, fun _ hd => Or.inl hd⟩
    · cases hs
  | readSome maxSize =>
    simp only [step] at hs
    split at hs
    · obtain ⟨hring, hw⟩ := @hreceive { s with reading := .readSome maxSize, asked := _ } _ hs
      exact ⟨Or.inr ⟨_, hring, hno fun _ => VirtualRDMARingBuffer.Act.noConfusion⟩,
        fun _ hd => Or.inl (hw ▸ hd)⟩
    · cases hs
  | load | land | complete =>
    obtain ⟨ring, hring, rfl⟩ := Option.map_eq_some_iff.1 hs
    exact ⟨Or.inr ⟨_, hring, hno fun _ => VirtualRDMARingBuffer.Act.noConfusion⟩,
      fun _ hd => Or.inl hd⟩
  | writer =>
    simp only [step, writeImpl] at hs
    split at hs
    · cases hs
    · next todo hw =>
      split at hs
      · next hidle =>
        split_ifs at hs with hne
        · cases hs
          exact ⟨Or.inl rfl, fun _ hd => by cases hd⟩
        · obtain ⟨ring, hring, rfl⟩ := Option.map_eq_some_iff.1 hs
          refine ⟨Or.inr ⟨_, hring.trans ?_, fun data hd => ?_⟩, fun data hd => ?_⟩
          · split <;> rfl
          · cases hd
            exact ⟨rfl, todo, hw, hne, hidle, rfl⟩
          · split at hd
            · cases hd
            · cases hd
              exact Or.inr (Or.inr ⟨todo, hw, _, rfl⟩)
      · obtain ⟨ring, hring, rfl⟩ := Option.map_eq_some_iff.1 hs
        exact ⟨Or.inr ⟨_, hring, hno fun _ => VirtualRDMARingBuffer.Act.noConfusion⟩,
          fun _ hd => Or.inl hd⟩
  | reader =>
    simp only [step, readImpl] at hs
    split at hs
    · cases hs
    · split at hs
      · split_ifs at hs
        · obtain ⟨hring, hw⟩ := hreceive hs
          exact ⟨Or.inr ⟨_, hring, hno fun _ => VirtualRDMARingBuffer.Act.noConfusion⟩,
            fun _ hd => Or.inl (hw ▸ hd)⟩
        · cases hs
          exact ⟨Or.inl rfl, fun _ hd => Or.inl hd⟩
      · obtain ⟨ring, hring, rfl⟩ := Option.map_eq_some_iff.1 hs
        exact ⟨Or.inr ⟨_, hring, hno fun _ => VirtualRDMARingBuffer.Act.noConfusion⟩,
          fun _ hd => Or.inl hd⟩
      · obtain ⟨hring, hw⟩ := hreceiving hs
        exact ⟨Or.inr ⟨_, hring, hno fun _ => VirtualRDMARingBuffer.Act.noConfusion⟩,
          fun _ hd => Or.inl (hw ▸ hd)⟩
    · split at hs
      · obtain ⟨ring, hring, rfl⟩ := Option.map_eq_some_iff.1 hs
        exact ⟨Or.inr ⟨_, hring, hno fun _ => VirtualRDMARingBuffer.Act.noConfusion⟩,
          fun _ hd => Or.inl hd⟩
      · obtain ⟨hring, hw⟩ := hreceiving hs
        exact ⟨Or.inr ⟨_, hring, hno fun _ => VirtualRDMARingBuffer.Act.noConfusion⟩,
          fun _ hd => Or.inl (hw ▸ hd)⟩

theorem limit_toNat (h : Inv s) : (s.bufferSize - 2 * 8).toNat = s.bufferSize.toNat - 2 * 8 := by
  have hle : (2 * 8 : UInt64) ≤ s.bufferSize := by
    rw [UInt64.le_iff_toNat_le]
    exact h.room.le
  exact UInt64.toNat_sub_of_le _ _ hle

theorem length_chunk (h : Inv s) (data : List UInt8) :
    (s.chunk data).length + 16 ≤ s.bufferSize.toNat := by
  have hroom := h.room
  rw [State.chunk, List.length_take, limit_toNat h]
  omega

/-- The ring keeps its invariant. -/
theorem invClean_step (h : Inv s) (hsafe : Safe s a) (hs : step s a = some s') :
    InvClean 0 s'.ring := by
  rcases (ring_cases hs).1 with hring | ⟨b, hring, hsend⟩
  · rw [hring]; exact h.ring
  · have hall : VirtualRDMARingBuffer.Admitted s.ring b ∧ VirtualRDMARingBuffer.PatternFree b ∧
        FillSafe s.ring b := by
      cases b with
      | send data =>
        obtain ⟨rfl, todo, hw, hne, hidle, rfl⟩ := hsend data rfl
        exact ⟨length_chunk h todo, hsafe todo hw hne hidle⟩
      | sender | receive | load | receiver | land | complete => exact ⟨trivial, trivial, trivial⟩
    exact VirtualRDMARingBuffer.step_invClean h.ring hall.1 hall.2.1 hall.2.2 hring

/-- What the ring has given back is in the messages. -/
theorem Inv.received_le (h : Inv s) : s.ring.received.length ≤ s.messages.length := by
  have hle := h.ring.delivered.length_le
  rw [h.sent, List.length_append]
  omega

/-- The next message. -/
theorem Inv.drop_received (h : Inv s) {p : List UInt8}
    (hp : s.ring.received ++ [p] <+: s.ring.sent) :
    s.messages.drop s.ring.received.length =
      p :: s.messages.drop (s.ring.received ++ [p]).length := by
  obtain ⟨T, hT⟩ := hp
  rw [h.sent, ← hT, List.append_assoc _ T, List.drop_left, List.append_assoc, List.drop_left]
  rfl

/-- The ring goes on, and the reader with it. -/
theorem Inv.withRing (h : Inv s) {ring : VirtualRDMARingBuffer.State} (hring : InvClean 0 ring)
    (hsize : ring.size = s.ring.size) (hsent : ring.sent = s.ring.sent) {reading : ReadPc}
    {asked : List Ask} {ended : List Outcome}
    (hserves : Serves s.bufferSize s.messages (s.messages.drop ring.received.length) asked ended
      reading ring.recvPc) :
    Inv { s with ring := ring, reading := reading, asked := asked, ended := ended } := by
  have hbuf : State.bufferSize
      { s with ring := ring, reading := reading, asked := asked, ended := ended } = s.bufferSize :=
    hsize
  have hmsg : State.messages
      { s with ring := ring, reading := reading, asked := asked, ended := ended } = s.messages := by
    rw [State.messages, hbuf]; rfl
  refine ⟨hring, hbuf ▸ h.room, ?_, h.threw, by rw [hmsg, hbuf]; exact hserves⟩
  rw [hmsg, hbuf, h.sent, hsent]

/-! ## The writer -/

theorem inv_write (h : Inv s) (hw : s.writing = none) (data : List UInt8) :
    Inv { s with writing := some data, written := s.written ++ [data] } := by
  have hmsg : State.messages { s with writing := some data, written := s.written ++ [data] } =
      s.messages ++ Rdma.writeImpl s.bufferSize.toNat data := by
    rw [State.messages, List.flatMap_append, List.flatMap_singleton]; rfl
  have hsent := h.sent
  rw [hw, Option.getD_none, writeImpl_nil, List.append_nil] at hsent
  refine ⟨h.ring, h.room, ?_, h.threw, ?_⟩
  · rw [hmsg, hsent]; rfl
  · have hserves := h.serves.mono (Rdma.writeImpl s.bufferSize.toNat data)
    rw [← List.drop_append_of_le_length h.received_le, ← hmsg] at hserves
    exact hserves

/-- A step of the ring that is not the receiver's. -/
theorem inv_apart (h : Inv s) {b : VirtualRDMARingBuffer.Act} {ring : VirtualRDMARingBuffer.State}
    (hring : InvClean 0 ring) (hs : VirtualRDMARingBuffer.step s.ring b = some ring)
    (hb : VirtualRDMARingBuffer.receiver.own b = false) (hsend : ∀ data, b ≠ .send data) :
    Inv { s with ring := ring } := by
  have hapart := VirtualRDMARingBuffer.step_apart hb hs
  obtain ⟨hsize, hsent, -⟩ := VirtualRDMARingBuffer.step_frame hs
  have hsent := hsent.resolve_right fun ⟨data, hd, _⟩ => hsend data hd
  have hreceived : ring.received = s.ring.received := hapart.received
  have hpc : ring.recvPc = s.ring.recvPc := hapart.pc
  refine h.withRing hring hsize hsent ?_
  rw [hreceived, hpc]
  exact h.serves

/-- `write_impl` returns, sends the next chunk, or goes on with `send`. -/
theorem writeImpl_cases (hs : writeImpl s = some s') : ∃ data, s.writing = some data ∧
    (data = [] ∧ s' = { s with writing := none } ∨
      (data ≠ [] ∧ ∃ ring, VirtualRDMARingBuffer.step s.ring (.send (s.chunk data)) = some ring ∧
        (ring.sendPc ≠ .idle → s' = { s with
          ring := ring, writing := some (data.drop (s.chunk data).length) })) ∨
      ∃ ring, VirtualRDMARingBuffer.step s.ring .sender = some ring ∧
        s' = { s with ring := ring }) := by
  simp only [writeImpl] at hs
  split at hs
  · cases hs
  · next data hw =>
    refine ⟨data, hw, ?_⟩
    split at hs
    · split_ifs at hs with hne
      · cases hs
        exact Or.inl ⟨hne, rfl⟩
      · obtain ⟨ring, hring, rfl⟩ := Option.map_eq_some_iff.1 hs
        refine Or.inr (Or.inl ⟨hne, ring, hring, fun hbusy => ?_⟩)
        have hlen : (s.chunk data).length = min data.length (s.bufferSize - 2 * 8).toNat := by
          rw [State.chunk, List.length_take]; omega
        split
        · next hidle => exact absurd hidle hbusy
        · rw [hlen]
    · obtain ⟨ring, hring, rfl⟩ := Option.map_eq_some_iff.1 hs
      exact Or.inr (Or.inr ⟨ring, hring, rfl⟩)

theorem messages_chunk (h : Inv s) {data : List UInt8} (hne : data ≠ []) :
    Rdma.writeImpl s.bufferSize.toNat data =
      s.chunk data :: Rdma.writeImpl s.bufferSize.toNat (data.drop (s.chunk data).length) := by
  have hlen : (s.chunk data).length = min data.length (s.bufferSize.toNat - 2 * 8) := by
    rw [State.chunk, List.length_take, limit_toNat h]; omega
  rw [writeImpl_cons h.room hne, hlen, State.chunk, limit_toNat h]

theorem inv_writer (h : Inv s) (hsafe : Safe s .writer) (hs : writeImpl s = some s') : Inv s' := by
  have hclean := invClean_step (a := .writer) h hsafe hs
  have hsent := h.sent
  obtain ⟨data, hw, hcases⟩ := writeImpl_cases hs
  rw [hw] at hsent
  rcases hcases with ⟨rfl, rfl⟩ | ⟨hne, ring, hring, hs'⟩ | ⟨ring, hring, rfl⟩
  · exact ⟨h.ring, h.room, hsent, h.threw, h.serves⟩
  · -- the next chunk, which fits
    obtain ⟨hsize, -⟩ := VirtualRDMARingBuffer.step_frame hring
    have hapart := VirtualRDMARingBuffer.step_apart rfl hring
    have hreceived : ring.received = s.ring.received := hapart.received
    have hpc : ring.recvPc = s.ring.recvPc := hapart.pc
    obtain ⟨hsent', hbusy⟩ := send_cases (length_chunk h data) hring
    obtain rfl := hs' hbusy
    have hbuf : State.bufferSize
        { s with ring := ring, writing := some (data.drop (s.chunk data).length) } =
          s.bufferSize := hsize
    have hmsg : State.messages
        { s with ring := ring, writing := some (data.drop (s.chunk data).length) } =
          s.messages := by
      rw [State.messages, hbuf]; rfl
    refine ⟨hclean, hbuf ▸ h.room, ?_, h.threw, ?_⟩
    · rw [hmsg, hbuf, hsent, hsent', Option.getD_some, Option.getD_some, messages_chunk h hne,
        List.append_assoc]
      rfl
    · rw [hmsg, hbuf, hreceived, hpc]
      exact h.serves
  · exact inv_apart h hclean hring rfl fun _ => VirtualRDMARingBuffer.Act.noConfusion

/-! ## The reader -/

theorem rest_toNat {size i : UInt64} (h : Inv s) (hi : i ≤ size) :
    (min (size - i) (s.bufferSize - 2 * 8)).toNat =
      min (size.toNat - i.toNat) (s.bufferSize.toNat - 2 * 8) := by
  rw [Pos.toNat_min, UInt64.toNat_sub_of_le _ _ hi, limit_toNat h]

/-- The next chunk of a `read`. -/
theorem chunks_rest {size i : UInt64} (h : Inv s) (hi : i < size) :
    chunks s.bufferSize.toNat (size.toNat - i.toNat) =
      (min (size - i) (s.bufferSize - 2 * 8)).toNat ::
        chunks s.bufferSize.toNat
          (size.toNat - (i + min (size - i) (s.bufferSize - 2 * 8)).toNat) ∧
      i + min (size - i) (s.bufferSize - 2 * 8) ≤ size := by
  have hle : i ≤ size := UInt64.le_of_lt hi
  have hchunk := rest_toNat h hle
  rw [UInt64.lt_iff_toNat_lt] at hi
  have hadd : (i + min (size - i) (s.bufferSize - 2 * 8)).toNat =
      i.toNat + min (size.toNat - i.toNat) (s.bufferSize.toNat - 2 * 8) := by
    have := size.toNat_lt
    rw [UInt64.toNat_add, hchunk, Nat.mod_eq_of_lt]
    omega
  constructor
  · rw [chunks_pos h.room (Nat.sub_pos_of_lt hi), hchunk, hadd, Nat.sub_sub]
  · rw [UInt64.le_iff_toNat_le, hadd]
    omega

/-- A `read` that does not fit the ring does not exist. -/
theorem chunk_fits (h : Inv s) {size i : UInt64} (hi : i ≤ size) :
    ¬ 8 + min (size - i) (s.bufferSize - 2 * 8) + 8 > s.ring.size := by
  have hroom := h.room
  have hlt := s.ring.size.toNat_lt
  have hchunk := rest_toNat h hi
  rw [← UInt64.ofNat_toNat (x := min (size - i) (s.bufferSize - 2 * 8)), frameSize_gt_iff, hchunk]
  unfold State.bufferSize at hroom ⊢
  rw [Nat.mod_eq_of_lt (by omega)]
  omega

theorem readSome_large_iff (h : Inv s) (maxSize : UInt64) :
    8 + min maxSize s.bufferSize + 8 > s.ring.size ↔
      min maxSize.toNat s.bufferSize.toNat + 16 > s.bufferSize.toNat := by
  obtain ⟨F, Z, A, C, hinv⟩ := h.ring.1
  have hhalf : s.ring.size.toNat ≤ 2 ^ 63 := by
    obtain ⟨k, hk, hpow⟩ := Pos.powerOfTwo_spec hinv.pow
    rw [hpow]
    exact Nat.pow_le_pow_right (by omega) (by omega)
  rw [← UInt64.ofNat_toNat (x := min maxSize s.bufferSize), frameSize_gt_iff, Pos.toNat_min]
  unfold State.bufferSize
  rw [Nat.mod_eq_of_lt (by omega)]

/-- Call `receive` for the next chunk. -/
theorem inv_receive (h : Inv s) {maxSize : UInt64} {reading : ReadPc} {asked : List Ask}
    (hsmall : ¬ 8 + maxSize + 8 > s.ring.size →
      ∀ pc, InCall maxSize pc → Serves s.bufferSize s.messages
        (s.messages.drop s.ring.received.length) asked s.ended reading pc)
    (hlarge : 8 + maxSize + 8 > s.ring.size → Performed s.bufferSize.toNat s.messages asked
      (s.ended ++ [.threw]) (s.messages.drop s.ring.received.length))
    (hs : receive { s with reading := reading, asked := asked } maxSize = some s') : Inv s' := by
  obtain ⟨ring, hstep, rfl⟩ := Option.map_eq_some_iff.1 hs
  have hclean : InvClean 0 ring :=
    invClean_of_ne_send h.ring (fun _ => VirtualRDMARingBuffer.Act.noConfusion) hstep
  obtain ⟨hsize, hsent, -⟩ := VirtualRDMARingBuffer.step_frame hstep
  have hsent := hsent.resolve_right fun ⟨data, hd, _⟩ => VirtualRDMARingBuffer.Act.noConfusion hd
  obtain ⟨hreceived, ⟨hidle, hthrows⟩ | ⟨hin, hfits⟩⟩ := receive_cases hstep
  · have hserves : Serves s.bufferSize s.messages (s.messages.drop ring.received.length) asked
        (s.ended ++ [.threw]) .idle ring.recvPc := by
      rw [hreceived]
      exact ⟨hidle, hlarge hthrows⟩
    split
    · exact h.withRing hclean hsize hsent hserves
    · next hbusy => exact absurd hidle hbusy
  · have hserves : Serves s.bufferSize s.messages (s.messages.drop ring.received.length) asked
        s.ended reading ring.recvPc := by
      rw [hreceived]
      exact hsmall hfits _ hin
    split
    · next hidle => rw [hidle] at hin; exact hin.elim
    · exact h.withRing hclean hsize hsent hserves

/-- A `read` that ends. -/
theorem performed_read {n : ℕ} {M R R' : Ring} {asks : List Ask} {ended : List Outcome}
    {size : UInt64} (buffer : Option Buffer) (h : Performed n M asks ended R)
    (ht : takeChunks (chunks n size.toNat) R = some (buffer, R')) :
    Performed n M (asks ++ [.read size]) (ended ++ [buffer.elim .threw .read]) R' :=
  h.snoc (by rw [Ask.perform, ht]; rfl)

/-- The polling loop is behind, and the call does not return yet. -/
theorem inv_receiving (h : Inv s) {chunk : UInt64} (hin : InCall chunk s.ring.recvPc)
    (hpub : ∀ bytes receiveSize, s.ring.recvPc ≠ .publish bytes receiveSize)
    (hlong : ∀ p R, s.messages.drop s.ring.received.length = p :: R → chunk.toNat < p.length →
      Performed s.bufferSize.toNat s.messages s.asked (s.ended ++ [.threw]) (p :: R))
    (hs : receiving s = some s') : Inv s' := by
  obtain ⟨ring, hstep, rfl⟩ := Option.map_eq_some_iff.1 hs
  have hclean : InvClean 0 ring :=
    invClean_of_ne_send h.ring (fun _ => VirtualRDMARingBuffer.Act.noConfusion) hstep
  obtain ⟨hsize, hsent, -⟩ := VirtualRDMARingBuffer.step_frame hstep
  have hsent := hsent.resolve_right fun ⟨data, hd, _⟩ => VirtualRDMARingBuffer.Act.noConfusion hd
  obtain ⟨hreceived, hor⟩ := receiver_cases hin hpub hstep
  split
  · next hidle =>
    -- the next message is too long
    rw [hidle] at hor
    obtain ⟨-, receiveSize, hfound, hlt⟩ := hor.resolve_left (by exact id)
    obtain ⟨p, hp, hlen⟩ := next_of_found h.ring hfound
    have hdrop := h.drop_received hp
    rw [UInt64.lt_iff_toNat_lt, hlen] at hlt
    refine h.withRing hclean hsize hsent ⟨hidle, ?_⟩
    rw [hreceived, hdrop]
    exact hlong _ _ hdrop hlt
  · next hbusy =>
    refine h.withRing hclean hsize hsent ?_
    rw [hreceived]
    refine h.serves.goesOn (fun c hc => ?_) fun hidle => by rw [hidle] at hin; exact hin
    exact (receiver_cases hc hpub hstep).2.resolve_right fun hidle => hbusy hidle.1

/-- `receive` returns. -/
theorem inv_publish (h : Inv s) {bytes : List UInt8} {receiveSize : UInt64}
    (hpc : s.ring.recvPc = .publish bytes receiveSize) {ring : VirtualRDMARingBuffer.State}
    (hs : VirtualRDMARingBuffer.step s.ring .receiver = some ring) {reading : ReadPc}
    {ended : List Outcome}
    (hserves : ∀ R, s.messages.drop s.ring.received.length = bytes :: R →
      Serves s.bufferSize s.messages R s.asked ended reading .idle) :
    Inv { s with ring := ring, reading := reading, ended := ended } := by
  have hclean : InvClean 0 ring :=
    invClean_of_ne_send h.ring (fun _ => VirtualRDMARingBuffer.Act.noConfusion) hs
  obtain ⟨hsize, hsent, -⟩ := VirtualRDMARingBuffer.step_frame hs
  have hsent := hsent.resolve_right fun ⟨data, hd, _⟩ => VirtualRDMARingBuffer.Act.noConfusion hd
  obtain ⟨hreceived, hidle⟩ := publish_cases hpc hs
  refine h.withRing hclean hsize hsent ?_
  rw [hreceived, hidle]
  exact hserves _ (h.drop_received (next_of_publish h.ring hpc))

theorem inv_read (h : Inv s) {size i : UInt64} {cells : Buffer}
    (hr : s.reading = .read size i cells) (hs : readImpl s = some s') : Inv s' := by
  have hserves := h.serves
  rw [hr] at hserves
  obtain ⟨asks, R₀, done, hasked, hp, hi, hdone, htake, hor⟩ := hserves
  simp only [readImpl, hr] at hs
  have hbusy (hne : s.ring.recvPc ≠ .idle)
      (hpub : ∀ bytes receiveSize, s.ring.recvPc ≠ .publish bytes receiveSize)
      (hs : receiving s = some s') : Inv s' := by
    obtain ⟨hlt, hin⟩ := hor.resolve_left hne
    refine inv_receiving h hin hpub (fun p R hR hlong => ?_) hs
    rw [hasked]
    refine performed_read none hp ?_
    rw [hdone, (chunks_rest h hlt).1, takeChunks_append htake, hR, takeChunks, if_pos hlong]
    rfl
  cases hpc : s.ring.recvPc with
  | idle =>
    simp only [hpc] at hs
    split_ifs at hs with hlt
    · refine inv_receive h (fun _ pc hin => ?_) (fun hlarge => absurd hlarge (chunk_fits h hi)) hs
      rw [hr]
      exact ⟨asks, R₀, done, hasked, hp, hi, hdone, htake, Or.inr ⟨hlt, hin⟩⟩
    · cases hs
      have hsize : size.toNat - i.toNat = 0 := by
        rw [UInt64.lt_iff_toNat_lt] at hlt
        omega
      refine h.withRing h.ring rfl rfl ⟨hpc, ?_⟩
      rw [hasked]
      refine performed_read (some cells) hp ?_
      rw [hdone, hsize, ← htake]
      exact congrArg (takeChunks · R₀) (List.append_nil done)
  | publish bytes receiveSize =>
    simp only [hpc] at hs
    obtain ⟨ring, hring, rfl⟩ := Option.map_eq_some_iff.1 hs
    obtain ⟨hlt, hlen⟩ := hor.resolve_left (by rw [hpc]; exact RecvPc.noConfusion)
    rw [hpc] at hlen
    obtain ⟨hrest, hle⟩ := chunks_rest h hlt
    refine inv_publish h hpc hring fun R hR => ?_
    refine ⟨asks, R₀, done ++ [(min (size - i) (s.bufferSize - 2 * 8)).toNat], hasked, hp, hle, ?_,
      ?_, Or.inl rfl⟩
    · rw [hdone, hrest, List.append_assoc]; rfl
    · rw [takeChunks_append htake, hR, takeChunks, if_neg (Nat.not_lt.2 hlen)]
      rw [takeChunks]
      simp
  | size | check | found | clear =>
    simp only [hpc] at hs
    refine hbusy ?_ ?_ hs
    · rw [hpc]; exact RecvPc.noConfusion
    · intro bytes receiveSize hpub
      rw [hpc] at hpub
      cases hpub

theorem inv_readSome (h : Inv s) {maxSize : UInt64} (hr : s.reading = .readSome maxSize)
    (hs : readImpl s = some s') : Inv s' := by
  have hserves := h.serves
  rw [hr] at hserves
  obtain ⟨asks, hasked, hp, hle, hin⟩ := hserves
  have hmin : (min maxSize s.bufferSize).toNat = min maxSize.toNat s.bufferSize.toNat :=
    Pos.toNat_min _ _
  simp only [readImpl, hr] at hs
  have hbusy (hpub : ∀ bytes receiveSize, s.ring.recvPc ≠ .publish bytes receiveSize)
      (hs : receiving s = some s') : Inv s' := by
    refine inv_receiving h hin hpub (fun p R hR hlong => ?_) hs
    rw [hasked]
    rw [hR] at hp
    refine hp.snoc ?_
    rw [hmin] at hlong
    simp only [Ask.perform]
    rw [if_neg (Nat.not_lt.2 hle), if_pos hlong]
  cases hpc : s.ring.recvPc with
  | publish bytes receiveSize =>
    simp only [hpc] at hs
    obtain ⟨ring, hring, rfl⟩ := Option.map_eq_some_iff.1 hs
    rw [hpc] at hin
    refine inv_publish h hpc hring fun R hR => ⟨rfl, ?_⟩
    rw [hasked]
    rw [hR] at hp
    refine hp.snoc ?_
    have hlen : bytes.length ≤ min maxSize.toNat s.bufferSize.toNat := hmin ▸ hin
    simp only [Ask.perform]
    rw [if_neg (Nat.not_lt.2 hle), if_neg (Nat.not_lt.2 hlen)]
  | idle => rw [hpc] at hin; exact hin.elim
  | size | check | found | clear =>
    simp only [hpc] at hs
    refine hbusy ?_ hs
    intro bytes receiveSize hpub
    rw [hpc] at hpub
    cases hpub

theorem step_inv (h : Inv s) (hsafe : Safe s a) (hs : step s a = some s') : Inv s' := by
  have hclean := invClean_step h hsafe hs
  cases a with
  | write data =>
    simp only [step] at hs
    split at hs
    · next hw => cases hs; exact inv_write h hw data
    · cases hs
  | writer => exact inv_writer h hsafe hs
  | read size =>
    simp only [step] at hs
    split at hs
    · next hr =>
      cases hs
      have hserves := h.serves
      rw [hr] at hserves
      obtain ⟨hpc, hp⟩ := hserves
      refine h.withRing h.ring rfl rfl ⟨s.asked, _, [], rfl, hp, ?_, ?_, rfl, Or.inl hpc⟩
      · rw [UInt64.le_iff_toNat_le]
        exact Nat.zero_le _
      · exact (congrArg (chunks s.bufferSize.toNat) (Nat.sub_zero size.toNat)).symm
    · cases hs
  | readSome maxSize =>
    simp only [step] at hs
    split at hs
    · next hr =>
      have hserves := h.serves
      rw [hr] at hserves
      obtain ⟨hpc, hp⟩ := hserves
      have hlarge := readSome_large_iff h maxSize
      refine inv_receive h (fun hfits pc hin => ?_) (fun hthrows => ?_) hs
      · exact ⟨s.asked, rfl, hp, Nat.not_lt.1 (mt hlarge.2 hfits), hin⟩
      · exact hp.snoc (if_pos (hlarge.1 hthrows))
    · cases hs
  | load is =>
    obtain ⟨ring, hring, rfl⟩ := Option.map_eq_some_iff.1 hs
    obtain ⟨hsize, hsent, -⟩ := VirtualRDMARingBuffer.step_frame hring
    have hsent := hsent.resolve_right fun ⟨data, hd, _⟩ => VirtualRDMARingBuffer.Act.noConfusion hd
    obtain ⟨pc, hpoll, rfl⟩ := Option.map_eq_some_iff.1 hring
    refine h.withRing hclean hsize hsent (h.serves.goesOn (fun c hc => inCall_poll hc hpoll) ?_)
    intro hidle
    rw [hidle] at hpoll
    cases hpoll
  | reader =>
    cases hr : s.reading with
    | idle => simp only [step, readImpl, hr] at hs; cases hs
    | read size i cells => exact inv_read h hr hs
    | readSome maxSize => exact inv_readSome h hr hs
  | land k =>
    obtain ⟨ring, hring, rfl⟩ := Option.map_eq_some_iff.1 hs
    exact inv_apart h hclean hring rfl fun _ => VirtualRDMARingBuffer.Act.noConfusion
  | complete =>
    obtain ⟨ring, hring, rfl⟩ := Option.map_eq_some_iff.1 hs
    exact inv_apart h hclean hring rfl fun _ => VirtualRDMARingBuffer.Act.noConfusion

end

/-! ## Runs -/

/-- Every `write` is of at most 496 bytes, and none contains the bytes of `validity`. -/
def Act.Small : Act → Prop
  | .write data => data.length ≤ 496 ∧ ¬ V <:+: data
  | _ => True

instance : ∀ a : Act, Decidable a.Small
  | .write data => inferInstanceAs (Decidable (data.length ≤ 496 ∧ ¬ V <:+: data))
  | .writer | .read _ | .readSome _ | .load _ | .reader | .land _ | .complete => isTrue trivial

/-- Small writes are always safe. -/
structure InvSmall (s : State) : Prop where
  inv : Inv s
  inline : VirtualRDMARingBuffer.AllInline s.ring
  writing : ∀ data ∈ s.writing, data.length ≤ 496 ∧ ¬ V <:+: data

section
variable {s s' : State} {a : Act}

theorem InvSmall.chunk (h : InvSmall s) {data : List UInt8} (hw : s.writing = some data) :
    (s.chunk data).length ≤ 496 ∧ ¬ V <:+: s.chunk data := by
  obtain ⟨hlen, hfree⟩ := h.writing data hw
  refine ⟨(List.length_take_le' _ _).trans hlen, fun hV => hfree ?_⟩
  exact hV.trans (List.take_prefix _ _).isInfix

theorem InvSmall.safe (h : InvSmall s) (a : Act) : Safe s a := by
  cases a with
  | writer => exact fun data hw _ _ => ⟨(h.chunk hw).2, h.inline.fillSafe _⟩
  | write | read | readSome | load | reader | land | complete => trivial

theorem step_invSmall (h : InvSmall s) (ha : a.Small) (hs : step s a = some s') : InvSmall s' := by
  obtain ⟨hring, hwriting⟩ := ring_cases hs
  refine ⟨step_inv h.inv (h.safe a) hs, ?_, fun data hd => ?_⟩
  · rcases hring with hring | ⟨b, hring, hsend⟩
    · rw [hring]; exact h.inline
    · refine VirtualRDMARingBuffer.step_allInline h.inv.ring.1 h.inline (fun data hb => ?_) hring
      obtain ⟨-, todo, hw, -, -, rfl⟩ := hsend data hb
      have := (h.chunk hw).1
      omega
  · rcases hwriting data hd with hd | rfl | ⟨todo, hw, k, rfl⟩
    · exact h.writing data hd
    · exact ha
    · obtain ⟨hlen, hfree⟩ := h.writing todo hw
      refine ⟨(List.drop_sublist _ _).length_le.trans hlen, fun hV => hfree ?_⟩
      exact hV.trans (List.drop_suffix _ _).isInfix

end

theorem along_small {bufferSize : UInt64} (hpow : powerOfTwo bufferSize = true)
    (hroom : 16 < bufferSize.toNat) {acts : List Act} (hacts : ∀ a ∈ acts, a.Small) :
    Along step Safe (init bufferSize) acts :=
  along_of_inv (I := InvSmall) (fun _ a h _ => h.safe a)
    (fun _ _ _ h ha hs => step_invSmall h ha hs)
    ⟨inv_init hpow hroom, ⟨List.forall_mem_nil _, List.forall_mem_nil _⟩,
      fun _ hd => by cases hd⟩ hacts

/-- **The calls of the reader end as over a list of messages**, also those that throw, and `write`
    does not throw. -/
theorem calls_refine {bufferSize : UInt64} (hpow : powerOfTwo bufferSize = true)
    (hroom : 16 < bufferSize.toNat) {acts : List Act}
    (hacts : Along step Safe (init bufferSize) acts) :
    AllStates step (fun s => s.writeThrew = false ∧
      s.ended <+: outcomes s.bufferSize.toNat s.asked s.messages ∧
      s.asked.length ≤ s.ended.length + 1) (init bufferSize) acts :=
  allStates_of_along (fun _ h => ⟨h.threw, h.refines⟩)
    (fun _ _ _ h hsafe hs => step_inv h hsafe hs) (inv_init hpow hroom) hacts

/-- The steps of a `receive` once it is called. -/
def receiveWhole : List Act :=
  [.load (List.range 8), .load (List.range 8), .reader, .reader, .reader]

/-- The first `send` of a connection, whose frame has `length` bytes. -/
def sendFirst (length : ℕ) : List Act :=
  [.writer, .writer, .writer, .land length, .complete, .writer, .writer, .writer, .writer, .writer]

/-- `readSome` throws for a message of two bytes, and then gets it. -/
def secondReadSome : List Act :=
  [.write [1, 2]] ++ sendFirst 18 ++
    [.readSome 1, .load (List.range 8), .load (List.range 8), .reader, .readSome 2] ++ receiveWhole

theorem calls_refine_secondReadSome : ∃ s, run step (init 4096) secondReadSome = some s ∧
    s.ended = [.threw, .readSome [1, 2]] ∧ s.writeThrew = false ∧
      s.ended <+: outcomes s.bufferSize.toNat s.asked s.messages ∧
      s.asked.length ≤ s.ended.length + 1 := by
  have hrun : ((run step (init 4096) secondReadSome).map State.ended) =
      some [.threw, .readSome [1, 2]] := by decide +kernel
  obtain ⟨s, hr, hended⟩ := Option.map_eq_some_iff.1 hrun
  have hsmall : ∀ a ∈ secondReadSome, a.Small := by decide
  have hsafe : Along step Safe (init 4096) secondReadSome :=
    along_small (by decide) (by decide) hsmall
  exact ⟨s, hr, hended, (calls_refine (by decide) (by decide) hsafe).last hr⟩

/-! ## Reads of the sizes of the writes -/

/-- There are only `read`s, and each is of the size of the `write` of its number. -/
def SameSizes (written : List (List UInt8)) (asked : List Ask) : Prop :=
  ∃ sizes : List UInt64, asked = sizes.map .read ∧ ∀ (i : ℕ) size data, sizes[i]? = some size →
    written[i]? = some data → size.toNat = data.length

theorem takeChunks_splitLengths {cs : List ℕ} {data : List UInt8} (h : cs.sum = data.length)
    (R : Ring) : takeChunks cs (cs.splitLengths data ++ R) = some (some (data.map some), R) := by
  induction cs generalizing data with
  | nil =>
    rw [List.sum_nil] at h
    rw [List.length_eq_zero_iff.1 h.symm]
    rfl
  | cons c cs ih =>
    rw [List.sum_cons] at h
    have hlen : (data.take c).length = c := by
      rw [List.length_take]
      omega
    rw [List.splitLengths_cons, List.cons_append, takeChunks, if_neg (by omega),
      ih (by rw [List.length_drop]; omega), hlen, Nat.sub_self]
    simp

/-- What is written comes out of reads of the same sizes, one for one. -/
theorem outcomes_sameSizes {n : ℕ} (hn : 16 < n) {written : List (List UInt8)} {asked : List Ask}
    (h : SameSizes written asked) {i : ℕ} {outcome : Outcome}
    (ho : (outcomes n asked (written.flatMap (Rdma.writeImpl n)))[i]? = some outcome) :
    outcome = .read ((written.getD i []).map some) := by
  obtain ⟨sizes, rfl, hsizes⟩ := h
  induction sizes generalizing written i with
  | nil => cases ho
  | cons size sizes ih =>
    have hstep (tail : List (List UInt8))
        (ht : takeChunks (chunks n size.toNat) (written.flatMap (Rdma.writeImpl n)) =
          some (some ((written.getD 0 []).map some), tail.flatMap (Rdma.writeImpl n)))
        (hget : ∀ i, written.getD (i + 1) [] = tail.getD i [])
        (htail : ∀ (i : ℕ) size data, sizes[i]? = some size → tail[i]? = some data →
          size.toNat = data.length) : outcome = .read ((written.getD i []).map some) := by
      simp only [List.map_cons, outcomes, Ask.perform, ht] at ho
      cases i with
      | zero => cases ho; rfl
      | succ i =>
        rw [hget]
        exact ih htail ho
    cases written with
    | nil =>
      -- only a `read` of no bytes ends
      rcases Nat.eq_zero_or_pos size.toNat with h0 | hpos
      · exact hstep [] (by rw [h0]; rfl) (fun _ => rfl) fun i _ _ _ hd => by cases hd
      · rw [List.map_cons, outcomes, Ask.perform, chunks_pos hn hpos] at ho
        cases ho
    | cons data written =>
      have hlen := hsizes 0 size data rfl rfl
      refine hstep written ?_ (fun _ => rfl) fun i => hsizes (i + 1)
      rw [List.flatMap_cons, hlen]
      exact takeChunks_splitLengths (chunks_sum hn _) _

/-- **Small messages that are read as they were written come out as they were written**, in
    whatever order the ends and the network card go on. -/
theorem sameSizes_returned {bufferSize : UInt64} (hpow : powerOfTwo bufferSize = true)
    (hroom : 16 < bufferSize.toNat) {acts : List Act} (hacts : ∀ a ∈ acts, a.Small) :
    AllStates step (fun s => SameSizes s.written s.asked → s.writeThrew = false ∧
      s.asked.length ≤ s.ended.length + 1 ∧ ∀ (i : ℕ) outcome, s.ended[i]? = some outcome →
        outcome = .read ((s.written.getD i []).map some)) (init bufferSize) acts := by
  refine allStates_of_along (I := Inv) (fun s h hsame => ?_)
    (fun _ _ _ h hsafe hs => step_inv h hsafe hs) (inv_init hpow hroom)
    (along_small hpow hroom hacts)
  obtain ⟨hends, hlen⟩ := h.refines
  refine ⟨h.threw, hlen, fun i outcome ho => ?_⟩
  obtain ⟨T, hT⟩ := hends
  have hlt := (List.getElem?_eq_some_iff.1 ho).1
  refine outcomes_sameSizes h.room hsame (?_ : _ = some outcome)
  exact hT ▸ (List.getElem?_append_left hlt).trans ho

/-- Two writes, the second of which arrives after the read of its size is called. -/
def twoReads : List Act :=
  [.write [1, 2], .read 2] ++ sendFirst 18 ++ [.writer, .write [3], .writer, .writer, .writer] ++
    .reader :: receiveWhole ++ [.reader, .read 1, .reader, .land 17, .writer] ++ receiveWhole ++
    [.reader]

theorem sameSizes_returned_twoReads : ∃ s, run step (init 4096) twoReads = some s ∧
    SameSizes s.written s.asked ∧ s.ended = [.read [some 1, some 2], .read [some 3]] ∧
      s.writeThrew = false ∧ s.asked.length ≤ s.ended.length + 1 ∧
      ∀ (i : ℕ) outcome, s.ended[i]? = some outcome →
        outcome = .read ((s.written.getD i []).map some) := by
  have hrun : ((run step (init 4096) twoReads).map fun s => (s.written, s.asked, s.ended)) =
      some ([[1, 2], [3]], [.read 2, .read 1], [.read [some 1, some 2], .read [some 3]]) := by
    decide +kernel
  obtain ⟨s, hr, hs⟩ := Option.map_eq_some_iff.1 hrun
  simp only [Prod.mk.injEq] at hs
  obtain ⟨hw, hasked, hended⟩ := hs
  have hsame : SameSizes s.written s.asked := by
    refine ⟨[2, 1], hasked, ?_⟩
    rw [hw]
    rintro (_ | _ | i) size data hsize hdata
    · cases hsize; cases hdata; rfl
    · cases hsize; cases hdata; rfl
    · cases hsize
  have hsmall : ∀ a ∈ twoReads, a.Small := by decide
  exact ⟨s, hr, hsame, hended, (sameSizes_returned (by decide) (by decide) hsmall).last hr hsame⟩

end Connection

end Rdma

end L5RDMA
