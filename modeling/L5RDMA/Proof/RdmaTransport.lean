/-
  When the RDMA transport is a stream.

  `read` takes no notice of the length of the messages it receives: a message
  longer than its chunk makes it throw, and behind a shorter one the rest of
  the chunk is left as it was.  `stream_iff`: a list of reads gets the bytes of
  a list of writes iff the reads are cut into chunks exactly as the writes are.

  `readSome` takes one message whole, and its chunk is cut to the size of the
  ring, without the header and the trailer that `receive` adds.
  `readSome_iff`: it keeps its contract iff its limit lies between the length of
  the next message and what fits the ring.
-/
import L5RDMA.RdmaTransport
import Mathlib.Algebra.GroupWithZero.Nat

namespace L5RDMA

namespace Rdma

/-- Every read returns, with its buffer filled with the next bytes of what is written. -/
def Stream (w : Writer) (bufferSize : ℕ) (writes : List (List UInt8)) (sizes : List ℕ) : Prop :=
  ∃ buffers ring, w.reads bufferSize sizes (w.messages bufferSize writes) = .ok (buffers, ring) ∧
    buffers.map List.length = sizes ∧ buffers.flatten = writes.flatten.map some

/-- The reads are cut into the same chunks as the writes. -/
def SameChunks (bufferSize : ℕ) (writes : List (List UInt8)) (sizes : List ℕ) : Prop :=
  sizes.flatMap (chunks bufferSize) = writes.flatMap fun data => chunks bufferSize data.length

/-! ## Chunks -/

section
variable {limit bufferSize : ℕ}

theorem loop_sum (hl : 0 < limit) {fuel rest : ℕ} (h : rest ≤ fuel) :
    (loop limit fuel rest).sum = rest := by
  induction fuel generalizing rest with
  | zero => rw [Nat.le_zero.1 h]; rfl
  | succ fuel ih =>
    unfold loop
    split_ifs with h0
    · rw [h0]; rfl
    · rw [List.sum_cons, ih (by omega)]; omega

theorem loop_bounds (hl : 0 < limit) {fuel rest : ℕ} :
    ∀ c ∈ loop limit fuel rest, 0 < c ∧ c ≤ limit := by
  induction fuel generalizing rest with
  | zero => intro c hc; cases hc
  | succ fuel ih =>
    intro c hc
    unfold loop at hc
    split_ifs at hc with h0
    · cases hc
    · rcases List.mem_cons.1 hc with rfl | hc
      · omega
      · exact ih c hc

theorem chunks_sum (h : 16 < bufferSize) (size : ℕ) : (chunks bufferSize size).sum = size :=
  loop_sum (by omega) le_rfl

theorem chunks_bounds (h : 16 < bufferSize) (size : ℕ) :
    ∀ c ∈ chunks bufferSize size, 0 < c ∧ c + 16 ≤ bufferSize := by
  intro c hc
  have hlimit : 0 < bufferSize - 2 * 8 := by omega
  have := loop_bounds hlimit c hc
  omega

/-! ## The rounds of `read` -/

theorem receives_cons_ok {chunk : ℕ} {cs : List ℕ} {ring ring' : Ring} {buffer : Buffer} :
    receives bufferSize (chunk :: cs) ring = .ok (buffer, ring') ↔
      ∃ cells ring₁ rest, receive bufferSize chunk ring = .ok (cells, ring₁) ∧
        receives bufferSize cs ring₁ = .ok (rest, ring') ∧ buffer = cells ++ rest := by
  rw [receives]
  constructor
  · intro h
    cases h₁ : receive bufferSize chunk ring with
    | error e => rw [h₁] at h; cases h
    | ok r =>
      obtain ⟨cells, ring₁⟩ := r
      rw [h₁] at h
      cases h₂ : receives bufferSize cs ring₁ with
      | error e => simp only [bind, Except.bind, h₂] at h; cases h
      | ok r =>
        simp only [bind, Except.bind, h₂] at h
        cases h
        exact ⟨cells, ring₁, r.1, rfl, h₂, rfl⟩
  · rintro ⟨cells, ring₁, rest, h₁, h₂, rfl⟩
    rw [h₁]
    simp only [bind, Except.bind, h₂]
    rfl

theorem receives_append_ok {cs ds : List ℕ} {ring ring' : Ring} {buffer : Buffer} :
    receives bufferSize (cs ++ ds) ring = .ok (buffer, ring') ↔
      ∃ front ring₁ rest, receives bufferSize cs ring = .ok (front, ring₁) ∧
        receives bufferSize ds ring₁ = .ok (rest, ring') ∧ buffer = front ++ rest := by
  induction cs generalizing ring buffer with
  | nil =>
    constructor
    · intro h; exact ⟨[], ring, buffer, rfl, h, rfl⟩
    · rintro ⟨front, ring₁, rest, h₁, h₂, rfl⟩
      cases h₁
      exact h₂
  | cons c cs ih =>
    rw [List.cons_append, receives_cons_ok]
    constructor
    · rintro ⟨cells, ring₁, buffer', h₁, h, rfl⟩
      obtain ⟨front, ring₂, rest, h₂, h₃, rfl⟩ := ih.1 h
      exact ⟨cells ++ front, ring₂, rest, receives_cons_ok.2 ⟨_, _, _, h₁, h₂, rfl⟩, h₃,
        (List.append_assoc _ _ _).symm⟩
    · rintro ⟨buffer', ring₂, rest, h, h₃, rfl⟩
      obtain ⟨cells, ring₁, front, h₁, h₂, rfl⟩ := receives_cons_ok.1 h
      exact ⟨cells, ring₁, front ++ rest, h₁, ih.2 ⟨_, _, _, h₂, h₃, rfl⟩,
        List.append_assoc _ _ _⟩

/-- A message is received, which fills its chunk or leaves a gap. -/
theorem receive_ok {chunk : ℕ} (hc : chunk + 16 ≤ bufferSize) {ring ring' : Ring}
    {cells : Buffer} : receive bufferSize chunk ring = .ok (cells, ring') ↔
      ∃ msg, ring = msg :: ring' ∧ msg.length ≤ chunk ∧
        cells = msg.map some ++ List.replicate (chunk - msg.length) none := by
  unfold receive
  rw [if_neg (by omega)]
  cases ring with
  | nil => simp
  | cons msg ring =>
    dsimp only
    split_ifs with hlen
    · constructor
      · intro h; cases h
      · rintro ⟨msg', he, hle, -⟩
        cases he
        omega
    · constructor
      · intro h; cases h; exact ⟨msg, rfl, by omega, rfl⟩
      · rintro ⟨msg', he, -, rfl⟩
        cases he
        rfl

/-- As many cells as the chunks are long. -/
theorem length_receives {cs : List ℕ} (hcs : ∀ c ∈ cs, c + 16 ≤ bufferSize) {ring ring' : Ring}
    {buffer : Buffer} (h : receives bufferSize cs ring = .ok (buffer, ring')) :
    buffer.length = cs.sum := by
  induction cs generalizing ring buffer with
  | nil => cases h; rfl
  | cons c cs ih =>
    obtain ⟨cells, ring₁, rest, h₁, h₂, rfl⟩ := receives_cons_ok.1 h
    obtain ⟨msg, -, hle, rfl⟩ := (receive_ok (hcs c (by simp))).1 h₁
    have hrest := ih (fun d hd => hcs d (by simp [hd])) h₂
    simp only [List.length_append, List.length_map, List.length_replicate, hrest, List.sum_cons]
    omega

/-- **A gap stays**: the rounds fill the buffer iff each message is as long as its chunk. -/
theorem receives_filled_iff {cs : List ℕ} (hcs : ∀ c ∈ cs, c + 16 ≤ bufferSize) {ring : Ring}
    (hring : ∀ msg ∈ ring, msg ≠ []) :
    (∃ ring', receives bufferSize cs ring = .ok (ring.flatten.map some, ring')) ↔
      cs = ring.map List.length := by
  induction cs generalizing ring with
  | nil =>
    constructor
    · rintro ⟨ring', h⟩
      cases ring with
      | nil => rfl
      | cons msg ring =>
        have hnil : (msg :: ring).flatten.map some = ([] : Buffer) := by
          cases h' : (msg :: ring).flatten.map some with
          | nil => rfl
          | cons b bs => rw [h'] at h; cases h
        rw [List.map_eq_nil_iff, List.flatten_cons, List.append_eq_nil_iff] at hnil
        exact absurd hnil.1 (hring msg (by simp))
    · intro h
      rw [List.map_eq_nil_iff.1 h.symm]
      exact ⟨[], rfl⟩
  | cons c cs ih =>
    have hc := hcs c (by simp)
    have hcs' : ∀ d ∈ cs, d + 16 ≤ bufferSize := fun d hd => hcs d (by simp [hd])
    constructor
    · rintro ⟨ring', h⟩
      obtain ⟨cells, ring₁, rest, h₁, h₂, he⟩ := receives_cons_ok.1 h
      obtain ⟨msg, rfl, hle, rfl⟩ := (receive_ok hc).1 h₁
      rw [List.flatten_cons, List.map_append, List.append_assoc, List.append_cancel_left_eq] at he
      cases hgap : c - msg.length with
      | zero =>
        rw [hgap, List.replicate_zero, List.nil_append] at he
        have := (ih hcs' fun m hm => hring m (List.mem_cons_of_mem _ hm)).1 ⟨ring', he ▸ h₂⟩
        rw [List.map_cons, ← this, show c = msg.length by omega]
      | succ k =>
        rw [hgap, List.replicate_succ, List.cons_append] at he
        cases hf : ring₁.flatten with
        | nil => rw [hf] at he; cases he
        | cons b bs => rw [hf] at he; cases he
    · intro h
      cases ring with
      | nil => cases h
      | cons msg ring =>
        obtain ⟨rfl, htail⟩ := List.cons.inj h
        obtain ⟨ring', hr⟩ := (ih hcs' fun m hm => hring m (List.mem_cons_of_mem _ hm)).2 htail
        refine ⟨ring', receives_cons_ok.2 ⟨msg.map some, ring, ring.flatten.map some, ?_, hr, ?_⟩⟩
        · refine (receive_ok hc).2 ⟨msg, rfl, le_rfl, ?_⟩
          rw [Nat.sub_self, List.replicate_zero, List.append_nil]
        · rw [List.flatten_cons, List.map_append]

/-! ## Calls -/

theorem readImpl_eq (w : Writer) (size : ℕ) :
    w.readImpl bufferSize size = receives bufferSize (chunks bufferSize size) := by
  cases w <;> rfl

/-- A list of reads goes through the rounds of all of them. -/
theorem reads_ok (w : Writer) {sizes : List ℕ} {ring ring' : Ring} {buffer : Buffer} :
    (∃ buffers, w.reads bufferSize sizes ring = .ok (buffers, ring') ∧ buffers.flatten = buffer) ↔
      receives bufferSize (sizes.flatMap (chunks bufferSize)) ring = .ok (buffer, ring') := by
  induction sizes generalizing ring buffer with
  | nil =>
    constructor
    · rintro ⟨buffers, h, rfl⟩
      cases h
      rfl
    · intro h
      cases h
      exact ⟨[], rfl, rfl⟩
  | cons size sizes ih =>
    rw [List.flatMap_cons, receives_append_ok]
    constructor
    · rintro ⟨buffers, h, rfl⟩
      rw [Writer.reads, readImpl_eq] at h
      cases h₁ : receives bufferSize (chunks bufferSize size) ring with
      | error e => rw [h₁] at h; cases h
      | ok r =>
        simp only [h₁, bind, Except.bind] at h
        cases h₂ : w.reads bufferSize sizes r.2 with
        | error e => rw [h₂] at h; cases h
        | ok r' =>
          rw [h₂] at h
          cases h
          exact ⟨r.1, r.2, r'.1.flatten, rfl, ih.1 ⟨r'.1, h₂, rfl⟩, rfl⟩
    · rintro ⟨front, ring₁, rest, h₁, h₂, rfl⟩
      obtain ⟨buffers, h₃, rfl⟩ := ih.2 h₂
      refine ⟨front :: buffers, ?_, rfl⟩
      rw [Writer.reads, readImpl_eq]
      simp only [h₁, h₃, bind, Except.bind]
      rfl

theorem length_reads (h : 16 < bufferSize) (w : Writer) {sizes : List ℕ} {ring ring' : Ring}
    {buffers : List Buffer} (hr : w.reads bufferSize sizes ring = .ok (buffers, ring')) :
    buffers.map List.length = sizes := by
  induction sizes generalizing ring buffers with
  | nil => cases hr; rfl
  | cons size sizes ih =>
    rw [Writer.reads, readImpl_eq] at hr
    cases h₁ : receives bufferSize (chunks bufferSize size) ring with
    | error e => rw [h₁] at hr; cases hr
    | ok r =>
      simp only [h₁, bind, Except.bind] at hr
      cases h₂ : w.reads bufferSize sizes r.2 with
      | error e => rw [h₂] at hr; cases hr
      | ok r' =>
        rw [h₂] at hr
        cases hr
        have hlen := length_receives (fun c hc => (chunks_bounds h size c hc).2) h₁
        rw [List.map_cons, ih h₂, hlen, chunks_sum h]

/-- The messages of a list of writes are their chunks. -/
theorem messages_lengths (h : 16 < bufferSize) (w : Writer) (writes : List (List UInt8)) :
    (w.messages bufferSize writes).map List.length =
      writes.flatMap fun data => chunks bufferSize data.length := by
  have hw : w.writeImpl bufferSize = writeImpl bufferSize := by cases w <;> rfl
  rw [Writer.messages, hw, List.map_flatMap]
  congr 1
  funext data
  exact List.map_splitLengths_length data _ (chunks_sum h _).le

theorem messages_flatten (h : 16 < bufferSize) (w : Writer) (writes : List (List UInt8)) :
    (w.messages bufferSize writes).flatten = writes.flatten := by
  have hw : w.writeImpl bufferSize = writeImpl bufferSize := by cases w <;> rfl
  rw [Writer.messages, hw, List.flatMap_def, List.flatten_flatten, List.map_map]
  congr 1
  refine (List.map_congr_left fun data _ => ?_).trans (List.map_id _)
  exact List.flatten_splitLengths data _ (chunks_sum h _).ge

theorem messages_bounds (h : 16 < bufferSize) (w : Writer) (writes : List (List UInt8)) :
    ∀ msg ∈ w.messages bufferSize writes, msg ≠ [] ∧ msg.length + 16 ≤ bufferSize := by
  intro msg hm
  have hlen : msg.length ∈ writes.flatMap fun data => chunks bufferSize data.length :=
    messages_lengths h w writes ▸ List.mem_map_of_mem hm
  obtain ⟨data, -, hc⟩ := List.mem_flatMap.1 hlen
  have := chunks_bounds h _ _ hc
  exact ⟨List.length_pos_iff.1 this.1, this.2⟩

end

/-- **A stream** of bytes comes out exactly when the reads are cut as the writes are. -/
theorem stream_iff (w : Writer) {bufferSize : ℕ} (h : 16 < bufferSize) (writes : List (List UInt8))
    (sizes : List ℕ) : Stream w bufferSize writes sizes ↔ SameChunks bufferSize writes sizes := by
  have hcs : ∀ c ∈ sizes.flatMap (chunks bufferSize), c + 16 ≤ bufferSize := by
    intro c hc
    obtain ⟨size, -, hc⟩ := List.mem_flatMap.1 hc
    exact (chunks_bounds h size c hc).2
  have hring : ∀ msg ∈ w.messages bufferSize writes, msg ≠ [] :=
    fun msg hm => (messages_bounds h w writes msg hm).1
  have hfilled := receives_filled_iff hcs hring
  rw [messages_lengths h, messages_flatten h] at hfilled
  rw [SameChunks, ← hfilled]
  constructor
  · rintro ⟨buffers, ring, hr, -, hb⟩
    exact ⟨ring, (reads_ok w).1 ⟨buffers, hr, hb⟩⟩
  · rintro ⟨ring, hr⟩
    obtain ⟨buffers, hr, hb⟩ := (reads_ok w).2 hr
    exact ⟨buffers, ring, hr, length_reads h w hr, hb⟩

/-- Two writes, and reads that take each of them in one. -/
theorem stream_wholeWrites : Stream .client 4096 [[1, 2], [3, 4, 5]] [2, 3] :=
  (stream_iff .client (by decide) _ _).2 rfl

def fourBytes : List UInt8 := [1, 2, 3, 4]

/-- A message of four bytes cannot be read in halves. -/
theorem fourBytes_halves :
    [2, 2].sum = fourBytes.length ∧ ¬ Stream .server 4096 [fourBytes] [2, 2] ∧
      ¬ Stream .client 4096 [fourBytes] [2, 2] := by
  have hnot : ∀ w, ¬ Stream w 4096 [fourBytes] [2, 2] := by
    rintro w ⟨buffers, ring, h, -, -⟩
    have hr : w.reads 4096 [2, 2] (w.messages 4096 [fourBytes]) = .error .wholeMessages := by
      cases w <;> rfl
    rw [hr] at h
    cases h
  exact ⟨rfl, hnot .server, hnot .client⟩

/-! ## `readSome` -/

/-- What is left in the ring of a list of writes.  Only a ring of more than 16 bytes takes any. -/
structure Pending (w : Writer) (bufferSize : ℕ) (ring : Ring) : Prop where
  room : 16 < bufferSize
  written : ∃ writes done, w.messages bufferSize writes = done ++ ring

/-- `readSome` stores the next bytes of the stream, at least one and at most `maxSize`, and
    returns their number. -/
def ReadsSome (w : Writer) (bufferSize maxSize : ℕ) (ring : Ring) : Prop :=
  ∃ k cells rest, w.readSomeImpl bufferSize maxSize ring = .ok (k, cells, rest) ∧
    1 ≤ k ∧ k ≤ maxSize ∧
      (∃ gap, cells = (ring.flatten.take k).map some ++ List.replicate gap none) ∧
      rest.flatten = ring.flatten.drop k

section
variable {w : Writer} {bufferSize maxSize : ℕ} {msg : List UInt8} {ring : Ring}

theorem readSomeImpl_eq (w : Writer) : w.readSomeImpl = readSomeImpl := by
  cases w <;> rfl

theorem Pending.head (h : Pending w bufferSize (msg :: ring)) :
    msg ≠ [] ∧ msg.length + 16 ≤ bufferSize := by
  obtain ⟨hroom, writes, done, hw⟩ := h
  exact messages_bounds hroom w writes msg (by rw [hw]; simp)

/-- A limit that does not fit the ring with a header and a trailer, -/
theorem readSomeImpl_tooLarge (h : bufferSize < maxSize + 16) :
    readSomeImpl bufferSize maxSize ring = .error .tooLarge := by
  have hr : receive bufferSize (min maxSize bufferSize) ring = .error .tooLarge := by
    unfold receive
    exact if_pos (by omega)
  simp only [readSomeImpl, hr]
  rfl

/-- or that is smaller than the next message. -/
theorem readSomeImpl_wholeMessages (h : maxSize + 16 ≤ bufferSize) (hlen : maxSize < msg.length) :
    readSomeImpl bufferSize maxSize (msg :: ring) = .error .wholeMessages := by
  have hr : receive bufferSize (min maxSize bufferSize) (msg :: ring) = .error .wholeMessages := by
    unfold receive
    rw [if_neg (by omega)]
    exact if_pos (by omega)
  simp only [readSomeImpl, hr]
  rfl

theorem readSomeImpl_ok (h : maxSize + 16 ≤ bufferSize) (hlen : msg.length ≤ maxSize) :
    readSomeImpl bufferSize maxSize (msg :: ring) =
      .ok (msg.length, msg.map some ++ List.replicate (maxSize - msg.length) none, ring) := by
  have hmin : min maxSize bufferSize = maxSize := Nat.min_eq_left (by omega)
  simp only [readSomeImpl, hmin, (receive_ok h).2 ⟨msg, rfl, hlen, rfl⟩]
  rfl

end

/-- **The contract of `readSome`** is kept exactly if the limit fits the ring with a header and a
    trailer and the next message fits the limit. -/
theorem readSome_iff (w : Writer) {bufferSize : ℕ} {msg : List UInt8} {ring : Ring}
    (h : Pending w bufferSize (msg :: ring)) (maxSize : ℕ) :
    ReadsSome w bufferSize maxSize (msg :: ring) ↔
      maxSize + 16 ≤ bufferSize ∧ msg.length ≤ maxSize := by
  have hpos := List.length_pos_iff.2 h.head.1
  rw [ReadsSome, readSomeImpl_eq]
  constructor
  · rintro ⟨k, cells, rest, hr, -⟩
    by_contra hnot
    rcases Nat.lt_or_ge bufferSize (maxSize + 16) with hlarge | hfits
    · rw [readSomeImpl_tooLarge hlarge] at hr
      cases hr
    · rw [readSomeImpl_wholeMessages hfits (by omega)] at hr
      cases hr
  · rintro ⟨hfits, hlen⟩
    refine ⟨msg.length, _, ring, readSomeImpl_ok hfits hlen, hpos, hlen,
      ⟨maxSize - msg.length, ?_⟩, ?_⟩
    · rw [List.flatten_cons, List.take_left]
    · rw [List.flatten_cons, List.drop_left]

/-- A limit between the length of the message and the size of the ring. -/
theorem readSome_fourBytes : ReadsSome .client 4096 100 [fourBytes] :=
  (readSome_iff .client ⟨by decide, [fourBytes], [], by decide⟩ 100).2 (by decide)

/-- A limit as large as the ring is too large, though the message is small. -/
theorem readSome_wholeRing : Pending .client 4096 [fourBytes] ∧ Pending .server 4096 [fourBytes] ∧
    fourBytes.length ≤ 4096 ∧ ¬ ReadsSome .client 4096 4096 [fourBytes] ∧
      ¬ ReadsSome .server 4096 4096 [fourBytes] := by
  have hnot : ∀ w, ¬ ReadsSome w 4096 4096 [fourBytes] := by
    rintro w ⟨k, cells, rest, hr, -⟩
    rw [readSomeImpl_eq, readSomeImpl_tooLarge (by decide)] at hr
    cases hr
  exact ⟨⟨by decide, [fourBytes], [], by decide⟩, ⟨by decide, [fourBytes], [], by decide⟩,
    by decide, hnot .client, hnot .server⟩

end Rdma

end L5RDMA
