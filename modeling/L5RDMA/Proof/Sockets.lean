/-
  Reads from a socket are exact whatever the kernel splits, but do not end at
  the end of the file.

  * `Reading c bs r k`: a call `c` has stored the first `k` bytes of the stream
    `bs` (`Reading.recv`: one `::recv`);
  * `ends_iff`: a read from a stream that its peer closes ends if and only if
    the stream has all of its bytes;
  * `Inv`: of the bytes written, those before the current call have gone to the
    earlier calls, then come those it has stored, those in the kernel and those
    not yet sent;
  * `reads_exact`: every read gets exactly its bytes, and all reads end.
-/
import L5RDMA.Sockets
import L5RDMA.Lib.Ending

namespace L5RDMA

namespace Socket

open Run

/-! ## The loops -/

/-- The bytes that the call still waits for. -/
def Pc.remaining : Pc → ℕ
  | .call _ size => size
  | _ => 0

@[simp] theorem remaining_loop (current size : ℕ) : (loop current size).remaining = size := by
  unfold loop
  split_ifs with h
  · rfl
  · exact (Nat.eq_zero_of_not_pos h).symm

theorem loop_eq_call {current size c n : ℕ} (h : loop current size = .call c n) :
    c = current ∧ n = size ∧ 0 < size := by
  unfold loop at h
  split_ifs at h with hs
  cases h
  exact ⟨rfl, rfl, hs⟩

theorem loop_returned_iff {current size : ℕ} : loop current size = .returned ↔ size = 0 := by
  unfold loop
  split_ifs with hs
  · exact iff_of_false (fun h => by cases h) (by omega)
  · exact iff_of_true rfl (by omega)

theorem loop_pos {current size : ℕ} (h : 0 < size) : loop current size = .call current size :=
  if_pos h

theorem Kind.write_eq (kind : Kind) : kind.write = writeLoop := by cases kind <;> rfl

theorem Kind.read_eq (kind : Kind) : kind.read = readLoop := by cases kind <;> rfl

/-- The early exit of `read` is where the loop ends anyway. -/
theorem readLoop_count (current size n : ℕ) :
    readLoop current size (.count n) = loop (current + n) (size - n) := by
  simp only [readLoop]
  split_ifs with h
  · rw [h, Nat.sub_self]; rfl
  · rfl

/-! ## One call -/

/-- A write of the bytes from `current` on. -/
def Writing (w : Writer) (current : ℕ) : Prop :=
  w.pc = loop current (w.data.length - current)

theorem Writing.left {w : Writer} {current : ℕ} (h : Writing w current) :
    w.left = w.data.drop current := by
  rw [Writer.left, h]
  rcases Nat.lt_or_ge current w.data.length with hlt | hge
  · rw [loop_pos (by omega)]
    exact List.take_of_length_le (by rw [List.length_drop])
  · rw [loop, if_neg (by omega), List.drop_of_length_le hge]

/-- `::send` takes the next bytes. -/
theorem Writing.send {kind : Kind} {w w' : Writer} {current n : ℕ} {sent : List UInt8}
    (h : Writing w current) (hs : w.send kind (.count n) = some (sent, w')) :
    Writing w' (current + n) ∧ w.left = sent ++ w'.left ∧ 0 < sent.length := by
  have hleft := h.left
  rw [Writing] at h
  rw [Writer.send] at hs
  cases hpc : w.pc with
  | returned => rw [hpc] at hs; cases hs
  | threw what => rw [hpc] at hs; cases hs
  | call c size =>
    obtain ⟨rfl, rfl, hpos⟩ := loop_eq_call (h.symm.trans hpc)
    simp only [hpc] at hs
    split_ifs at hs with hmay
    obtain ⟨hn, hle⟩ := hmay
    cases hs
    have hw : Writing { w with pc := kind.write c (w.data.length - c) (.count n) } (c + n) := by
      rw [Writing, Kind.write_eq, writeLoop, Nat.sub_sub]
    refine ⟨hw, ?_, ?_⟩
    · rw [hw.left, hleft, ← List.drop_drop, List.take_append_drop]
    · rw [hleft, List.length_take, List.length_drop]; omega

/-- The call `c` has stored the first `current` bytes of `bs`. -/
structure Reading (c : ReadCall) (bs : List UInt8) (r : Reader) (current : ℕ) : Prop where
  pc : r.pc = loop current (c.size - current)
  le : current ≤ c.size
  length : current ≤ bs.length
  buffer : r.buffer = c.buffer
  mem : r.mem = Mem.write id c.mem c.buffer (bs.take current)

/-- The buffer of `c` holds `bytes`; the memory outside it is as it was. -/
structure Filled (c : ReadCall) (m : Mem) (bytes : List UInt8) : Prop where
  read : Mem.read id m c.buffer c.size = bytes
  outside : ∀ i, i < c.buffer ∨ c.buffer + c.size ≤ i → m i = c.mem i

/-- Bytes stored from the start of the buffer on. -/
theorem filled_write {c : ReadCall} {bs : List UInt8} (hlen : bs.length = c.size) :
    Filled c (Mem.write id c.mem c.buffer bs) bs where
  read := by
    refine List.ext_getElem? fun i => ?_
    rcases Nat.lt_or_ge i c.size with hi | hi
    · have hb := List.getElem?_eq_getElem (l := bs) (i := i) (by omega)
      have hinj : ∀ j, i < j → j < bs.length → id (c.buffer + j) ≠ id (c.buffer + i) := by
        intro j hij _ he
        have he : c.buffer + j = c.buffer + i := he
        omega
      rw [Mem.read_get hi, hb]
      exact congrArg some (Mem.write_of_lt hb hinj)
    · rw [List.getElem?_eq_none (by rw [Mem.length_read]; exact hi),
        List.getElem?_eq_none (by omega)]
  outside i hi := by
    refine Mem.write_of_ne fun j hj he => ?_
    have he : c.buffer + j = i := he
    omega

theorem Reading.start (c : ReadCall) (bs : List UInt8) :
    Reading c bs (.start c.buffer c.size c.mem) 0 where
  pc := rfl
  le := Nat.zero_le _
  length := Nat.zero_le _
  buffer := rfl
  mem := rfl

section
variable {c : ReadCall} {bs more : List UInt8} {r r' : Reader} {st st' : Stream} {current n : ℕ}

/-- `::recv` stores the next bytes. -/
theorem Reading.recv {kind : Kind} (h : Reading c bs r current)
    (hbs : bs.drop current = st.pending ++ more)
    (hr : r.recv kind st (.count n) = some (st', r')) :
    Reading c bs r' (current + n) ∧ bs.drop (current + n) = st'.pending ++ more ∧
      current < c.size ∧ (n = 0 → st.closed = true ∧ st.pending = []) ∧ st'.closed = st.closed := by
  rw [Reader.recv] at hr
  cases hpc : r.pc with
  | returned => rw [hpc] at hr; cases hr
  | threw what => rw [hpc] at hr; cases hr
  | call k size =>
    obtain ⟨rfl, rfl, hpos⟩ := loop_eq_call (h.pc.symm.trans hpc)
    simp only [hpc] at hr
    split_ifs at hr with hmay
    cases hr
    have hlen : bs.length - k = st.pending.length + more.length := by
      rw [← List.length_append, ← hbs, List.length_drop]
    have hn : n ≤ c.size - k ∧ n ≤ st.pending.length := by
      rcases hmay with ⟨-, hn⟩ | ⟨rfl, -⟩
      · exact hn
      · exact ⟨Nat.zero_le _, Nat.zero_le _⟩
    have htake : (bs.drop k).take n = st.pending.take n := by
      rw [hbs, List.take_append_of_le_length hn.2]
    refine ⟨⟨?_, ?_, ?_, h.buffer, ?_⟩, ?_, ?_, ?_, rfl⟩
    · rw [Kind.read_eq, readLoop_count, Nat.sub_sub]
    · omega
    · have := h.length; omega
    · have hk : (bs.take k).length = k := List.length_take_of_le h.length
      rw [List.take_add, Mem.write_append, ← h.mem, hk, htake, h.buffer]
    · rw [← List.drop_drop, hbs, List.drop_append_of_le_length hn.2]
    · omega
    · rintro rfl
      rcases hmay with ⟨hn, -⟩ | ⟨-, he⟩
      · cases hn
      · exact he

theorem Reading.call (h : Reading c bs r current) (hlt : current < c.size) :
    r.pc = .call current (c.size - current) :=
  h.pc.trans (loop_pos (by omega))

theorem Reading.not_returned (h : Reading c bs r current) (hlt : current < c.size) :
    r.pc ≠ .returned := by
  rw [h.call hlt]
  exact Pc.noConfusion

/-- Bytes outside the buffer are never stored to. -/
theorem Reading.outside (h : Reading c bs r current) {i : ℕ}
    (hi : i < c.buffer ∨ c.buffer + c.size ≤ i) : r.mem i = c.mem i := by
  rw [h.mem]
  refine Mem.write_of_ne fun j hj he => ?_
  have hle := h.le
  rw [List.length_take] at hj
  have he : c.buffer + j = i := he
  omega

/-- A call that has stored all its bytes has filled its buffer. -/
theorem Reading.filled (h : Reading c bs r c.size) : Filled c r.mem (bs.take c.size) := by
  rw [h.mem]
  exact filled_write (List.length_take_of_le h.length)

end

/-! ## A stream that its peer closes -/

/-- The call has returned with its buffer full, or thrown as the stream is shorter. -/
def Ended (c : ReadCall) (bs : List UInt8) (s : Stream × Reader) : Prop :=
  s.2.pc = .returned ∧ c.size ≤ bs.length ∧ Filled c s.2.mem (bs.take c.size) ∨
    (∃ what, s.2.pc = .threw what) ∧ bs.length < c.size

/-- However the bytes `bs` and the end of file behind them are delivered, the call ends. -/
def Ends (kind : Kind) (bs : List UInt8) (c : ReadCall) : Prop :=
  Inevitable (readStep kind) (fun res => ∃ n, res = .count n)
    (fun s => ∀ current size, s.2.pc ≠ .call current size) (Ended c bs)
    (⟨bs, true⟩, .start c.buffer c.size c.mem)

section
variable {kind : Kind} {bs : List UInt8} {c : ReadCall}

/-- Each `::recv` stores a byte as long as there are enough. -/
theorem ends_of_le (hle : c.size ≤ bs.length) : Ends kind bs c := by
  refine inevitable_of_measure (I := fun s => ∃ current, Reading c bs s.2 current ∧
    bs.drop current = s.1.pending) (fun s => s.2.pc.remaining) ?_ ?_
    ⟨0, Reading.start c bs, List.drop_zero⟩
  · rintro ⟨st, r⟩ a ⟨st', r'⟩ ⟨current, h, hbs⟩ ⟨n, rfl⟩ hs
    obtain ⟨h', hbs', hlt, hzero, -⟩ :=
      h.recv (hbs.trans (List.append_nil _).symm) hs
    refine ⟨⟨current + n, h', hbs'.trans (List.append_nil _)⟩, ?_⟩
    have hpending : st.pending.length = bs.length - current := by
      rw [← List.length_drop, hbs]
    have hn : n ≠ 0 := by
      intro h0
      rw [(hzero h0).2, List.length_nil] at hpending
      omega
    have hle' := h'.le
    rw [h.pc, h'.pc, remaining_loop, remaining_loop]
    omega
  · rintro ⟨st, r⟩ ⟨current, h, hbs⟩ hdone
    have hsize : c.size - current = 0 := by
      by_contra hpos
      exact hdone current (c.size - current) (h.call (by omega))
    obtain rfl : current = c.size := by have := h.le; omega
    exact Or.inl ⟨by rw [h.pc, loop_returned_iff, hsize], hle, h.filled⟩

/-- At the end of the file `::recv` returns 0, which moves nothing. -/
theorem not_ends_of_lt (hlt : bs.length < c.size) : ¬ Ends kind bs c := by
  refine not_inevitable (J := fun s => ∃ current, Reading c bs s.2 current ∧
    bs.drop current = s.1.pending ∧ s.1.closed = true) ?_ ?_
    ⟨0, Reading.start c bs, List.drop_zero, rfl⟩
  · rintro ⟨st, r⟩ ⟨current, h, -, -⟩ hend
    have hlen := h.length
    have hpc : r.pc = .call current (c.size - current) := h.call (hlen.trans_lt hlt)
    rcases hend with ⟨hret, -⟩ | ⟨⟨what, hthrew⟩, -⟩
    · cases hpc.symm.trans hret
    · cases hpc.symm.trans hthrew
  · rintro ⟨st, r⟩ ⟨current, h, hbs, hclosed⟩
    have hlen := h.length
    have hpending : st.pending.length = bs.length - current := by
      rw [← List.length_drop, hbs]
    have hmay : st.MayRecv (c.size - current) (.count st.pending.length) := by
      rcases Nat.eq_zero_or_pos st.pending.length with h0 | hpos
      · exact Or.inr ⟨h0, hclosed, List.eq_nil_of_length_eq_zero h0⟩
      · exact Or.inl ⟨hpos, by omega, le_rfl⟩
    have hpc : r.pc = .call current (c.size - current) := h.call (hlen.trans_lt hlt)
    obtain ⟨st', r', hs⟩ : ∃ st' r', readStep kind (st, r) (.count st.pending.length) =
        some (st', r') := by
      simp only [readStep, Reader.recv, hpc, if_pos hmay]
      exact ⟨_, _, rfl⟩
    obtain ⟨h', hbs', -, -, hclosed'⟩ := h.recv (hbs.trans (List.append_nil _).symm) hs
    exact ⟨_, _, ⟨_, rfl⟩, hs, _, h', hbs'.trans (List.append_nil _), hclosed'.trans hclosed⟩

/-- **Reads at the end of a file**: a call ends, however the stream is delivered, if and only
    if the stream has all of its bytes. -/
theorem ends_iff (kind : Kind) (bs : List UInt8) (c : ReadCall) :
    Ends kind bs c ↔ c.size ≤ bs.length := by
  constructor
  · intro h
    by_contra hlt
    exact not_ends_of_lt (Nat.lt_of_not_le hlt) h
  · exact ends_of_le

/-- A peer that closes after one of two bytes. -/
theorem read_spins : ¬ Ends .tcp [7] ⟨0, 2, fun _ => 0⟩ := not_ends_of_lt (by decide)

end

/-! ## A connection -/

/-- The bytes that these calls ask for. -/
def sizes (reads : List ReadCall) : ℕ := (reads.map ReadCall.size).sum

/-- The bytes that the kernel has not taken from the writer. -/
def State.unsent (s : State) : List UInt8 := s.writer.left ++ s.toWrite.flatten

/-- No call of the kernel fails. -/
def Act.moves : Act → Bool
  | .send (.failed _) => false
  | .recv (.failed _) => false
  | _ => true

section
variable (writes : List (List UInt8)) (reads : List ReadCall)

/-- The bytes of the stream from the call number `n` on. -/
def streamFrom (n : ℕ) : List UInt8 := writes.flatten.drop (sizes (reads.take n))

/-- The reads that have returned have got exactly their bytes, and the one that has not has
    taken none beyond its own. -/
structure Right (s : State) : Prop where
  returned : ∀ (j : ℕ) c m, reads[j]? = some c → s.returned[j]? = some m →
    Filled c m ((streamFrom writes reads j).take c.size)
  between : s.reader.pc = .returned →
    streamFrom writes reads s.returned.length = s.stream.pending ++ s.unsent
  during : s.reader.pc ≠ .returned → ∃ c, reads[s.returned.length]? = some c ∧
    (∃ k < c.size, (streamFrom writes reads s.returned.length).drop k =
      s.stream.pending ++ s.unsent) ∧
    ∀ i, i < c.buffer ∨ c.buffer + c.size ≤ i → s.reader.mem i = c.mem i

/-- The reader has stored `k` bytes of the call it is in. -/
inductive ReaderAt (s : State) : ℕ → Prop
  | between (hpc : s.reader.pc = .returned) (htodo : reads.drop s.returned.length = s.toRead) :
      ReaderAt s 0
  | during {c : ReadCall} {k : ℕ} (htodo : reads.drop s.returned.length = c :: s.toRead)
      (h : Reading c (streamFrom writes reads s.returned.length) s.reader k) (hlt : k < c.size) :
      ReaderAt s k

structure Inv (s : State) : Prop where
  writer : ∃ current, Writing s.writer current
  returned : ∀ (j : ℕ) c m, reads[j]? = some c → s.returned[j]? = some m →
    Filled c m ((streamFrom writes reads j).take c.size)
  reader : ∃ k, ReaderAt writes reads s k ∧
    (streamFrom writes reads s.returned.length).drop k = s.stream.pending ++ s.unsent
  open_ : s.stream.closed = false

/-- The steps that are left. -/
def work (s : State) : ℕ :=
  s.unsent.length + s.toWrite.length + s.reader.pc.remaining + (sizes s.toRead + s.toRead.length)

end

theorem sizes_cons (c : ReadCall) (reads : List ReadCall) :
    sizes (c :: reads) = c.size + sizes reads := by
  simp [sizes]

theorem sizes_append (xs ys : List ReadCall) : sizes (xs ++ ys) = sizes xs + sizes ys := by
  simp [sizes]

section
variable {writes : List (List UInt8)} {reads rest : List ReadCall} {c : ReadCall} {n : ℕ}

theorem getElem?_of_drop (h : reads.drop n = c :: rest) : reads[n]? = some c := by
  rw [← add_zero n, ← List.getElem?_drop, h]; rfl

/-- The bytes of the call number `n`, and what is behind them. -/
theorem streamFrom_succ (h : reads.drop n = c :: rest) :
    streamFrom writes reads (n + 1) = (streamFrom writes reads n).drop c.size := by
  rw [streamFrom, streamFrom, List.drop_drop, List.take_add_one, sizes_append,
    getElem?_of_drop h, Option.toList_some, sizes_cons]
  rfl

theorem drop_succ_of_drop (h : reads.drop n = c :: rest) : reads.drop (n + 1) = rest := by
  rw [← List.drop_drop, h]; rfl

/-- There are bytes for every call. -/
theorem le_streamFrom (hle : sizes reads ≤ writes.flatten.length) (h : reads.drop n = c :: rest) :
    c.size ≤ (streamFrom writes reads n).length := by
  have hsplit : sizes reads = sizes (reads.take n) + (c.size + sizes rest) := by
    rw [← sizes_cons, ← h, ← sizes_append, List.take_append_drop]
  rw [streamFrom, List.length_drop]
  omega

end

section
variable {writes : List (List UInt8)} {reads : List ReadCall} {kind : Kind} {s s' : State}

theorem inv_start : Inv writes reads (start writes reads) where
  writer := ⟨0, rfl⟩
  returned _ _ _ _ hm := by cases hm
  reader := ⟨0, .between rfl rfl, rfl⟩
  open_ := rfl

theorem Inv.right (h : Inv writes reads s) : Right writes reads s where
  returned := h.returned
  between hpc := by
    obtain ⟨k, hat, hs⟩ := h.reader
    cases hat with
    | between => exact hs
    | during _ hr hlt => exact absurd hpc (hr.not_returned hlt)
  during hpc := by
    obtain ⟨k, hat, hs⟩ := h.reader
    cases hat with
    | between hret => exact absurd hret hpc
    | during htodo hr hlt =>
      exact ⟨_, getElem?_of_drop htodo, ⟨k, hlt, hs⟩, fun i hi => hr.outside hi⟩

theorem ReaderAt.congr {k : ℕ} (h : ReaderAt writes reads s k) (hreader : s'.reader = s.reader)
    (htoRead : s'.toRead = s.toRead) (hreturned : s'.returned = s.returned) :
    ReaderAt writes reads s' k := by
  cases h with
  | between hpc htodo =>
    exact .between (by rw [hreader]; exact hpc) (by rw [hreturned, htoRead]; exact htodo)
  | during htodo hr hlt =>
    exact .during (by rw [hreturned, htoRead]; exact htodo)
      (by rw [hreturned, hreader]; exact hr) hlt

/-- The reader goes on in a call, or returns from it. -/
theorem Inv.setReader {c : ReadCall} {st : Stream} {r : Reader} {k : ℕ}
    (hwriter : ∃ current, Writing s.writer current)
    (hreturned : ∀ (j : ℕ) c m, reads[j]? = some c → s.returned[j]? = some m →
      Filled c m ((streamFrom writes reads j).take c.size))
    (htodo : reads.drop s.returned.length = c :: s.toRead)
    (hr : Reading c (streamFrom writes reads s.returned.length) r k)
    (hs : (streamFrom writes reads s.returned.length).drop k = st.pending ++ s.unsent)
    (hopen : st.closed = false) : Inv writes reads (s.setReader st r) := by
  by_cases hk : k = c.size
  · subst hk
    have hpc : r.pc = .returned := by rw [hr.pc, Nat.sub_self]; rfl
    have hset : s.setReader st r =
        { s with stream := st, reader := r, returned := s.returned ++ [r.mem] } := by
      rw [State.setReader, if_pos hpc]
    have hlen : (s.returned ++ [r.mem]).length = s.returned.length + 1 := by simp
    rw [hset]
    refine ⟨hwriter, ?_, ⟨0, .between hpc ?_, ?_⟩, hopen⟩
    · -- the call that has just returned is the last of them
      intro j c' m hc' hm
      rcases Nat.lt_or_ge j s.returned.length with hj | hj
      · rw [List.getElem?_append_left hj] at hm
        exact hreturned j c' m hc' hm
      · have hjlt : j < s.returned.length + 1 := by
          rw [← hlen]; exact (List.getElem?_eq_some_iff.1 hm).1
        obtain rfl : j = s.returned.length := by omega
        rw [getElem?_of_drop htodo] at hc'
        rw [List.getElem?_concat_length] at hm
        cases hc'
        cases hm
        exact hr.filled
    · rw [hlen]; exact drop_succ_of_drop htodo
    · rw [hlen, List.drop_zero, streamFrom_succ htodo]; exact hs
  · have hlt : k < c.size := Nat.lt_of_le_of_ne hr.le hk
    have hpc := hr.not_returned hlt
    have hset : s.setReader st r = { s with stream := st, reader := r } := by
      rw [State.setReader, if_neg hpc]
    rw [hset]
    exact ⟨hwriter, hreturned, ⟨k, .during htodo hr hlt, hs⟩, hopen⟩

@[simp] theorem remaining_start (buffer size : ℕ) (mem : Mem) :
    (Reader.start buffer size mem).pc.remaining = size := remaining_loop 0 size

theorem work_setReader (s : State) (st : Stream) (r : Reader) : work (s.setReader st r) =
    s.unsent.length + s.toWrite.length + r.pc.remaining + (sizes s.toRead + s.toRead.length) := rfl

/-- One step of the writer, the reader or the kernel. -/
theorem step_inv {a : Act} (h : Inv writes reads s) (ha : a.moves = true)
    (hs : step kind s a = some s') : Inv writes reads s' ∧ work s' < work s := by
  obtain ⟨current, hw⟩ := h.writer
  obtain ⟨k, hat, hstream⟩ := h.reader
  cases a with
  | write =>
    simp only [step] at hs
    split at hs
    case h_2 => cases hs
    case h_1 data toWrite hpc htodo =>
      cases hs
      have hleft : s.writer.left = [] := by rw [Writer.left, hpc]
      have hw' : Writing (.start data) 0 := rfl
      have hunsent : (State.unsent { s with toWrite := toWrite, writer := .start data }) =
          s.unsent := by
        rw [State.unsent, State.unsent, hleft, htodo, hw'.left]; rfl
      refine ⟨⟨⟨0, hw'⟩, h.returned, ⟨k, ?_, ?_⟩, h.open_⟩, ?_⟩
      · exact hat.congr rfl rfl rfl
      · rw [hunsent]; exact hstream
      · rw [work, work, hunsent, htodo, List.length_cons]
        dsimp only
        omega
  | send res =>
    cases res with
    | failed e => cases ha
    | count n =>
      rw [step, Option.map_eq_some_iff] at hs
      obtain ⟨⟨sent, writer⟩, hsend, rfl⟩ := hs
      obtain ⟨hw', hleft, hpos⟩ := hw.send hsend
      refine ⟨⟨⟨_, hw'⟩, h.returned, ⟨k, ?_, ?_⟩, h.open_⟩, ?_⟩
      · exact hat.congr rfl rfl rfl
      · rw [State.unsent, hleft] at hstream
        rw [State.unsent]
        simpa using hstream
      · simp only [work, State.unsent, hleft, List.length_append]
        omega
  | read =>
    simp only [step] at hs
    split at hs
    case h_2 => cases hs
    case h_1 c toRead hpc htoRead =>
      cases hs
      cases hat with
      | during _ hr hlt => exact absurd hpc (hr.not_returned hlt)
      | between _ htodo =>
        refine ⟨Inv.setReader (s := { s with toRead := toRead }) h.writer h.returned
          (htodo.trans htoRead) (Reading.start c _) hstream h.open_, ?_⟩
        rw [work_setReader, work, remaining_start, htoRead, sizes_cons, List.length_cons]
        show s.unsent.length + s.toWrite.length + c.size + (sizes toRead + toRead.length) < _
        omega
  | recv res =>
    cases res with
    | failed e => cases ha
    | count n =>
      rw [step, Option.map_eq_some_iff] at hs
      obtain ⟨⟨st, r⟩, hrecv, rfl⟩ := hs
      cases hat with
      | between hpc _ => rw [Reader.recv, hpc] at hrecv; cases hrecv
      | during htodo hr hlt =>
        obtain ⟨hr', hstream', -, hzero, hclosed⟩ := hr.recv hstream hrecv
        have hn : n ≠ 0 := by
          intro h0
          cases h.open_.symm.trans (hzero h0).1
        refine ⟨Inv.setReader h.writer h.returned htodo hr' hstream' (hclosed.trans h.open_), ?_⟩
        rw [work_setReader, work, hr.pc, hr'.pc, remaining_loop, remaining_loop]
        omega

/-- The writer goes on as long as there is something to send. -/
theorem Writing.exists_next {current : ℕ} (h : Writing s.writer current) (hs : s.unsent ≠ []) :
    ∃ a : Act, a.moves = true ∧ (step kind s a).isSome = true := by
  rcases Nat.lt_or_ge current s.writer.data.length with hlt | hge
  · refine ⟨.send (.count 1), rfl, ?_⟩
    have hpc : s.writer.pc = .call current (s.writer.data.length - current) := by
      rw [h, loop_pos (by omega)]
    have hmay : MaySend (s.writer.data.length - current) (.count 1) := ⟨Nat.one_pos, by omega⟩
    simp only [step, Writer.send, hpc, if_pos hmay]
    rfl
  · refine ⟨.write, rfl, ?_⟩
    have hpc : s.writer.pc = .returned := by
      rw [h, loop_returned_iff]; omega
    cases htodo : s.toWrite with
    | nil =>
      rw [State.unsent, h.left, List.drop_of_length_le hge, htodo] at hs
      exact absurd rfl hs
    | cons data toWrite =>
      simp only [step, hpc, htodo]
      rfl

/-- As long as a call has not returned, somebody can go on. -/
theorem Inv.exists_next (h : Inv writes reads s) (hle : sizes reads ≤ writes.flatten.length)
    (hlt : s.returned.length < reads.length) :
    ∃ a : Act, a.moves = true ∧ (step kind s a).isSome = true := by
  obtain ⟨k, hat, hstream⟩ := h.reader
  cases hat with
  | between hpc htodo =>
    rw [List.drop_eq_getElem_cons hlt] at htodo
    refine ⟨.read, rfl, ?_⟩
    simp only [step, hpc, ← htodo]
    rfl
  | @during c _ htodo hr hk =>
    have hpc := hr.call hk
    cases hp : s.stream.pending with
    | cons b pending =>
      have hmay : s.stream.MayRecv (c.size - k) (.count 1) :=
        Or.inl ⟨Nat.one_pos, by omega, by rw [hp]; exact Nat.succ_le_succ (Nat.zero_le _)⟩
      refine ⟨.recv (.count 1), rfl, ?_⟩
      simp only [step, Reader.recv, hpc, if_pos hmay]
      rfl
    | nil =>
      -- what the reader waits for has not been sent
      obtain ⟨current, hw⟩ := h.writer
      refine hw.exists_next fun hnil => ?_
      have hlen := congrArg List.length hstream
      rw [hp, hnil, List.append_nil, List.length_nil, List.length_drop] at hlen
      have := le_streamFrom hle htodo
      omega

/-- **Reads are exact**: however the kernel splits what is written and read, each call of
    `read` gets the next bytes of the stream, and all of them return. -/
theorem reads_exact (kind : Kind) (writes : List (List UInt8)) (reads : List ReadCall)
    (hle : sizes reads ≤ writes.flatten.length) (acts : List Act)
    (hmoves : ∀ a ∈ acts, a.moves = true) :
    AllStates (step kind) (Right writes reads) (start writes reads) acts ∧
      ∀ s, run (step kind) (start writes reads) acts = some s →
        acts.length ≤ writes.flatten.length + writes.length + (sizes reads + reads.length) ∧
        (reads.length ≤ s.returned.length ∨
          ∃ a : Act, a.moves = true ∧ (step kind s a).isSome = true) := by
  have hstep : ∀ s a s', Inv writes reads s → a.moves = true → step kind s a = some s' →
      Inv writes reads s' ∧ work s' < work s := fun s a s' hi ha hs => step_inv hi ha hs
  refine ⟨?_, fun s hr => ⟨?_, ?_⟩⟩
  · exact allStates_of_along (C := fun _ a => a.moves = true) (fun s hi => hi.right)
      (fun s a s' hi ha hs => (hstep s a s' hi ha hs).1) inv_start
      (along_of_forall fun a ha _ => hmoves a ha)
  · have := length_add_le work hstep inv_start hmoves hr
    exact (Nat.le_add_right _ _).trans this
  · have hi := inv_of_run (fun s a s' hi ha hs => (hstep s a s' hi ha hs).1) inv_start hmoves hr
    rcases Nat.lt_or_ge s.returned.length reads.length with hlt | hge
    · exact Or.inr (hi.exists_next hle hlt)
    · exact Or.inl hge

/-- Two buffers, read in two parts that cross their border. -/
def acrossBuffers : List Act :=
  [.write, .send (.count 1), .read, .recv (.count 1), .read, .send (.count 1), .write,
    .send (.count 1), .recv (.count 2), .send (.count 1), .recv (.count 1)]

theorem reads_acrossBuffers :
    ((run (step .domain) (start [[1, 2], [3, 4]] [⟨10, 1, fun _ => 0⟩, ⟨20, 3, fun _ => 7⟩])
        acrossBuffers).map fun s => s.returned.map fun mem => (mem 10, mem 20, mem 21, mem 22)) =
        some [(1, 0, 0, 0), (7, 2, 3, 4)] ∧
      AllStates (step .domain) (Right [[1, 2], [3, 4]] [⟨10, 1, fun _ => 0⟩, ⟨20, 3, fun _ => 7⟩])
        (start [[1, 2], [3, 4]] [⟨10, 1, fun _ => 0⟩, ⟨20, 3, fun _ => 7⟩]) acrossBuffers :=
  ⟨by decide +kernel, (reads_exact .domain _ _ (by decide) _ (by decide)).1⟩

end

end Socket

end L5RDMA
