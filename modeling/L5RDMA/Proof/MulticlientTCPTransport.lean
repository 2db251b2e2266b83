/-
  What `receive` of the multi-client TCP server returns is a whole message only
  if all of it has arrived.

  * `Conn.Ok`: of the bytes that a client has written and the server not
    consumed, those that have arrived come first, then those in flight;
  * `Whole`: each call of `receive` that has returned has stored and consumed
    exactly `maxSize` bytes of its client;
  * `received_whole_iff`: so it is in all states of a run if and only if each `::recv`
    finds at least `maxSize` bytes.
-/
import L5RDMA.MulticlientTCPTransport
import L5RDMA.Proof.Sockets

namespace L5RDMA

namespace MulticlientTCPTransport

open Run Socket

/-- The call has stored and consumed the next `maxSize` bytes of the stream. -/
def Received.Whole (r : Received) (written : List UInt8) : Prop :=
  r.stop = r.start + r.call.size ∧
    Filled r.call r.mem ((written.drop r.start).take r.call.size)

def Whole (s : State) : Prop := ∀ r ∈ s.received, r.Whole (s.conns r.id).written

/-- `::recv` finds all that it is asked for. -/
def Ready (s : State) (a : Act) : Prop :=
  a = .recv → ∀ readable whereTo maxSize mem, s.pc = .recv readable whereTo maxSize mem →
    maxSize ≤ (s.conns readable).stream.pending.length

/-- The client's call of `write` has failed. -/
def Conn.Threw (c : Conn) : Prop := ∃ what, c.writer.pc = .threw what

structure Conn.Ok (c : Conn) : Prop where
  consumed : c.consumed ≤ c.written.length
  writer : (∃ current, Writing c.writer current) ∨ c.Threw
  /-- what a reset has lost does not arrive -/
  reset : c.reset = true → c.stream.pending = [] ∧ c.inFlight = []
  bytes : c.reset = false → ∃ lost, (lost = [] ∨ c.Threw) ∧
    c.written.drop c.consumed = c.stream.pending ++ (c.inFlight ++ (c.writer.left ++ lost))

theorem Conn.Ok.new : Conn.new.Ok where
  consumed := le_rfl
  writer := Or.inl ⟨0, rfl⟩
  reset h := by cases h
  bytes _ := ⟨[], Or.inl rfl, rfl⟩

/-! ## The clients -/

section
variable {c c' : Conn} {a : Act}

/-- A failing `::send` ends the call. -/
theorem send_failed {w w' : Writer} {sent : List UInt8} {strerror : String}
    (h : w.send .tcp (.failed strerror) = some (sent, w')) :
    sent = [] ∧ w'.left = [] ∧ ∃ what, w'.pc = .threw what := by
  rw [Writer.send] at h
  cases hpc : w.pc with
  | returned => rw [hpc] at h; cases h
  | threw what => rw [hpc] at h; cases h
  | call current size =>
    simp only [hpc] at h
    split_ifs at h
    cases h
    exact ⟨rfl, rfl, _, rfl⟩

theorem send_threw {w : Writer} {what : String} (h : w.pc = .threw what) (res : Result) :
    w.send .tcp res = none := by
  simp only [Writer.send, h]

/-- Nothing is lost as long as the client's calls succeed. -/
theorem Conn.Ok.all (h : c.Ok) (hreset : c.reset = false) (hthrew : ¬ c.Threw) :
    c.written.drop c.consumed = c.stream.pending ++ (c.inFlight ++ c.writer.left) := by
  obtain ⟨lost, rfl | hthrew', hbytes⟩ := h.bytes hreset
  · rwa [List.append_nil] at hbytes
  · exact absurd hthrew' hthrew

/-- The client writes the next object. -/
theorem Conn.Ok.write (h : c.Ok) (hreset : c.reset = false) (hpc : c.writer.pc = .returned)
    (data : List UInt8) :
    { c with writer := .start data, written := c.written ++ data }.Ok := by
  refine ⟨?_, Or.inl ⟨0, rfl⟩, h.reset, fun _ => ⟨[], Or.inl rfl, ?_⟩⟩
  · rw [List.length_append]
    exact h.consumed.trans (Nat.le_add_right _ _)
  · have hbytes := h.all hreset fun ⟨what, hthrew⟩ => by cases hpc.symm.trans hthrew
    have hw : Writing (.start data) 0 := rfl
    have hstart : (Writer.start data).left = data := hw.left
    have hleft : c.writer.left = [] := by rw [Writer.left, hpc]
    rw [List.drop_append_of_le_length h.consumed, hbytes, hleft, hstart]
    simp only [List.append_nil, List.append_assoc]

/-- Its kernel takes some of the bytes, or fails. -/
theorem Conn.Ok.send (h : c.Ok) (hreset : c.reset = false) {res : Result} {sent : List UInt8}
    {writer : Writer} (hsend : c.writer.send .tcp res = some (sent, writer)) :
    { c with writer := writer, inFlight := c.inFlight ++ sent }.Ok := by
  have hthrew : ¬ c.Threw := by
    rintro ⟨what, hthrew⟩
    rw [send_threw hthrew] at hsend
    cases hsend
  have hbytes := h.all hreset hthrew
  have hno : c.reset = true → c.stream.pending = [] ∧ c.inFlight ++ sent = [] := by
    intro hr
    cases hreset.symm.trans hr
  obtain ⟨current, hw⟩ := h.writer.resolve_right hthrew
  cases res with
  | count n =>
    obtain ⟨hw', hleft, -⟩ := hw.send hsend
    refine ⟨h.consumed, Or.inl ⟨_, hw'⟩, hno, fun _ => ⟨[], Or.inl rfl, ?_⟩⟩
    rw [hbytes, hleft, List.append_nil, List.append_assoc]
  | failed strerror =>
    -- the rest of the object is lost
    obtain ⟨rfl, hleft, hthrew'⟩ := send_failed hsend
    refine ⟨h.consumed, Or.inr hthrew', hno, fun _ => ⟨c.writer.left, Or.inr hthrew', ?_⟩⟩
    rw [hbytes, hleft, List.append_nil, List.nil_append]

theorem Conn.Ok.arrive (h : c.Ok) {n : ℕ} (hn : 0 < n ∧ n ≤ c.inFlight.length) :
    { c with
      inFlight := c.inFlight.drop n
      stream := { c.stream with pending := c.stream.pending ++ c.inFlight.take n } }.Ok := by
  refine ⟨h.consumed, h.writer, fun hreset => ?_, fun hreset => ?_⟩
  · -- nothing is in flight
    obtain ⟨-, hflight⟩ := h.reset hreset
    rw [hflight, List.length_nil] at hn
    omega
  · obtain ⟨lost, hlost, hbytes⟩ := h.bytes hreset
    refine ⟨lost, hlost, ?_⟩
    rw [hbytes, List.append_assoc, ← List.append_assoc (c.inFlight.take n),
      List.take_append_drop]

/-- No step of a client or its connection loses a byte or puts one out of its order. -/
theorem Conn.Ok.step (h : c.Ok) (hs : c.step a = some c') :
    c'.Ok ∧ ∃ more, c'.written = c.written ++ more := by
  have hsame : ∃ more, c.written = c.written ++ more := ⟨[], (List.append_nil _).symm⟩
  have hopen : ¬ (c.closing = true ∨ c.reset = true) → c.reset = false := fun hgone =>
    Bool.eq_false_of_not_eq_true fun hreset => hgone (Or.inr hreset)
  cases a with
  | write i data =>
    simp only [Conn.step] at hs
    split at hs
    case h_2 => cases hs
    case h_1 hpc =>
      split_ifs at hs with hgone
      cases hs
      exact ⟨h.write (hopen hgone) hpc data, data, rfl⟩
  | send i res =>
    simp only [Conn.step] at hs
    split_ifs at hs with hgone
    obtain ⟨⟨sent, writer⟩, hsend, rfl⟩ := Option.map_eq_some_iff.1 hs
    exact ⟨h.send (hopen hgone) hsend, hsame⟩
  | close i =>
    cases hs
    exact ⟨⟨h.consumed, h.writer, h.reset, h.bytes⟩, hsame⟩
  | arrive i n =>
    simp only [Conn.step] at hs
    split_ifs at hs with hn
    cases hs
    exact ⟨h.arrive hn, hsame⟩
  | endOfFile i =>
    simp only [Conn.step] at hs
    split_ifs at hs
    cases hs
    exact ⟨⟨h.consumed, h.writer, h.reset, h.bytes⟩, hsame⟩
  | reset i =>
    cases hs
    exact ⟨⟨h.consumed, h.writer, fun _ => ⟨rfl, rfl⟩, fun hreset => by cases hreset⟩, hsame⟩
  | _ => cases hs

end

/-- The bytes that a call has got stay those of the stream. -/
theorem Received.Whole.append {r : Received} {written : List UInt8} (h : r.Whole written)
    (more : List UInt8) : r.Whole (written ++ more) := by
  obtain ⟨hstop, hfilled⟩ := h
  have hlen : r.call.size ≤ written.length - r.start := by
    have := congrArg List.length hfilled.read
    rw [Mem.length_read, List.length_take, List.length_drop] at this
    omega
  have hsame : ((written ++ more).drop r.start).take r.call.size =
      (written.drop r.start).take r.call.size := by
    rw [List.drop_append, List.take_append_of_le_length (by rw [List.length_drop]; exact hlen)]
  exact ⟨hstop, by rw [hsame]; exact hfilled⟩

/-! ## The server -/

section
variable {s s' : State} {readable whereTo maxSize : ℕ} {mem : Mem} {res : Result}

/-- What the call that returns has consumed. -/
theorem exists_received (whereTo : ℕ) (mem : Mem) (h : (s.conns readable).Ok)
    (hrecv : (s.conns readable).recv maxSize = some res) :
    ∃ r, (s.finish readable whereTo maxSize mem res).received = s.received ++ [r] ∧
      r.call.size = maxSize ∧
      r.stop = r.start + min maxSize (s.conns readable).stream.pending.length := by
  rw [Conn.recv] at hrecv
  split_ifs at hrecv with hreset
  · cases hrecv
    refine ⟨_, rfl, rfl, ?_⟩
    rw [(h.reset hreset).1, List.length_nil, Nat.min_zero]
    rfl
  · cases hrecv
    exact ⟨_, rfl, rfl, rfl⟩

/-- `::recv` takes the next bytes of the client. -/
theorem Conn.Ok.take {c : Conn} (h : c.Ok) (hreset : c.reset = false) {n : ℕ}
    (hn : n ≤ c.stream.pending.length) :
    { c with
      stream := { c.stream with pending := c.stream.pending.drop n }
      consumed := c.consumed + n }.Ok ∧
    (c.written.drop c.consumed).take n = c.stream.pending.take n := by
  obtain ⟨lost, hlost, hbytes⟩ := h.bytes hreset
  refine ⟨⟨?_, h.writer, fun hr => ?_, fun _ => ⟨lost, hlost, ?_⟩⟩, ?_⟩
  · have hlen := congrArg List.length hbytes
    have hle := h.consumed
    rw [List.length_drop, List.length_append] at hlen
    show c.consumed + n ≤ c.written.length
    omega
  · cases hreset.symm.trans hr
  · rw [← List.drop_drop, hbytes, List.drop_append_of_le_length hn]
  · rw [hbytes, List.take_append_of_le_length hn]

theorem finish_conns (s : State) (readable whereTo maxSize n : ℕ) (mem : Mem) :
    (s.finish readable whereTo maxSize mem (.count n)).conns =
      Function.update s.conns readable
        { s.conns readable with
          stream :=
            { (s.conns readable).stream with
              pending := (s.conns readable).stream.pending.drop n }
          consumed := (s.conns readable).consumed + n } := rfl

/-- If all of it has arrived, the call is right. -/
theorem finish_whole (h : ∀ i, (s.conns i).Ok) (hw : Whole s)
    (hrecv : (s.conns readable).recv maxSize = some res)
    (hle : maxSize ≤ (s.conns readable).stream.pending.length) :
    (∀ i, ((s.finish readable whereTo maxSize mem res).conns i).Ok) ∧
      Whole (s.finish readable whereTo maxSize mem res) := by
  rw [Conn.recv] at hrecv
  split_ifs at hrecv with hreset
  · -- a reset leaves nothing to read
    cases hrecv
    rw [((h readable).reset hreset).1] at hle
    obtain rfl : maxSize = 0 := Nat.le_zero.1 hle
    refine ⟨h, fun r hr => ?_⟩
    rcases List.mem_append.1 hr with hr | hr
    · exact hw r hr
    · obtain rfl := List.mem_singleton.1 hr
      exact ⟨rfl, rfl, fun _ _ => rfl⟩
  · cases hrecv
    rw [Nat.min_eq_left hle]
    obtain ⟨hok, hnext⟩ := (h readable).take (Bool.eq_false_of_not_eq_true hreset) hle
    refine ⟨fun i => ?_, fun r hr => ?_⟩
    · by_cases hi : i = readable
      · subst hi
        rw [finish_conns, Function.update_self]
        exact hok
      · rw [finish_conns, Function.update_of_ne hi]
        exact h i
    · have hwritten : ∀ i,
          ((s.finish readable whereTo maxSize mem (.count maxSize)).conns i).written =
            (s.conns i).written := by
        intro i
        by_cases hi : i = readable
        · subst hi
          rw [finish_conns, Function.update_self]
        · rw [finish_conns, Function.update_of_ne hi]
      rw [hwritten]
      rcases List.mem_append.1 hr with hr | hr
      · exact hw r hr
      · obtain rfl := List.mem_singleton.1 hr
        refine ⟨rfl, ?_⟩
        rw [hnext]
        exact filled_write (c := ⟨whereTo, maxSize, mem⟩) (List.length_take_of_le hle)

/-- A step that finds all it is asked for. -/
theorem step_whole {a : Act} (h : ∀ i, (s.conns i).Ok) (hw : Whole s) (hready : Ready s a)
    (hs : step s a = some s') : (∀ i, (s'.conns i).Ok) ∧ Whole s' := by
  rw [step] at hs
  cases hc : a.client with
  | some i =>
    rw [hc] at hs
    obtain ⟨c, hstep, rfl⟩ := Option.map_eq_some_iff.1 hs
    obtain ⟨hok, more, hmore⟩ := (h i).step hstep
    refine ⟨fun j => ?_, fun r hr => ?_⟩
    · show (Function.update s.conns i c j).Ok
      by_cases hj : j = i
      · subst hj; rw [Function.update_self]; exact hok
      · rw [Function.update_of_ne hj]; exact h j
    · show r.Whole (Function.update s.conns i c r.id).written
      have hold := hw r hr
      by_cases hj : r.id = i
      · rw [hj, Function.update_self, hmore]
        rw [hj] at hold
        exact hold.append more
      · rw [Function.update_of_ne hj]; exact hold
  | none =>
    rw [hc] at hs
    cases a with
    | recv =>
      simp only [State.serve] at hs
      split at hs
      case h_2 => cases hs
      case h_1 readable whereTo maxSize mem hpc =>
        obtain ⟨res, hrecv, rfl⟩ := Option.map_eq_some_iff.1 hs
        exact finish_whole h hw hrecv (hready rfl _ _ _ _ hpc)
    | accept =>
      simp only [State.serve] at hs
      split at hs <;> cases hs
      · exact ⟨h, hw⟩
      · exact ⟨h, hw⟩
    | receive whereTo maxSize mem =>
      simp only [State.serve] at hs
      split at hs <;> cases hs
      · exact ⟨h, hw⟩
      · exact ⟨h, hw⟩
    | poll revents =>
      simp only [State.serve] at hs
      split at hs
      case h_2 => cases hs
      case h_1 =>
        split_ifs at hs
        split at hs <;> cases hs
        · exact ⟨h, hw⟩
        · exact ⟨h, hw⟩
    | pollFails strerror =>
      simp only [State.serve] at hs
      split at hs <;> cases hs
      exact ⟨h, hw⟩
    | _ => cases hc

/-- A short read is returned like a whole one. -/
theorem not_whole_of_short {a : Act} (h : ∀ i, (s.conns i).Ok) (hready : ¬ Ready s a)
    (hs : step s a = some s') : ¬ Whole s' := by
  simp only [Ready, not_forall, exists_prop] at hready
  obtain ⟨rfl, readable, whereTo, maxSize, mem, hpc, hlt⟩ := hready
  simp only [step, Act.client, State.serve, hpc, Option.map_eq_some_iff] at hs
  obtain ⟨res, hrecv, rfl⟩ := hs
  obtain ⟨r, hreceived, hsize, hstop⟩ := exists_received whereTo mem (h readable) hrecv
  intro hw
  have hr := (hw r (by rw [hreceived]; simp)).1
  omega

end

/-- **Whole messages**: each call of `receive` returns a whole message of the client whose id
    it returns, in all states of a run, if and only if each `::recv` finds all of it. -/
theorem received_whole_iff (acts : List Act) :
    AllStates step Whole start acts ↔ Along step Ready start acts := by
  refine allStates_iff_along (I := fun s => (∀ i, (s.conns i).Ok) ∧ Whole s) (fun s h => h.2)
    (fun s a s' h hready hs => step_whole h.1 h.2 hready hs)
    (fun s a s' h hready hs => not_whole_of_short h.1 hready hs) acts ?_
  exact ⟨fun _ => Conn.Ok.new, fun r hr => by cases hr⟩

/-- Half of an object of two bytes has arrived. -/
theorem shortRead_returned : ¬ AllStates step Whole start
    [.accept, .write 0 [1, 2], .send 0 (.count 2), .arrive 0 1, .receive 0 2 fun _ => 0,
      .poll [1], .recv] := by
  intro h
  have hw := h.last rfl
  have hstop := (hw _ (List.mem_singleton.2 rfl)).1
  exact absurd hstop (by decide)

end MulticlientTCPTransport

end L5RDMA
