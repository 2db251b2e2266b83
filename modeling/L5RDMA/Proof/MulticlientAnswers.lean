/-
  Which answers a client can decode.

  The size word of an answer is also the sign that it is there.  An empty answer
  has the size word of an idle buffer and is never seen, and the length of an
  answer of almost 2^64 bytes wraps around, so that at most its size word is
  posted.  `decodes_iff`: every other answer that passes the check of `send` is
  returned complete, whatever earlier answers have left in the buffer, and the
  buffer is idle again.
-/
import L5RDMA.Proof.MulticlientClient
import L5RDMA.Proof.MulticlientSend

namespace L5RDMA

namespace Multiclient

open Verbs Run
open Pos (lengthOf)

/-- A client's buffer after a write has arrived in it, as one. -/
def landed (m sendBuffer : Mem) (wr : Write) : Mem :=
  Mem.write id m wr.remoteOff (wr.bytes id sendBuffer wr.length)

/-- A call of `receive` comes to its end, with `data`, and the size word is zero again. -/
def Decodes (t : Transport) (r : Receiver) (data : List UInt8) : Prop :=
  ∃ n r', run (fun r (_ : Unit) => t.receiveStep r) r (List.replicate n ()) = some r' ∧
    r'.pc = .idle ∧ r'.got = r.got ++ [data] ∧ sizeWord r'.receiveBuffer = 0

section
variable {t : Transport} {srv srv' : Server} {c : ℕ} {data : List UInt8} {p : Posted}

/-- What a call of `send` posts are the bytes at the start of `sendBuffer`. -/
theorem posted_bytes (hrun : run (step t) srv [.send c data, .server] = some srv')
    (hp : (srv'.connections c).sq = (srv.connections c).sq ++ [p]) :
    p.wr.remoteOff = 0 ∧ p.wr.bytes id srv'.sendBuffer p.wr.length =
      Mem.read id (fill srv.sendBuffer data) 0 (lengthOf data + 8 + 1).toNat := by
  rw [run] at hrun
  cases hs : step t srv (.send c data) with
  | none => rw [hs] at hrun; cases hrun
  | some srv₁ =>
    rw [hs] at hrun
    simp only [step] at hs
    split at hs
    next hidle =>
      by_cases hrefused : t.maxMessageSize < lengthOf data + 8 + 1 ∨ srv.count < c
      · rw [send_refused hrefused] at hs
        cases hs
        simp [run, step, Server.step, hidle] at hrun
      · rw [not_or, Nat.not_lt] at hrefused
        obtain ⟨hsize, hcount⟩ := hrefused
        rcases Nat.lt_or_eq_of_le hcount with hlt | rfl
        · rw [send_admitted hsize hlt] at hs
          cases hs
          cases hrun
          simp only [Function.update_self, List.append_cancel_left_eq, List.cons.injEq,
            and_true] at hp
          subst hp
          refine ⟨rfl, List.map_congr_left fun i hi => ?_⟩
          rw [List.mem_range] at hi
          refine Write.byte_local hi fun bs hbs => ?_
          simp only [answerWr] at hbs
          split_ifs at hbs
          exact (Option.some.inj hbs).symm
        · rw [send_past hsize] at hs
          cases hs
    next => cases hs

theorem read_fill (m : Mem) (hlen : data.length + 9 < 2 ^ 64) :
    Mem.read id (fill m data) 0 (lengthOf data + 8 + 1).toNat = answerFrame data := by
  have hsize : (lengthOf data).toNat = data.length := by
    rw [lengthOf, Pos.ofNat_toNat, Nat.mod_eq_of_lt (by omega)]
  rw [totalLength_toNat (by omega), if_pos hlen]
  refine List.ext_getElem ?_ fun i hi hi' => ?_
  · rw [Mem.length_read, length_answerFrame]
  · rw [Mem.length_read] at hi
    have hread : (Mem.read id (fill m data) 0 _)[i]? = some (fill m data (0 + i)) :=
      Mem.read_get hi
    rw [List.getElem?_eq_getElem (by simpa using hi), Nat.zero_add, Option.some.injEq] at hread
    exact hread.trans (fill_eq m hsize (List.getElem?_eq_getElem hi'))

theorem landed_frame (m : Mem) {i : ℕ} {b : UInt8} (hb : (answerFrame data)[i]? = some b) :
    Mem.write id m 0 (answerFrame data) i = b := by
  have hw : Mem.write id m 0 (answerFrame data) (0 + i) = b := Mem.write_id_of_get hb
  rwa [Nat.zero_add] at hw

theorem sizeWord_frame (m : Mem) (data : List UInt8) :
    sizeWord (Mem.write id m 0 (answerFrame data)) = lengthOf data :=
  sizeWord_eq fun _ _ hb => landed_frame m (get_size hb)

theorem decodes_of_frame (t : Transport) {m : Mem} {maxSize : UInt64} {got : List (List UInt8)}
    (hpos : 1 ≤ data.length) (hlen : data.length + 9 < 2 ^ 64) (hmax : lengthOf data ≤ maxSize) :
    Decodes t ⟨Mem.write id m 0 (answerFrame data), .size maxSize, got⟩ data := by
  have hsize : (lengthOf data).toNat = data.length := by
    rw [lengthOf, Pos.ofNat_toNat, Nat.mod_eq_of_lt (by omega)]
  have hne : lengthOf data ≠ 0 := by
    intro h0
    rw [h0] at hsize
    have : (0 : UInt64).toNat = 0 := rfl
    omega
  have hr := Receiver.run_receive t.rereads
    (r := ⟨Mem.write id m 0 (answerFrame data), .size maxSize, got⟩) rfl
    (sizeWord_frame m data) hne (by rw [hsize]; exact landed_frame m (get_validity data)) hmax
  refine ⟨4, _, (by rw [t.receiveStep_eq]; exact hr), rfl, ?_, ?_⟩
  · dsimp only
    rw [hsize, read_payload fun i b hb => landed_frame m hb]
  · exact sizeWord_zero fun i hi => write_zero hi

theorem exists_posted (hpc : srv.pc = .idle) (h : ¬ t.maxMessageSize < lengthOf data + 8 + 1)
    (hc : c < srv.count) : ∃ srv' p, run (step t) srv [.send c data, .server] = some srv' ∧
      (srv'.connections c).sq = (srv.connections c).sq ++ [p] := by
  obtain ⟨srv', hrun, ⟨p, -, hcon⟩, -⟩ := posts hpc h hc
  exact ⟨srv', p, hrun, by rw [hcon, Function.update_self]⟩

/-- A client does not return from a buffer whose size word is zero, or that holds nothing but a
    size word. -/
theorem not_decodes {m : Mem} {maxSize : UInt64} {got : List (List UInt8)}
    (h : sizeWord m = 0 ∨ ∀ i ≥ 8, m i = 0) : ¬ Decodes t ⟨m, .size maxSize, got⟩ data := by
  rintro ⟨n, r', hr, hidle, -, -⟩
  have hinv := inv_of_run (D := fun _ => True)
    (I := fun r : Receiver => r.receiveBuffer = m ∧
      (r.pc = .size maxSize ∨ sizeWord m ≠ 0 ∧ ∃ size, r.pc = .check maxSize size)) ?_
    ⟨rfl, Or.inl rfl⟩ (fun _ _ => trivial) hr
  · rcases hinv.2 with hpc | ⟨-, size, hpc⟩
    · rw [hpc] at hidle; cases hidle
    · rw [hpc] at hidle; cases hidle
  · rintro r - r' ⟨rfl, hpc⟩ - hs
    rw [t.receiveStep_eq] at hs
    rcases hpc with hpc | ⟨hne, size, hpc⟩
    · simp only [receiveStep, hpc] at hs
      split_ifs at hs with h0
      · cases hs; exact ⟨rfl, Or.inl hpc⟩
      · cases hs; exact ⟨rfl, Or.inr ⟨h0, _, rfl⟩⟩
    · -- there is no `validity` byte
      have hv : ¬ r.receiveBuffer (8 + size.toNat) = validity := by
        rw [h.resolve_left hne _ (Nat.le_add_right _ _)]
        decide
      simp only [receiveStep, hpc, if_neg hv] at hs
      split_ifs at hs
      · cases hs; exact ⟨rfl, Or.inl rfl⟩
      · cases hs; exact ⟨rfl, Or.inr ⟨hne, size, hpc⟩⟩

end

/-- **An admitted answer can be decoded** from every idle buffer iff it is not empty and its
    length does not wrap around. -/
theorem decodes_iff (t : Transport) {srv srv' : Server} {c : ℕ} {data : List UInt8} {p : Posted}
    (hlen : data.length < 2 ^ 64) (hrun : run (step t) srv [.send c data, .server] = some srv')
    (hp : (srv'.connections c).sq = (srv.connections c).sq ++ [p]) :
    (∀ m maxSize got, sizeWord m = 0 → lengthOf data ≤ maxSize →
        Decodes t ⟨landed m srv'.sendBuffer p.wr, .size maxSize, got⟩ data) ↔
      1 ≤ data.length ∧ data.length + 9 < 2 ^ 64 := by
  obtain ⟨hoff, hbytes⟩ := posted_bytes hrun hp
  have hlanded : ∀ m, landed m srv'.sendBuffer p.wr =
      Mem.write id m 0 (Mem.read id (fill srv.sendBuffer data) 0
        (lengthOf data + 8 + 1).toNat) := by
    intro m
    rw [landed, hoff, hbytes]
  constructor
  · intro h
    have hzero : sizeWord (fun _ => 0) = 0 := sizeWord_zero fun _ _ => rfl
    have hdec := h (fun _ => 0) (lengthOf data) [] hzero (UInt64.le_refl _)
    rw [hlanded] at hdec
    by_contra hnot
    refine not_decodes ?_ hdec
    by_cases hempty : data.length = 0
    · -- the size word of the answer is zero
      obtain rfl := List.length_eq_zero_iff.1 hempty
      left
      rw [read_fill srv.sendBuffer (by decide)]
      exact sizeWord_frame _ []
    · -- no more than the size word is posted
      right
      intro i hi
      refine Mem.write_id_of_ne (Or.inr ?_)
      rw [Mem.length_read, totalLength_toNat hlen, if_neg (by omega)]
      omega
  · rintro ⟨hpos, hfits⟩ m maxSize got - hmax
    rw [hlanded, read_fill srv.sendBuffer hfits]
    exact decodes_of_frame t hpos hfits hmax

/-- An answer of one byte, which is also the byte `validity`. -/
theorem decodes_validity : ∃ (srv' : Server) (p : Posted),
    run (step .recv) (Server.init 1) [.send 0 [4], .server] = some srv' ∧
      (srv'.connections 0).sq = [p] ∧ ∀ m, sizeWord m = 0 →
        Decodes .recv ⟨landed m srv'.sendBuffer p.wr, .size 1, []⟩ [4] := by
  obtain ⟨srv', p, hrun, hp⟩ : ∃ srv' p,
      run (step .recv) (Server.init 1) [.send 0 [4], .server] = some srv' ∧
        (srv'.connections 0).sq = [p] := exists_posted rfl (by decide) (by decide)
  refine ⟨srv', p, hrun, hp, fun m hm => ?_⟩
  exact (decodes_iff .recv (by decide) hrun hp).2 (by decide) m 1 [] hm (by decide)

/-- The empty answer is posted, and a client with an empty buffer never returns it. -/
def LosesEmpty (t : Transport) : Prop :=
  ∃ (srv' : Server) (p : Posted), run (step t) (Server.init 1) [.send 0 [], .server] = some srv' ∧
    (srv'.connections 0).sq = ((Server.init 1).connections 0).sq ++ [p] ∧
      ∀ maxSize, ¬ Decodes t ⟨landed (fun _ => 0) srv'.sendBuffer p.wr, .size maxSize, []⟩ []

theorem losesEmpty (t : Transport) : LosesEmpty t := by
  have hsize : ¬ t.maxMessageSize < lengthOf [] + 8 + 1 := by cases t <;> decide
  have hidle : (Server.init 1).pc = .idle := rfl
  obtain ⟨srv', p, hrun, hp⟩ := exists_posted hidle hsize (Nat.zero_lt_one)
  refine ⟨srv', p, hrun, hp, fun maxSize => not_decodes (Or.inl ?_)⟩
  obtain ⟨hoff, hbytes⟩ := posted_bytes hrun hp
  rw [landed, hoff, hbytes, read_fill _ (by decide)]
  exact sizeWord_frame _ []

theorem emptyAnswer_lost : LosesEmpty .doorbell ∧ LosesEmpty .recv ∧ LosesEmpty .distinctMr :=
  ⟨losesEmpty .doorbell, losesEmpty .recv, losesEmpty .distinctMr⟩

end Multiclient

end L5RDMA
