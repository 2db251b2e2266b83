/-
  When the servers' `send` throws.

  It checks the size with its header and trailer, a sum of 64 bits, and
  `receiverId` against the number of connections, which is one too large for an
  index.  A sum that wraps around passes, and so does the index after the last.

  `send_right_iff`: these two kinds of calls apart, `send` throws when it has
  to, and else posts one write and stays within `connections` and `sendBuffer`.
-/
import L5RDMA.Lib.Run
import L5RDMA.Proof.MulticlientServer

namespace L5RDMA

namespace Multiclient

open Run
open Pos (lengthOf)

namespace Index

/-- There is such an element, and there are such bytes. -/
def InRange (maxMessageSize : UInt64) (srv : Server) : Index → Prop
  | connection i => i < srv.count
  | sendBuffer off length => off + length ≤ maxMessageSize.toNat

/-- Byte `i` of `sendBuffer` is among those used. -/
def Covers (i : ℕ) : Index → Prop
  | connection _ => False
  | sendBuffer off length => off ≤ i ∧ i < off + length

end Index

theorem Index.InRange.not_covers {maxMessageSize : UInt64} {srv : Server} {j : Index} {i : ℕ}
    (h : j.InRange maxMessageSize srv) (hi : maxMessageSize.toNat ≤ i) : ¬ j.Covers i := by
  cases j with
  | connection c => exact id
  | sendBuffer off length =>
    intro hcov
    rw [InRange] at h
    rw [Covers] at hcov
    omega

/-- `send` comes back without having posted anything. -/
def Throws (t : Transport) (srv : Server) (receiverId : ℕ) (data : List UInt8) : Prop :=
  ∃ srv', t.send srv receiverId data = some srv' ∧ srv'.pc = .idle

/-- One write of `length` bytes has been posted on the queue pair of connection `c`. -/
def PostedOne (srv : Server) (c length : ℕ) (srv' : Server) : Prop :=
  ∃ p, p.wr.length = length ∧ srv'.connections = Function.update srv.connections c
    { srv.connections c with
      sendCounter := (srv.connections c).sendCounter + 1
      sq := (srv.connections c).sq ++ [p] }

/-- `send` throws exactly when it must, and does what it says. -/
structure SendRight (t : Transport) (srv : Server) (receiverId : ℕ) (data : List UInt8) : Prop where
  throws : Throws t srv receiverId data ↔
    t.maxMessageSize.toNat < data.length + 9 ∨ ¬ receiverId < srv.count
  quiet : ∀ srv', t.send srv receiverId data = some srv' → srv'.pc = .idle →
    srv'.connections = srv.connections
  posts : ¬ Throws t srv receiverId data →
    (∀ i ∈ sendIndices receiverId (lengthOf data), i.InRange t.maxMessageSize srv) ∧
      ∃ srv', run (step t) srv [.send receiverId data, .server] = some srv' ∧
        PostedOne srv receiverId (data.length + 9) srv' ∧
        ∀ i ≥ t.maxMessageSize.toNat, srv'.sendBuffer i = srv.sendBuffer i

section
variable {t : Transport} {srv : Server} {receiverId : ℕ} {data : List UInt8}

/-- What is written to `sendBuffer` is at the indices of `send`. -/
theorem fill_of_not_covered (m : Mem) (receiverId : ℕ) (hlen : data.length < 2 ^ 64) {i : ℕ}
    (h : ∀ j ∈ sendIndices receiverId (lengthOf data), ¬ j.Covers i) : fill m data i = m i := by
  have hsize : (lengthOf data).toNat = data.length := by
    rw [lengthOf, Pos.ofNat_toNat, Nat.mod_eq_of_lt hlen]
  have hl : (bytesOf (lengthOf data)).length = 8 := Bytes.length_le64 _
  simp [sendIndices, Index.Covers, hsize] at h
  rw [fill, Mem.write_id_of_ne, Mem.write_id_of_ne, Mem.write_id_of_ne]
  · omega
  · omega
  · rw [hsize, List.length_singleton]; omega

theorem totalLength_toNat (hlen : data.length < 2 ^ 64) : (lengthOf data + 8 + 1).toNat =
    if data.length + 9 < 2 ^ 64 then data.length + 9 else data.length + 9 - 2 ^ 64 := by
  rw [answerSize, Pos.ofNat_toNat]
  split_ifs with hwrap
  · exact Nat.mod_eq_of_lt hwrap
  · rw [Nat.mod_eq_sub_mod (by omega), Nat.mod_eq_of_lt (by omega)]

theorem maxMessageSize_toNat (t : Transport) :
    9 ≤ t.maxMessageSize.toNat ∧ t.maxMessageSize.toNat + 9 < 2 ^ 64 := by
  cases t <;> decide

/-! ## What the checks do -/

theorem send_refused (h : t.maxMessageSize < lengthOf data + 8 + 1 ∨ srv.count < receiverId) :
    t.send srv receiverId data = some srv := by
  rw [t.send_eq]
  unfold sendTo
  by_cases hsize : t.maxMessageSize < lengthOf data + 8 + 1
  · exact if_pos hsize
  · exact (if_neg hsize).trans (if_pos (h.resolve_left hsize))

/-- The element after the last is looked up. -/
theorem send_past (h : ¬ t.maxMessageSize < lengthOf data + 8 + 1) :
    t.send srv srv.count data = none := by
  rw [t.send_eq]
  unfold sendTo
  exact (if_neg h).trans ((if_neg (Nat.lt_irrefl _)).trans (if_pos rfl))

theorem send_admitted (h : ¬ t.maxMessageSize < lengthOf data + 8 + 1)
    (hr : receiverId < srv.count) : t.send srv receiverId data = some { srv with
      sendBuffer := fill srv.sendBuffer data
      pc := .post receiverId (lengthOf data + 8 + 1) (answerFrame data) } := by
  rw [t.send_eq]
  unfold sendTo
  exact (if_neg h).trans ((if_neg (Nat.not_lt.2 hr.le)).trans (if_neg hr.ne))

theorem throws_iff (hpc : srv.pc = .idle) : Throws t srv receiverId data ↔
    t.maxMessageSize < lengthOf data + 8 + 1 ∨ srv.count < receiverId := by
  constructor
  · rintro ⟨srv', hs, hidle⟩
    by_contra h
    rw [not_or] at h
    obtain ⟨hsize, hcount⟩ := h
    rcases Nat.lt_or_eq_of_le (Nat.not_lt.1 hcount) with hr | rfl
    · rw [send_admitted hsize hr] at hs
      cases hs
      cases hidle
    · rw [send_past hsize] at hs
      cases hs
  · intro h
    exact ⟨srv, send_refused h, hpc⟩

/-- A call that passes the checks posts one write. -/
theorem posts (hpc : srv.pc = .idle) (h : ¬ t.maxMessageSize < lengthOf data + 8 + 1)
    (hr : receiverId < srv.count) :
    ∃ srv', run (step t) srv [.send receiverId data, .server] = some srv' ∧
      PostedOne srv receiverId (lengthOf data + 8 + 1).toNat srv' ∧
      srv'.sendBuffer = fill srv.sendBuffer data := by
  have hsend : step t srv (.send receiverId data) = some { srv with
      sendBuffer := fill srv.sendBuffer data
      pc := .post receiverId (lengthOf data + 8 + 1) (answerFrame data) } := by
    simp only [step, hpc]
    exact send_admitted h hr
  exact ⟨_, (run_cons hsend _).trans rfl, ⟨⟨_, _, []⟩, rfl, rfl⟩, rfl⟩

end

/-- The size does not wrap around unless `receiverId` is refused, and `receiverId` is not the
    number of connections unless the size is refused. -/
def ChecksSuffice (t : Transport) (srv : Server) (receiverId : ℕ) (data : List UInt8) : Prop :=
  (2 ^ 64 ≤ data.length + 9 → srv.count < receiverId) ∧
    (data.length + 9 ≤ t.maxMessageSize.toNat → receiverId ≠ srv.count)

instance (t : Transport) (srv : Server) (receiverId : ℕ) (data : List UInt8) :
    Decidable (ChecksSuffice t srv receiverId data) :=
  inferInstanceAs (Decidable ((_ → _) ∧ (_ → _)))

/-- **`send` throws exactly when it must**, and else posts one write within its memory, iff
    the checks suffice. -/
theorem send_right_iff (t : Transport) {srv : Server} (hpc : srv.pc = .idle) (receiverId : ℕ)
    {data : List UInt8} (hlen : data.length < 2 ^ 64) :
    SendRight t srv receiverId data ↔ ChecksSuffice t srv receiverId data := by
  have htotal := totalLength_toNat hlen
  have hmax := maxMessageSize_toNat t
  have hthrows : Throws t srv receiverId data ↔ _ := throws_iff hpc
  rw [UInt64.lt_iff_toNat_lt, htotal] at hthrows
  constructor
  · intro h
    have hiff := hthrows.symm.trans h.throws
    constructor
    · intro hwrap
      rw [if_neg (by omega)] at hiff
      have := hiff.2 (Or.inl (by omega))
      omega
    · rintro hfits rfl
      rw [if_pos (by omega)] at hiff
      have := hiff.2 (Or.inr (Nat.lt_irrefl _))
      omega
  · rintro ⟨hwrap, hcount⟩
    have hmust : Throws t srv receiverId data ↔
        t.maxMessageSize.toNat < data.length + 9 ∨ ¬ receiverId < srv.count := by
      rw [hthrows]
      split_ifs with hsmall <;> omega
    refine ⟨hmust, ?_, ?_⟩
    · intro srv' hs hidle
      rw [send_refused ((throws_iff hpc).1 ⟨srv', hs, hidle⟩)] at hs
      cases hs
      rfl
    · intro hno
      rw [hmust, not_or, not_not] at hno
      obtain ⟨hfits, hr⟩ := hno
      rw [if_pos (by omega)] at htotal
      have hsize : (lengthOf data).toNat = data.length := by
        rw [lengthOf, Pos.ofNat_toNat, Nat.mod_eq_of_lt hlen]
      have hrange : ∀ i ∈ sendIndices receiverId (lengthOf data),
          i.InRange t.maxMessageSize srv := by
        intro i hi
        simp only [sendIndices, List.mem_cons, List.not_mem_nil, or_false] at hi
        rcases hi with rfl | rfl | rfl | rfl | rfl
        · exact hr
        · rw [Index.InRange]; omega
        · rw [Index.InRange]; omega
        · rw [Index.InRange]; omega
        · rw [Index.InRange]; omega
      have hadmitted : ¬ t.maxMessageSize < lengthOf data + 8 + 1 := by
        rw [UInt64.lt_iff_toNat_lt]; omega
      obtain ⟨srv', hrun, hposted, hfill⟩ := posts hpc hadmitted hr
      rw [htotal] at hposted
      refine ⟨hrange, srv', hrun, hposted, ?_⟩
      intro i hi
      rw [hfill]
      exact fill_of_not_covered _ receiverId hlen fun j hj hcov =>
        (hrange j hj).not_covers hi hcov

/-- The second of two connections gets three bytes; to the one after it, a size that is too
    large is refused. -/
theorem send_right_two :
    SendRight .recv (.init 2) 1 [1, 2, 3] ∧
      SendRight .recv (.init 2) 2 (List.replicate (256 * 1024) 0) := by
  have hlen : (List.replicate (256 * 1024) (0 : UInt8)).length = 256 * 1024 := List.length_replicate
  refine ⟨(send_right_iff .recv rfl 1 (by decide)).2 (by decide),
    (send_right_iff .recv rfl 2 (by rw [hlen]; decide)).2 ?_⟩
  rw [ChecksSuffice, hlen]
  decide

/-- The number of connections is not refused, -/
theorem not_right_past (t : Transport) : ¬ SendRight t (.init 0) 0 [] := by
  intro h
  have hno := (throws_iff rfl).1 (h.throws.2 (Or.inr (Nat.lt_irrefl _)))
  revert hno
  cases t <;> decide

/-- and neither is a size that wraps around. -/
theorem not_right_wrapped (t : Transport) :
    ¬ SendRight t (.init 1) 0 (List.replicate (2 ^ 64 - 1) 0) := by
  intro h
  have hlen : (List.replicate (2 ^ 64 - 1) (0 : UInt8)).length = 2 ^ 64 - 1 :=
    List.length_replicate
  have hmax := maxMessageSize_toNat t
  have hno := (throws_iff rfl).1 (h.throws.2 (Or.inl (by omega)))
  rw [UInt64.lt_iff_toNat_lt, totalLength_toNat (by omega), hlen] at hno
  rcases hno with hno | hno
  · rw [if_neg (by decide)] at hno; omega
  · exact absurd hno (Nat.not_lt_zero 1)

/-- Without connections, an answer to connection 0 is not refused; with one connection, neither
    is an answer of 2^64 - 1 bytes. -/
theorem send_unchecked :
    ¬ SendRight .doorbell (.init 0) 0 [] ∧ ¬ SendRight .recv (.init 0) 0 [] ∧
      ¬ SendRight .distinctMr (.init 0) 0 [] ∧
      ¬ SendRight .recv (.init 1) 0 (List.replicate (2 ^ 64 - 1) 0) :=
  ⟨not_right_past _, not_right_past _, not_right_past _, not_right_wrapped _⟩

end Multiclient

end L5RDMA
