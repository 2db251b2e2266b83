/-
  The calls of `wraparound` partition a range of the ring.

  * `Partition`: one or two calls inside the ring, whose cells are those of the
    positions of the range, in order and each once;
  * `RoundTrip`: what `writeToSendBuffer` has copied to a range,
    `readFromReceiveBuffer` copies out again;
  * `wraparound_exact`: every range of a ring has both.

  All of it follows from `wraparound_covers`, by induction on the calls.
-/
import L5RDMA.Proof.RDMAMessageBuffer
import Mathlib.Data.List.Nodup

namespace L5RDMA

namespace RDMAMessageBuffer

open Pos (lengthOf powerOfTwo)

/-- The cells of a call, in order. -/
def Part.cells (c : Part) : List ℕ := (List.range c.length).map (c.beginPos.toNat + ·)

def cells (parts : List Part) : List ℕ := parts.flatMap Part.cells

/-- The calls `parts` are for the `todoSize` positions from `pos` on. -/
structure Partition (totalSize todoSize pos : UInt64) (parts : List Part) : Prop where
  calls : parts.length = 1 ∨ parts.length = 2
  inside : ∀ c ∈ parts, c.beginPos ≤ c.endPos ∧ c.endPos ≤ totalSize
  cells : cells parts =
    (List.range todoSize.toNat).map fun k => (pos.toNat + k) % totalSize.toNat
  nodup : (RDMAMessageBuffer.cells parts).Nodup
  prevBytes : ∀ before c after, parts = before ++ c :: after →
    c.prevBytes.toNat = (RDMAMessageBuffer.cells before).length
  /-- the cell of a position past 2^64 is that of the position the counter wraps to -/
  wraps : ∀ k, (pos.toNat + k) % totalSize.toNat = (pos + UInt64.ofNat k).toNat % totalSize.toNat

/-- `data`, copied into the ring at `sendPos` and out again. -/
structure RoundTrip (s : State) (data : List UInt8) : Prop where
  read : ∀ t : State, t.size = s.size → t.conn.receiveBuf = writeToSendBuffer s data →
    readFromReceiveBuffer t s.sendPos (lengthOf data) = data
  copied : ∀ (whereTo : ℕ) (dst : Mem), copyParts (writeToSendBuffer s data) whereTo dst
    (wraparound s.size (lengthOf data) s.sendPos) = Mem.write id dst whereTo data
  others : ∀ cell ∉ cells (wraparound s.size (lengthOf data) s.sendPos),
    writeToSendBuffer s data cell = s.conn.sendBuf cell

@[simp] theorem Part.length_cells (c : Part) : c.cells.length = c.length := by
  simp [Part.cells]

theorem cells_cons (c : Part) (parts : List Part) : cells (c :: parts) = c.cells ++ cells parts :=
  List.flatMap_cons

section
variable {n P k len : ℕ} {parts : List Part}

theorem Covers.cells (h : Covers n P k parts len) :
    cells parts = (List.range (len - k)).map fun i => (P + (k + i)) % n := by
  induction parts generalizing k with
  | nil =>
    have : k = len := h
    rw [this, Nat.sub_self]; rfl
  | cons c parts ih =>
    obtain ⟨-, hmap, hrest⟩ := h
    have hle := hrest.le
    have hsplit : len - k = c.length + (len - (k + c.length)) := by omega
    rw [cells_cons, ih hrest, hsplit, List.range_add, List.map_append, List.map_map]
    congr 1
    · refine List.map_congr_left fun i hi => ?_
      rw [← add_assoc]; exact hmap i (List.mem_range.1 hi)
    · refine List.map_congr_left fun i _ => ?_
      rw [Function.comp_apply, add_assoc k]

theorem Covers.prevBytes (h : Covers n P k parts len) {before after : List Part} {c : Part}
    (he : parts = before ++ c :: after) :
    c.prevBytes.toNat = k + (RDMAMessageBuffer.cells before).length := by
  induction before generalizing parts k with
  | nil => subst he; exact h.1
  | cons b before ih =>
    subst he
    rw [ih h.2.2 rfl, cells_cons, List.length_append, Part.length_cells, add_assoc]

/-- A range no longer than the ring meets each cell once. -/
theorem nodup_positions (hlen : len ≤ n) : ((List.range len).map fun i => (P + i) % n).Nodup := by
  refine List.Nodup.map_on ?_ List.nodup_range
  intro i hi j hj he
  rw [List.mem_range] at hi hj
  rcases Nat.le_total i j with hij | hji
  · have := Pos.eq_of_mod_eq he (by omega) (by omega)
    omega
  · have := Pos.eq_of_mod_eq he.symm (by omega) (by omega)
    omega

theorem writeParts_of_notMem {m : Mem} {slice : Part → List UInt8}
    (hslice : ∀ c ∈ parts, (slice c).length = c.length) {cell : ℕ} (h : cell ∉ cells parts) :
    writeParts m slice parts cell = m cell := by
  induction parts generalizing m with
  | nil => rfl
  | cons c parts ih =>
    rw [cells_cons, List.mem_append, not_or] at h
    rw [writeParts, ih (fun c hc => hslice c (by simp [hc])) h.2]
    refine Mem.write_of_ne fun i hi he => h.1 ?_
    rw [hslice c (by simp)] at hi
    exact List.mem_map.2 ⟨i, List.mem_range.2 hi, he⟩

/-- The copies of the parts lie one behind the other. -/
theorem copyParts_eq (h : Covers n P k parts len) (m : Mem) (whereTo : ℕ) (dst : Mem) :
    copyParts m whereTo dst parts = Mem.write id dst (whereTo + k) (readParts m parts) := by
  induction parts generalizing k dst with
  | nil => rfl
  | cons c parts ih =>
    have hread : readParts m (c :: parts) =
        Mem.read id m c.beginPos.toNat c.length ++ readParts m parts := List.flatMap_cons
    rw [copyParts, h.1, ih h.2.2, hread, Mem.write_append, Mem.length_read, add_assoc]

end

section
variable {totalSize todoSize pos : UInt64}

/-- No part of a ring ends beyond it, nor does its end wrap. -/
theorem wraparound_inside (hpow : powerOfTwo totalSize = true) (htodo : todoSize ≤ totalSize) :
    ∀ c ∈ wraparound totalSize todoSize pos, c.beginPos ≤ c.endPos ∧ c.endPos ≤ totalSize := by
  have hn := Pos.powerOfTwo_pos hpow
  have hlt := totalSize.toNat_lt
  have hbegin := Pos.ofNat_and_mask hpow pos.toNat
  have hmod : pos.toNat % totalSize.toNat < totalSize.toNat := Nat.mod_lt _ hn
  rw [UInt64.ofNat_toNat] at hbegin
  unfold wraparound
  generalize pos &&& (totalSize - 1) = beginPos at hbegin
  have hrest : (totalSize - beginPos).toNat = totalSize.toNat - beginPos.toNat :=
    UInt64.toNat_sub_of_le _ _ (by rw [UInt64.le_iff_toNat_le]; omega)
  rw [UInt64.le_iff_toNat_le] at htodo
  -- a part from `b` on, of a length that leaves it in the ring
  have hpart : ∀ b l : UInt64, b.toNat + l.toNat ≤ totalSize.toNat →
      b ≤ b + l ∧ b + l ≤ totalSize := by
    intro b l hl
    have hadd : (b + l).toNat = b.toNat + l.toNat := by
      rw [UInt64.toNat_add]; exact Nat.mod_eq_of_lt (by omega)
    rw [UInt64.le_iff_toNat_le, UInt64.le_iff_toNat_le, hadd]
    exact ⟨Nat.le_add_right _ _, hl⟩
  dsimp only
  split_ifs with hfits
  · rw [ge_iff_le, UInt64.le_iff_toNat_le, hrest] at hfits
    intro c hc
    rw [List.mem_singleton] at hc
    subst hc
    exact hpart beginPos todoSize (by omega)
  · rw [ge_iff_le, UInt64.le_iff_toNat_le, hrest] at hfits
    have hsnd : (todoSize - (totalSize - beginPos)).toNat =
        todoSize.toNat - (totalSize.toNat - beginPos.toNat) := by
      rw [UInt64.toNat_sub_of_le _ _ (by rw [UInt64.le_iff_toNat_le, hrest]; omega), hrest]
    intro c hc
    simp only [List.mem_cons, List.not_mem_nil, or_false] at hc
    rcases hc with rfl | rfl
    · exact hpart beginPos (totalSize - beginPos) (by omega)
    · exact hpart 0 (todoSize - (totalSize - beginPos)) (by rw [hsnd, UInt64.toNat_zero]; omega)

theorem length_wraparound : (wraparound totalSize todoSize pos).length = 1 ∨
    (wraparound totalSize todoSize pos).length = 2 := by
  unfold wraparound
  dsimp only
  split_ifs
  · exact Or.inl rfl
  · exact Or.inr rfl

theorem wraparound_partition (hpow : powerOfTwo totalSize = true)
    (htodo : todoSize ≤ totalSize) :
    Partition totalSize todoSize pos (wraparound totalSize todoSize pos) := by
  have hle : todoSize.toNat ≤ totalSize.toNat := UInt64.le_iff_toNat_le.1 htodo
  have hcov := wraparound_covers hpow hle (UInt64.ofNat_toNat (x := pos)).symm
  have hcells : cells (wraparound totalSize todoSize pos) =
      (List.range todoSize.toNat).map fun k => (pos.toNat + k) % totalSize.toNat := by
    rw [hcov.cells]
    simp only [Nat.sub_zero, Nat.zero_add]
  constructor
  case calls => exact length_wraparound
  case inside => exact wraparound_inside hpow htodo
  case cells => exact hcells
  case nodup => rw [hcells]; exact nodup_positions hle
  case prevBytes =>
    intro before c after he
    rw [hcov.prevBytes he, Nat.zero_add]
  case wraps =>
    intro k
    obtain ⟨b, hb, hn⟩ := Pos.powerOfTwo_spec hpow
    rw [UInt64.toNat_add, Pos.ofNat_toNat, Nat.add_mod_mod, hn,
      Nat.mod_mod_of_dvd _ (Nat.pow_dvd_pow 2 hb.le)]

/-- What was copied to the cells of a range is read from them. -/
theorem read_written {s : State} {data : List UInt8} (hpow : powerOfTwo s.size = true)
    (hfits : data.length ≤ s.size.toNat) :
    readParts (writeToSendBuffer s data) (wraparound s.size (lengthOf data) s.sendPos) = data := by
  have hpos := (UInt64.ofNat_toNat (x := s.sendPos)).symm
  have hcov := covers_data hpow hfits hpos
  refine List.ext_getElem? fun i => ?_
  rcases Nat.lt_or_ge i data.length with hi | hi
  · have hb := List.getElem?_eq_getElem hi
    rw [readParts_get hcov (by omega), Nat.zero_add, writeToSendBuffer_pos hpow hfits hpos hb, hb]
  · rw [List.getElem?_eq_none hi, List.getElem?_eq_none]
    rw [length_readParts hcov]; omega

theorem roundTrip {s : State} {data : List UInt8} (hpow : powerOfTwo s.size = true)
    (hfits : data.length ≤ s.size.toNat) : RoundTrip s data := by
  have hpos := (UInt64.ofNat_toNat (x := s.sendPos)).symm
  constructor
  case read =>
    intro t hsize hring
    rw [readFromReceiveBuffer, hsize, hring]
    exact read_written hpow hfits
  case copied =>
    intro whereTo dst
    rw [copyParts_eq (covers_data hpow hfits hpos), read_written hpow hfits, add_zero]
  case others =>
    intro cell hcell
    exact writeParts_of_notMem (length_slice hpow hfits hpos) hcell

/-- **`wraparound` partitions** every range of a ring, at every 64-bit position, and a copy
    into the range comes out again. -/
theorem wraparound_exact (hpow : powerOfTwo totalSize = true) (htodo : todoSize ≤ totalSize) :
    Partition totalSize todoSize pos (wraparound totalSize todoSize pos) ∧
      ∀ (s : State) (data : List UInt8), s.size = totalSize → s.sendPos = pos →
        data.length = todoSize.toNat → RoundTrip s data := by
  refine ⟨wraparound_partition hpow htodo, ?_⟩
  rintro s data rfl rfl hlen
  exact roundTrip hpow (hlen.trans_le (UInt64.le_iff_toNat_le.1 htodo))

/-- Six bytes from three before 2^64 on, in a ring of eight. -/
theorem wraparound_pastEnd : cells (wraparound 8 6 0xFFFFFFFFFFFFFFFD) = [5, 6, 7, 0, 1, 2] :=
  (wraparound_exact (by decide) (by decide)).1.cells.trans (by decide)

end

end RDMAMessageBuffer

end L5RDMA
