/-
  The vector pollers find what the scalar ones find.

  Each of them resets one entry that is set and returns its index, and changes
  nothing else (`pollSSE_polls`, `SSEPoll_polls`, ...).  When several are set,
  it may be another than the scalar poller's, but called until nothing is set,
  both return the same, each once (`pollSSE_refines_poll`,
  `offsetPollers_refine`).
-/
import L5RDMA.Lib.CompareMask
import L5RDMA.Pollers
import L5RDMA.Proof.MulticlientPolling

namespace L5RDMA

open CompareMask (Lanes sees_of_lanes)
open MulticlientRDMATransportServer
open Scan (Polls Refines Sees)

/-! ## Bells -/

namespace MulticlientRDMATransportServer

theorem poll_polls (count : ℕ) : Polls 0 (fun i _ => i) count (poll count) :=
  Sees.polls (fun _ => Scan.sees_if) Nat.one_pos (Nat.one_dvd count)

theorem pollSSE_polls {count : ℕ} (h : 16 ∣ count) :
    Polls 0 (fun i _ => i) count (pollSSE count) := by
  refine Sees.polls (fun doorBells => ?_) (by decide) h
  refine sees_of_lanes Nat.one_pos (lanes_cmpMask doorBells) (fun i hm => ?_) fun i hm => ?_
  · exact if_neg (not_not.2 (setWidth_eq_zero_iff.1 hm))
  · refine (if_pos (mt setWidth_eq_zero_iff.2 hm)).trans (congrArg some ?_)
    rw [senderOf, Nat.div_one]
    omega

/-- **`pollSSE` refines `poll`** on every array of bells. -/
theorem pollSSE_refines_poll {count : ℕ} (h : 16 ∣ count) (doorBells : ℕ → UInt8) :
    Refines 0 (fun i _ => i) count (pollSSE count) (poll count) doorBells :=
  (pollSSE_polls h).refines (poll_polls count) (fun _ _ _ _ hij => hij) doorBells

/-- Two bells of the first block and one of the second. -/
def threeBells (i : ℕ) : UInt8 := if i ∈ [3, 5, 20] then 88 else 0

theorem pollSSE_threeBells :
    Refines 0 (fun i _ => i) 32 (pollSSE 32) (poll 32) threeBells :=
  pollSSE_refines_poll (by decide) threeBells

example : (pollSSE 32 threeBells 33).map Prod.fst = some 5 := by decide

end MulticlientRDMATransportServer

namespace MulticlientPollingBench

theorem exPoll_polls (count : ℕ) : Polls 0 (fun i _ => i) count (exPoll count) :=
  poll_polls count

theorem exPollSSE_polls {count : ℕ} (h : 16 ∣ count) :
    Polls 0 (fun i _ => i) count (exPollSSE count) :=
  pollSSE_polls h

/-- One bit for each bell. -/
theorem lanes_cmpMask256 (doorBells : ℕ → UInt8) (i : ℕ) :
    Lanes 1 32 (fun k => doorBells (i + k) ≠ 0) (cmpMask256 doorBells i) := by
  intro j
  rw [Nat.div_one, Nat.one_mul]
  by_cases hj : j < 32
  · have hb : (cmpeqZero ((List.range 32).map fun j => doorBells (i + j)))[j]? =
        some (if doorBells (i + j) = 0 then 0xFF else 0) := by
      simp [cmpeqZero, hj]
    rw [cmpMask256, getLsbD_compl_movemask hb hj, msb_cmpeqZero]
    simp [hj]
  · simp [hj, BitVec.getLsbD_of_ge _ j (Nat.le_of_not_lt hj)]

theorem exPollSIMD_polls {count : ℕ} (h : 32 ∣ count) :
    Polls 0 (fun i _ => i) count (exPollSIMD count) := by
  refine Sees.polls (fun doorBells => ?_) (by decide) h
  refine sees_of_lanes Nat.one_pos (lanes_cmpMask256 doorBells) (fun i hm => ?_) fun i hm => ?_
  · exact if_neg (not_not.2 hm)
  · refine (if_pos hm).trans (congrArg some ?_)
    rw [Nat.div_one]
    omega

/-- The first bell that is set, if there is one. -/
theorem cmpestri_spec (doorBells : ℕ → UInt8) (i : ℕ) :
    (∀ j, j < 16 → cmpestri 0 ((List.range 16).map fun j => doorBells (i + j)) = j →
      doorBells (i + j) ≠ 0) ∧
    (cmpestri 0 ((List.range 16).map fun j => doorBells (i + j)) = 16 →
      ∀ j < 16, doorBells (i + j) = 0) := by
  set data := (List.range 16).map fun j => doorBells (i + j) with hdata
  have hlen : data.length = 16 := by simp [hdata]
  constructor
  · intro j hj hfound
    have hget : data[data.findIdx (· ≠ 0)]? = some (doorBells (i + j)) := by
      rw [show data.findIdx (· ≠ 0) = j from hfound]
      simp [hdata, hj]
    simpa using List.findIdx_of_getElem?_eq_some hget
  · intro hnone j hj
    have hmem : doorBells (i + j) ∈ data := List.mem_map.2 ⟨j, List.mem_range.2 hj, rfl⟩
    by_contra hset
    have hlt := List.findIdx_lt_length_of_exists (p := (· ≠ 0)) ⟨_, hmem, by simpa using hset⟩
    rw [hlen, show data.findIdx (· ≠ 0) = 16 from hnone] at hlt
    exact Nat.lt_irrefl _ hlt

theorem exPollPCMP_polls {count : ℕ} (h : 16 ∣ count) :
    Polls 0 (fun i _ => i) count (exPollPCMP count) := by
  refine Sees.polls (fun doorBells => ⟨?_, ?_⟩) (by decide) h
  · intro i j hl
    dsimp only at hl
    split_ifs at hl with hne
    cases hl
    have hle : cmpestri 0 ((List.range 16).map fun j => doorBells (i + j)) ≤ 16 :=
      List.findIdx_le_length.trans (by simp)
    have hlt := Nat.lt_of_le_of_ne hle hne
    refine ⟨Nat.le_add_left _ _, by omega, ?_⟩
    rw [Nat.add_comm]
    exact (cmpestri_spec doorBells i).1 _ hlt rfl
  · intro i j hl hij hj
    dsimp only at hl
    split_ifs at hl with hnone
    obtain ⟨k, rfl⟩ := Nat.exists_eq_add_of_le hij
    have hzero := (cmpestri_spec doorBells i).2 (not_not.1 hnone) k (Nat.lt_of_add_lt_add_left hj)
    exact not_not.2 hzero

/-! ## Offsets -/

theorem scalarPoll_polls (count : ℕ) : Polls (-1) Prod.mk count (scalarPoll count) :=
  Sees.polls (fun _ => Scan.sees_if) Nat.one_pos (Nat.one_dvd count)

theorem getElem?_epi8 (v : List Int32) (j : ℕ) : (epi8 v)[j]? =
    v[j / 4]?.map fun x => (x.toUInt32 >>> (8 * (j % 4)).toUInt32).toUInt8 := by
  induction v generalizing j with
  | nil => rfl
  | cons x v ih =>
    rw [epi8, List.flatMap_cons]
    by_cases hj : j < 4
    · rw [List.getElem?_append_left (by simpa using hj), Nat.div_eq_of_lt hj, Nat.mod_eq_of_lt hj]
      simp [hj]
    · obtain ⟨j, rfl⟩ := Nat.exists_eq_add_of_le' (Nat.le_of_not_lt hj)
      have hj' := ih j
      unfold epi8 at hj'
      rw [List.getElem?_append_right (by simp)]
      simpa [Nat.add_div_right] using hj'

/-- All four bytes of a lane say whether it is equal. -/
theorem msb_cmpeqEpi32 (p : Prop) [Decidable p] {k : ℕ} (hk : k < 4) :
    (((if p then (-1 : Int32) else 0).toUInt32 >>> (8 * k).toUInt32).toUInt8).toBitVec.msb =
      decide p := by
  have hones : ∀ k < 4,
      ((-1 : Int32).toUInt32 >>> (8 * k).toUInt32).toUInt8.toBitVec.msb = true := by
    decide
  have hzero : ∀ k < 4,
      ((0 : Int32).toUInt32 >>> (8 * k).toUInt32).toUInt8.toBitVec.msb = false := by
    decide
  by_cases hp : p
  · rw [if_pos hp, decide_eq_true hp]
    exact hones k hk
  · rw [if_neg hp, decide_eq_false hp]
    exact hzero k hk

/-- Four bits for each offset, of as many as a register has. -/
theorem getLsbD_offsets (offsets : ℕ → Int32) (i : ℕ) {n j : ℕ} (hn : n ≤ 8) (hj : j < 4 * n) :
    (~~~ movemask (epi8 (cmpeqEpi32 (-1)
      ((List.range n).map fun j => offsets (i + j))))).getLsbD j =
        decide (offsets (i + j / 4) ≠ -1) := by
  have hdiv : j / 4 < n := Nat.div_lt_of_lt_mul hj
  have hb : (epi8 (cmpeqEpi32 (-1) ((List.range n).map fun j => offsets (i + j))))[j]? =
      some ((if offsets (i + j / 4) = -1 then (-1 : Int32) else 0).toUInt32 >>>
        (8 * (j % 4)).toUInt32).toUInt8 := by
    rw [getElem?_epi8]
    simp [cmpeqEpi32, hdiv]
  rw [getLsbD_compl_movemask hb (by omega), msb_cmpeqEpi32 _ (Nat.mod_lt _ (by decide))]
  simp

theorem lanes_offsetMask (offsets : ℕ → Int32) (i : ℕ) :
    Lanes 4 4 (fun k => offsets (i + k) ≠ -1) ((offsetMask offsets i).setWidth 32) := by
  intro j
  rw [offsetMask, BitVec.getLsbD_setWidth, BitVec.getLsbD_setWidth]
  by_cases hj : j < 4 * 4
  · rw [getLsbD_offsets offsets i (by decide) hj]
    simp [hj, show j < 32 by omega]
  · simp [hj]

theorem lanes_offsetMask256 (offsets : ℕ → Int32) (i : ℕ) :
    Lanes 4 8 (fun k => offsets (i + k) ≠ -1) (offsetMask256 offsets i) := by
  intro j
  rw [offsetMask256]
  by_cases hj : j < 4 * 8
  · rw [getLsbD_offsets offsets i (by decide) hj]
    simp [hj]
  · simp [hj, BitVec.getLsbD_of_ge _ j (Nat.le_of_not_lt hj)]

theorem SSEPoll_polls {count : ℕ} (h : 4 ∣ count) :
    Polls (-1) Prod.mk count (SSEPoll count) := by
  refine Sees.polls (fun offsets => ?_) (by decide) h
  refine sees_of_lanes (by decide) (lanes_offsetMask offsets) (fun i hm => ?_) fun i hm => ?_
  · exact if_neg (not_not.2 (setWidth_eq_zero_iff.1 hm))
  · exact if_pos (mt setWidth_eq_zero_iff.2 hm)

theorem SIMDPoll_polls {count : ℕ} (h : 8 ∣ count) :
    Polls (-1) Prod.mk count (SIMDPoll count) := by
  refine Sees.polls (fun offsets => ?_) (by decide) h
  refine sees_of_lanes (by decide) (lanes_offsetMask256 offsets) (fun i hm => ?_) fun i hm => ?_
  · exact if_neg (not_not.2 hm)
  · exact if_pos hm

/-- **The offset pollers agree with `scalarPoll`** on every array of offsets. -/
theorem offsetPollers_refine {count : ℕ} (offsets : ℕ → Int32) :
    (4 ∣ count → Refines (-1) Prod.mk count (SSEPoll count) (scalarPoll count) offsets) ∧
      (8 ∣ count → Refines (-1) Prod.mk count (SIMDPoll count) (scalarPoll count) offsets) := by
  have hout : ∀ (i j : ℕ) (x y : Int32), (i, x) = (j, y) → i = j :=
    fun _ _ _ _ h => congrArg Prod.fst h
  constructor
  · intro h
    exact (SSEPoll_polls h).refines (scalarPoll_polls count) hout offsets
  · intro h
    exact (SIMDPoll_polls h).refines (scalarPoll_polls count) hout offsets

/-- Offsets next to each other, in one block of eight. -/
def threeOffsets (i : ℕ) : Int32 := if i ∈ [2, 3, 4] then 64 else -1

theorem offsetPollers_threeOffsets :
    Refines (-1) Prod.mk 16 (SSEPoll 16) (scalarPoll 16) threeOffsets ∧
      Refines (-1) Prod.mk 16 (SIMDPoll 16) (scalarPoll 16) threeOffsets :=
  (offsetPollers_refine threeOffsets).imp (fun h => h (by decide)) fun h => h (by decide)

end MulticlientPollingBench

end L5RDMA
