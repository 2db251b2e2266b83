/-
  Masks of vector comparisons.

  A comparison of `n` lanes gives `L` bits for each lane.  Of the lanes where it
  holds, the last is found by the leading zeros of the mask (`Lanes.highest`).
-/
import L5RDMA.Lib.Scan
import Mathlib.Data.Nat.Notation
import Mathlib.Algebra.Order.Ring.Nat

namespace CompareMask

theorem exists_highest {w : ℕ} {m : BitVec w} (h : m ≠ 0#w) :
    ∃ t < w, m.clz.toNat = w - 1 - t ∧ m.getLsbD t = true ∧ ∀ j > t, m.getLsbD j = false := by
  have hlt : m.clz.toNat < w := by
    have hclz := BitVec.lt_def.1 (BitVec.clz_lt_iff_ne_zero.2 h)
    rwa [BitVec.natCast_eq_ofNat, BitVec.toNat_ofNat, Nat.mod_eq_of_lt Nat.lt_two_pow_self]
      at hclz
  refine ⟨w - 1 - m.clz.toNat, by omega, by omega,
    BitVec.getLsbD_true_clz_of_ne_zero (by omega) h, fun j hj => ?_⟩
  have hle : 2 ^ (w - m.clz.toNat) ≤ 2 ^ j := Nat.pow_le_pow_right (by decide) (by omega)
  exact Nat.testBit_lt_two_pow (lt_of_lt_of_le BitVec.toNat_lt_two_pow_sub_clz hle)

/-- `L` bits for each of `n` lanes, set where `P` holds. -/
def Lanes {w : ℕ} (L n : ℕ) (P : ℕ → Prop) (m : BitVec w) : Prop :=
  ∀ j, m.getLsbD j = true ↔ j < L * n ∧ P (j / L)

section
variable {w L n : ℕ} {P : ℕ → Prop} {m : BitVec w}

/-- The last lane where `P` holds. -/
theorem Lanes.highest (h : Lanes L n P m) (hL : 0 < L) (hm : m ≠ 0#w) :
    ∃ k < n, P k ∧ w - m.clz.toNat = L * (k + 1) := by
  obtain ⟨t, ht, hclz, hset, htop⟩ := exists_highest hm
  obtain ⟨hlt, hP⟩ := (h t).1 hset
  have hk : t / L < n := Nat.div_lt_of_lt_mul hlt
  refine ⟨t / L, hk, hP, ?_⟩
  -- the last bit of the lane is set, too
  have hlast : L * (t / L) + (L - 1) < L * n := by
    have hmul := Nat.mul_le_mul_left L (Nat.succ_le_of_lt hk)
    rw [Nat.mul_succ] at hmul
    omega
  have hdiv : (L * (t / L) + (L - 1)) / L = t / L := by
    rw [Nat.mul_add_div hL, Nat.div_eq_of_lt (Nat.sub_lt hL Nat.one_pos), Nat.add_zero]
  have hbit := (h (L * (t / L) + (L - 1))).2 ⟨hlast, by rwa [hdiv]⟩
  have hle : L * (t / L) + (L - 1) ≤ t := by
    by_contra hgt
    rw [htop _ (Nat.lt_of_not_le hgt)] at hbit
    cases hbit
  have hmod := Nat.div_add_mod t L
  have hmodlt := Nat.mod_lt t hL
  rw [Nat.mul_succ, hclz]
  omega

theorem Lanes.eq_zero (h : Lanes L n P m) (hL : 0 < L) (hm : m = 0#w) {k : ℕ} (hk : k < n) :
    ¬ P k := by
  intro hP
  have hbit := (h (L * k)).2
    ⟨Nat.mul_lt_mul_of_pos_left hk hL, by rwa [Nat.mul_div_cancel_left k hL]⟩
  rw [hm] at hbit
  simp at hbit

end

/-- A look at `n` lanes, of which it takes the last that is set. -/
theorem sees_of_lanes {w L n : ℕ} {P : ℕ → Prop} (hL : 0 < L) {mask : ℕ → BitVec w}
    (h : ∀ i, Lanes L n (fun k => P (i + k)) (mask i)) {look : ℕ → Option ℕ}
    (hnone : ∀ i, mask i = 0#w → look i = none)
    (hsome : ∀ i, mask i ≠ 0#w → look i = some (i + ((w - (mask i).clz.toNat) / L - 1))) :
    Scan.Sees P n look where
  found := by
    intro i j hl
    by_cases hm : mask i = 0#w
    · rw [hnone i hm] at hl
      cases hl
    · obtain ⟨k, hk, hP, hclz⟩ := (h i).highest hL hm
      rw [hsome i hm, hclz, Nat.mul_div_cancel_left _ hL, Nat.add_sub_cancel] at hl
      cases hl
      exact ⟨Nat.le_add_right _ _, Nat.add_lt_add_left hk i, hP⟩
  missed := by
    intro i j hl hij hj
    by_cases hm : mask i = 0#w
    · obtain ⟨k, rfl⟩ := Nat.exists_eq_add_of_le hij
      exact (h i).eq_zero hL hm (Nat.lt_of_add_lt_add_left hj)
    · rw [hsome i hm] at hl
      cases hl

end CompareMask
