/-
  A ring of `n` cells as a window on an unbounded stream.

  Positions of the stream only grow; position `p` lives in cell `p % n`.
  `Window n g m R A`: of the `n` positions from `R` on, those before `A` hold
  their byte of the stream `g`, and the others zero.  Bytes arrive at `A`
  (`Window.land`) and are cleared at `R` (`Window.clear`).
-/
import L5RDMA.Lib.Frame

namespace Ring

def Window (n : ℕ) (g : ℕ → UInt8) (m : Mem) (R A : ℕ) : Prop :=
  ∀ p, R ≤ p → p < R + n → m (p % n) = if p < A then g p else 0

/-- The region index `off + i` is the cell of position `pos + i`, for `i < len`. -/
def Maps (phys : ℕ → ℕ) (n off pos len : ℕ) : Prop := ∀ i < len, phys (off + i) = (pos + i) % n

theorem Maps.mono {phys : ℕ → ℕ} {n off pos len len' : ℕ} (h : Maps phys n off pos len)
    (hl : len' ≤ len) : Maps phys n off pos len' := fun i hi => h i (by omega)

theorem Maps.drop {phys : ℕ → ℕ} {n off pos len : ℕ} (h : Maps phys n off pos len) {k : ℕ}
    (hk : k ≤ len) : Maps phys n (off + k) (pos + k) (len - k) := by
  intro i hi
  rw [add_assoc, add_assoc]; exact h (k + i) (by omega)

/-- A ring mapped twice: index `pos % n + i` is the cell of `pos + i`. -/
theorem maps_mod (n pos len : ℕ) : Maps (· % n) n (pos % n) pos len :=
  fun i _ => Nat.mod_add_mod pos n i

section
variable {phys : ℕ → ℕ} {n off pos len : ℕ}

/-- A copy of at most `n` bytes to the cells of `pos, pos + 1, …`. -/
theorem write_pos {m : Mem} {bs : List UInt8} (hmap : Maps phys n off pos bs.length)
    (hle : bs.length ≤ n) {i : ℕ} {b : UInt8} (hb : bs[i]? = some b) :
    Mem.write phys m off bs ((pos + i) % n) = b := by
  have hi : i < bs.length := (List.getElem?_eq_some_iff.1 hb).1
  rw [← hmap i hi]
  refine Mem.write_of_lt hb ?_
  intro j hij hj he
  rw [hmap i hi, hmap j hj] at he
  have := Pos.eq_of_mod_eq he.symm (by omega) (by omega)
  omega

/-- The other cells of a ring keep their bytes: those of the positions from
    `pos + len - n` up to `pos`, -/
theorem write_before {m : Mem} {bs : List UInt8} (hmap : Maps phys n off pos bs.length) {p : ℕ}
    (hp : p < pos) (hn : pos + bs.length ≤ p + n) :
    Mem.write phys m off bs (p % n) = m (p % n) := by
  refine Mem.write_of_ne ?_
  intro i hi he
  rw [hmap i hi] at he
  have := Pos.eq_of_mod_eq he.symm (by omega) (by omega)
  omega

/-- and those from `pos + len` up to `pos + n`. -/
theorem write_after {m : Mem} {bs : List UInt8} (hmap : Maps phys n off pos bs.length) {p : ℕ}
    (hp : pos + bs.length ≤ p) (hn : p < pos + n) :
    Mem.write phys m off bs (p % n) = m (p % n) := by
  refine Mem.write_of_ne ?_
  intro i hi he
  rw [hmap i hi] at he
  have := Pos.eq_of_mod_eq he (by omega) (by omega)
  omega

/-- A copy of any length leaves a cell as it is if the last byte it puts there is the one it
    holds. -/
theorem write_eq_iff {m : Mem} {bs : List UInt8} {c : ℕ} (hmap : Maps phys n off pos bs.length)
    (hn : 0 < n) : Mem.write phys m off bs c = m c ↔
      ∀ j b, bs[j]? = some b → bs.length ≤ j + n → phys (off + j) = c → m c = b := by
  have hsame : ∀ j k, j < k → k < bs.length → bs.length ≤ j + n →
      phys (off + k) ≠ phys (off + j) := by
    intro j k hjk hk hlast he
    rw [hmap j (by omega), hmap k hk] at he
    have := Pos.eq_of_mod_eq he.symm (by omega) (by omega)
    omega
  by_cases hhit : ∃ i < bs.length, phys (off + i) = c
  · -- the last index of the copy that is this cell
    obtain ⟨i, hi, rfl⟩ := hhit
    let k := i + n * ((bs.length - 1 - i) / n)
    have hmod := Nat.div_add_mod (bs.length - 1 - i) n
    have hrest := Nat.mod_lt (bs.length - 1 - i) hn
    have hk : k < bs.length := by omega
    have hlast : bs.length ≤ k + n := by omega
    have hcell : phys (off + k) = phys (off + i) := by
      rw [hmap k hk, hmap i hi, ← add_assoc, Nat.add_mul_mod_self_left]
    have hwrite : Mem.write phys m off bs (phys (off + i)) = bs[k] := by
      rw [← hcell]
      exact Mem.write_of_lt (List.getElem?_eq_getElem hk) fun j hkj hj => hsame k j hkj hj hlast
    rw [hwrite]
    constructor
    · intro he j b hb hj hc
      obtain ⟨hjlt, rfl⟩ := List.getElem?_eq_some_iff.1 hb
      rcases Nat.lt_trichotomy j k with hjk | rfl | hkj
      · exact absurd (hcell.trans hc.symm) (hsame j k hjk hk hj)
      · exact he.symm
      · exact absurd (hc.trans hcell.symm) (hsame k j hkj hjlt hlast)
    · intro h
      exact (h k _ (List.getElem?_eq_getElem hk) hlast hcell).symm
  · refine iff_of_true (Mem.write_of_ne fun i hi he => hhit ⟨i, hi, he⟩) ?_
    intro j b hb _ hc
    exact absurd ⟨j, (List.getElem?_eq_some_iff.1 hb).1, hc⟩ hhit

/-- Clearing `k` cells with one fill. -/
theorem fill_pos {m : Mem} {k R : ℕ} (hmap : Maps phys n off R k) (hk : k ≤ n) {i : ℕ}
    (hi : i < k) : Mem.write phys m off (List.replicate k 0) ((R + i) % n) = 0 :=
  write_pos (by simpa using hmap) (by simpa using hk)
    (by rw [List.getElem?_replicate, if_pos hi])

theorem fill_after {m : Mem} {k R : ℕ} (hmap : Maps phys n off R k) {p : ℕ} (hp : R + k ≤ p)
    (hn : p < R + n) : Mem.write phys m off (List.replicate k 0) (p % n) = m (p % n) :=
  write_after (by simpa using hmap) (by simpa using hp) hn

theorem read_pos {m : Mem} (hmap : Maps phys n off pos len) {i : ℕ} (hi : i < len) :
    (Mem.read phys m off len)[i]? = some (m ((pos + i) % n)) := by
  rw [Mem.read_get hi, hmap i hi]

end

namespace Window
variable {n : ℕ} {g : ℕ → UInt8} {m : Mem} {R A : ℕ} {phys : ℕ → ℕ} {off : ℕ}

/-- The next bytes of the stream arrive. -/
theorem land (h : Window n g m R A) {bs : List UInt8} (hmap : Maps phys n off A bs.length)
    (hA : A + bs.length ≤ R + n) (hRA : R ≤ A)
    (hbs : ∀ i b, bs[i]? = some b → b = g (A + i)) :
    Window n g (Mem.write phys m off bs) R (A + bs.length) := by
  intro p hRp hp
  rcases Nat.lt_or_ge p A with hpA | hpA
  · rw [write_before hmap hpA (by omega), h p hRp hp, if_pos hpA, if_pos (by omega)]
  · rcases Nat.lt_or_ge p (A + bs.length) with hpl | hpl
    · obtain ⟨i, rfl⟩ := Nat.exists_eq_add_of_le hpA
      have hi : i < bs.length := by omega
      rw [write_pos hmap (by omega) (List.getElem?_eq_getElem hi), if_pos hpl]
      exact hbs i _ (List.getElem?_eq_getElem hi)
    · -- a cell beyond the arriving bytes
      rw [write_after hmap hpl (by omega), h p hRp hp, if_neg (by omega), if_neg (by omega)]

/-- The first `k` positions are cleared and given back. -/
theorem clear (h : Window n g m R A) {m' : Mem} {k : ℕ} (hA : A ≤ R + n)
    (hz : ∀ i < k, m' ((R + i) % n) = 0)
    (ho : ∀ p, R + k ≤ p → p < R + n → m' (p % n) = m (p % n)) :
    Window n g m' (R + k) A := by
  intro p hRp hp
  rcases Nat.lt_or_ge p (R + n) with hpn | hpn
  · rw [ho p hRp hpn]; exact h p (by omega) hpn
  · -- the position that inherits a cleared cell
    obtain ⟨q, rfl⟩ : ∃ q, p = R + q + n := ⟨p - R - n, by omega⟩
    rw [Nat.add_mod_right, hz q (by omega), if_neg (by omega)]

theorem congr {g' : ℕ → UInt8} (h : Window n g m R A) (hg : ∀ p, R ≤ p → p < A → g p = g' p) :
    Window n g' m R A := by
  intro p hRp hp
  rw [h p hRp hp]
  split_ifs with hA
  · exact hg p hRp hA
  · rfl

/-- A load at `p` sees the byte of the stream, or zero if it has not arrived. -/
theorem seen (h : Window n g m R A) {p : ℕ} (hRp : R ≤ p) (hp : p < R + n ∨ A = R) (hn : 0 < n) :
    Frame.Seen g A p (m (p % n)) := by
  rcases Nat.lt_or_ge p (R + n) with hlt | hge
  · rw [h p hRp hlt]
    split_ifs with hA
    · exact Or.inr ⟨hA, rfl⟩
    · exact Or.inl rfl
  · -- nothing has arrived, so every cell is zero
    have hA : A = R := by omega
    have hq : (R + (p - R) % n) % n = p % n := by
      rw [Nat.add_mod_mod, Nat.add_sub_cancel' hRp]
    have := h (R + (p - R) % n) (by omega) (by have := Nat.mod_lt (p - R) hn; omega)
    rw [hq, if_neg (by omega)] at this
    exact Or.inl this

theorem read (h : Window n g m R A) {pos len : ℕ} (hmap : Maps phys n off pos len) (hR : R ≤ pos)
    (hA : pos + len ≤ A) (hn : A ≤ R + n) {i : ℕ} (hi : i < len) :
    (Mem.read phys m off len)[i]? = some (g (pos + i)) := by
  rw [read_pos hmap hi, h _ (by omega) (by omega), if_pos (by omega)]

end Window

end Ring
