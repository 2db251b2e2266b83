/-
  Bytes in memory: little-endian words, 64-bit positions, and regions of
  memory that are written and read through an address map.

  * `le64` and `ofLE`: an unsigned 64-bit word and its eight bytes;
  * `Mem.write`, `Mem.read`: copying into and out of a region whose index `i`
    is the cell `phys i` (a plain array has `phys = id`, a ring of `n` cells
    mapped twice has `phys i = i % n`);
  * `ofNat_sub_toNat`, `ofNat_and_mask`: counters that only grow, taken
    modulo 2^64.
-/
import Mathlib.Data.List.Basic
import Mathlib.Data.Nat.ModEq
import Mathlib.Tactic.Ring
import Mathlib.Tactic.Linarith

/-! ## Little-endian words -/

namespace Bytes

/-- The first `k` little-endian bytes of `n`. -/
def le (n : ℕ) : ℕ → List UInt8
  | 0 => []
  | k + 1 => UInt8.ofNat n :: le (n / 256) k

/-- The eight bytes of a 64-bit word. -/
def le64 (n : ℕ) : List UInt8 := le n 8

/-- The number with the little-endian bytes `bs`. -/
def ofLE : List UInt8 → ℕ
  | [] => 0
  | b :: bs => b.toNat + 256 * ofLE bs

@[simp] theorem length_le (n k : ℕ) : (le n k).length = k := by
  induction k generalizing n with
  | zero => rfl
  | succ k ih => simp [le, ih]

@[simp] theorem length_le64 (n : ℕ) : (le64 n).length = 8 := length_le n 8

theorem ofLE_le (n k : ℕ) : ofLE (le n k) = n % 256 ^ k := by
  induction k generalizing n with
  | zero => simp [le, ofLE, Nat.mod_one]
  | succ k ih =>
    have hb : (UInt8.ofNat n).toNat = n % 256 := UInt8.toNat_ofNat'
    rw [le, ofLE, ih, hb, pow_succ', Nat.mod_mul]

theorem ofLE_le64 {n : ℕ} (h : n < 2 ^ 64) : ofLE (le64 n) = n := by
  rw [le64, ofLE_le]; exact Nat.mod_eq_of_lt (by norm_num at h ⊢; exact h)

theorem ofLE_lt : ∀ bs : List UInt8, ofLE bs < 256 ^ bs.length
  | [] => by simp [ofLE]
  | b :: bs => by
    have hb : b.toNat < 256 := b.toNat_lt
    have ih := ofLE_lt bs
    rw [ofLE, List.length_cons, pow_succ']
    omega

/-- A word some of whose bytes still read as zero is not larger. -/
theorem ofLE_le_of_masked : ∀ {bs cs : List UInt8},
    List.Forall₂ (fun b c => b = 0 ∨ b = c) bs cs → ofLE bs ≤ ofLE cs
  | [], [], .nil => le_rfl
  | b :: bs, c :: cs, .cons h hs => by
    have ih := ofLE_le_of_masked hs
    rw [ofLE, ofLE]
    rcases h with rfl | rfl
    · have h0 : (0 : UInt8).toNat = 0 := rfl
      rw [h0]; omega
    · omega

theorem ofLE_eq_zero {bs : List UInt8} (h : ∀ b ∈ bs, b = 0) : ofLE bs = 0 := by
  induction bs with
  | nil => rfl
  | cons b bs ih =>
    rw [ofLE, h b (by simp), ih fun c hc => h c (by simp [hc])]; rfl

theorem ofLE_inj : ∀ {bs cs : List UInt8}, bs.length = cs.length → ofLE bs = ofLE cs → bs = cs
  | [], [], _, _ => rfl
  | b :: bs, c :: cs, hl, h => by
    have hb : b.toNat < 256 := b.toNat_lt
    have hc : c.toNat < 256 := c.toNat_lt
    rw [ofLE, ofLE] at h
    have h1 : b = c := UInt8.toNat_inj.1 (by omega)
    have h2 : ofLE bs = ofLE cs := by omega
    rw [h1, ofLE_inj (by simpa using hl) h2]

end Bytes

/-! ## Positions modulo 2^64 -/

namespace Pos

/-- The length of `bs` as a 64-bit word. -/
def lengthOf (bs : List UInt8) : UInt64 := UInt64.ofNat bs.length

theorem ofNat_toNat (n : ℕ) : (UInt64.ofNat n).toNat = n % 2 ^ 64 := UInt64.toNat_ofNat'

/-- The distance of two counters, as long as it fits a word. -/
theorem ofNat_sub_toNat {a b : ℕ} (h : b ≤ a) (hlt : a - b < 2 ^ 64) :
    (UInt64.ofNat a - UInt64.ofNat b).toNat = a - b := by
  rw [UInt64.toNat_sub, ofNat_toNat, ofNat_toNat]
  omega

theorem ofNat_add (a b : ℕ) : UInt64.ofNat a + UInt64.ofNat b = UInt64.ofNat (a + b) :=
  (UInt64.ofNat_add a b).symm

theorem toNat_min (a b : UInt64) : (min a b).toNat = min a.toNat b.toNat := by
  show (if a ≤ b then a else b).toNat = _
  split_ifs with h
  · exact (min_eq_left (UInt64.le_iff_toNat_le.1 h)).symm
  · exact (min_eq_right (le_of_not_ge fun hle => h (UInt64.le_iff_toNat_le.2 hle))).symm

/-- The power-of-two test `n != 0 && !(n & (n - 1))`. -/
def powerOfTwo (n : UInt64) : Bool := n != 0 && (n &&& (n - 1)) == 0

theorem powerOfTwo_spec {n : UInt64} (h : powerOfTwo n = true) : ∃ k < 64, n.toNat = 2 ^ k := by
  simp only [powerOfTwo, Bool.and_eq_true, bne_iff_ne, ne_eq, beq_iff_eq] at h
  obtain ⟨h0, h1⟩ := h
  have h0' : n.toNat ≠ 0 := fun he => h0 (UInt64.toNat_inj.1 he)
  have hsub : (n - 1).toNat = n.toNat - 1 := by
    rw [UInt64.toNat_sub]
    have := n.toNat_lt
    simp only [UInt64.toNat_one]; omega
  have h2 := congrArg UInt64.toNat h1
  rw [UInt64.toNat_and, hsub] at h2
  obtain ⟨k, hk⟩ := (Nat.ne_zero_and_sub_one_eq_zero_iff_isPowerOfTwo).1 ⟨h0', h2⟩
  refine ⟨k, ?_, hk⟩
  have := n.toNat_lt
  rw [hk] at this
  exact (Nat.pow_lt_pow_iff_right (by norm_num)).1 this

theorem powerOfTwo_pos {n : UInt64} (h : powerOfTwo n = true) : 0 < n.toNat := by
  obtain ⟨k, -, hk⟩ := powerOfTwo_spec h
  rw [hk]; positivity

/-- Masking a counter is reducing it modulo the ring size. -/
theorem ofNat_and_mask {n : UInt64} (h : powerOfTwo n = true) (a : ℕ) :
    (UInt64.ofNat a &&& (n - 1)).toNat = a % n.toNat := by
  obtain ⟨k, hk, hn⟩ := powerOfTwo_spec h
  have hpos := powerOfTwo_pos h
  have hsub : (n - 1).toNat = n.toNat - 1 := by
    rw [UInt64.toNat_sub]
    have := n.toNat_lt
    simp only [UInt64.toNat_one]; omega
  rw [UInt64.toNat_and, hsub, hn, ofNat_toNat, Nat.and_two_pow_sub_one_eq_mod,
    Nat.mod_mod_of_dvd _ (Nat.pow_dvd_pow 2 hk.le)]

/-- A test that `w` more bytes fit a ring of `size` bytes of which those from `C` to `E` are
    in use. -/
theorem room_iff {size w : UInt64} {E C : ℕ} (hCE : C ≤ E) (hroom : E ≤ C + size.toNat) :
    ¬ w > size - (UInt64.ofNat E - UInt64.ofNat C) ↔ E + w.toNat ≤ C + size.toNat := by
  have hlt := size.toNat_lt
  have hsub := ofNat_sub_toNat hCE (by omega)
  have hle : UInt64.ofNat E - UInt64.ofNat C ≤ size := by
    rw [UInt64.le_iff_toNat_le, hsub]; omega
  rw [gt_iff_lt, UInt64.not_lt, UInt64.le_iff_toNat_le, UInt64.toNat_sub_of_le _ _ hle, hsub]
  omega

theorem room {size w : UInt64} {E C : ℕ} (hCE : C ≤ E) (hroom : E ≤ C + size.toNat)
    (h : ¬ w > size - (UInt64.ofNat E - UInt64.ofNat C)) : E + w.toNat ≤ C + size.toNat :=
  (room_iff hCE hroom).1 h

/-- Two positions less than a ring apart share a cell only if they are equal. -/
theorem eq_of_mod_eq {n a b : ℕ} (h : a % n = b % n) (hab : a ≤ b) (hlt : b < a + n) : a = b := by
  have hd : n ∣ b - a := (Nat.modEq_iff_dvd' hab).1 h
  have := Nat.eq_zero_of_dvd_of_lt hd (by omega)
  omega

end Pos

/-! ## Memory -/

/-- The cells of a memory region. -/
abbrev Mem := ℕ → UInt8

namespace Mem

/-- Copy `bs` to the indices `off, off + 1, …` of a region. -/
def write (phys : ℕ → ℕ) (m : Mem) (off : ℕ) : List UInt8 → Mem
  | [] => m
  | b :: bs => write phys (fun i => if i = phys off then b else m i) (off + 1) bs

/-- The bytes at the indices `off, …, off + len - 1` of a region. -/
def read (phys : ℕ → ℕ) (m : Mem) (off len : ℕ) : List UInt8 :=
  (List.range len).map fun i => m (phys (off + i))

@[simp] theorem length_read (phys : ℕ → ℕ) (m : Mem) (off len : ℕ) :
    (read phys m off len).length = len := by simp [read]

theorem read_get {phys : ℕ → ℕ} {m : Mem} {off len i : ℕ} (h : i < len) :
    (read phys m off len)[i]? = some (m (phys (off + i))) := by
  simp [read, h]

/-- Cells outside the written range keep their bytes. -/
theorem write_of_ne {phys : ℕ → ℕ} {m : Mem} {off : ℕ} {bs : List UInt8} {c : ℕ}
    (h : ∀ i < bs.length, phys (off + i) ≠ c) : write phys m off bs c = m c := by
  induction bs generalizing m off with
  | nil => rfl
  | cons b bs ih =>
    have htail : ∀ i < bs.length, phys (off + 1 + i) ≠ c := by
      intro i hi
      have := h (i + 1) (by simpa using hi)
      rwa [add_right_comm, add_assoc]
    have hhead : c ≠ phys off := by
      rintro rfl
      exact h 0 (by simp) rfl
    rw [write, ih htail, if_neg hhead]

/-- A written cell holds the byte copied to it, if no later byte goes there. -/
theorem write_of_lt {phys : ℕ → ℕ} {m : Mem} {off : ℕ} {bs : List UInt8} {i : ℕ} {b : UInt8}
    (hb : bs[i]? = some b)
    (hinj : ∀ j, i < j → j < bs.length → phys (off + j) ≠ phys (off + i)) :
    write phys m off bs (phys (off + i)) = b := by
  induction bs generalizing m off i with
  | nil => simp at hb
  | cons c bs ih =>
    rw [write]
    cases i with
    | zero =>
      simp only [List.getElem?_cons_zero, Option.some.injEq] at hb
      have hlater : ∀ j < bs.length, phys (off + 1 + j) ≠ phys (off + 0) := by
        intro j hj
        have := hinj (j + 1) (by omega) (by simpa using hj)
        rwa [add_right_comm, add_assoc]
      rw [write_of_ne hlater, if_pos (by simp), hb]
    | succ i =>
      have hshift : ∀ j, off + 1 + j = off + (j + 1) := by intro j; omega
      have htail : ∀ j, i < j → j < bs.length → phys (off + 1 + j) ≠ phys (off + 1 + i) := by
        intro j hij hj
        rw [hshift, hshift]
        exact hinj (j + 1) (by omega) (by simpa using hj)
      have := @ih (fun k => if k = phys off then c else m k) (off + 1) i (by simpa using hb) htail
      rwa [hshift] at this

/-- Two copies, one behind the other. -/
theorem write_append (phys : ℕ → ℕ) (m : Mem) (off : ℕ) (bs cs : List UInt8) :
    write phys m off (bs ++ cs) = write phys (write phys m off bs) (off + bs.length) cs := by
  induction bs generalizing m off with
  | nil => rfl
  | cons b bs ih =>
    rw [List.cons_append, write, write, ih, List.length_cons, add_assoc, add_comm 1]

/-- Only the cells matter. -/
theorem write_congr {phys phys' : ℕ → ℕ} (m : Mem) {off off' : ℕ} {bs : List UInt8}
    (h : ∀ i < bs.length, phys (off + i) = phys' (off' + i)) :
    write phys m off bs = write phys' m off' bs := by
  induction bs generalizing m off off' with
  | nil => rfl
  | cons b bs ih =>
    have h0 : phys off = phys' off' := h 0 (by simp)
    rw [write, write, h0]
    refine ih _ fun i hi => ?_
    rw [add_assoc, add_assoc, add_comm 1]
    exact h (i + 1) (by simpa using hi)

/-- What a written range has held before does not matter. -/
theorem write_of_agree {phys : ℕ → ℕ} {m m' : Mem} {off : ℕ} {bs : List UInt8}
    (h : ∀ c, (∀ i < bs.length, phys (off + i) ≠ c) → m c = m' c) :
    write phys m off bs = write phys m' off bs := by
  induction bs generalizing m m' off with
  | nil => exact funext fun c => h c fun i hi => by cases hi
  | cons b bs ih =>
    refine ih fun c hc => ?_
    by_cases hoff : c = phys off
    · rw [if_pos hoff, if_pos hoff]
    · rw [if_neg hoff, if_neg hoff]
      refine h c fun i hi => ?_
      cases i with
      | zero => exact Ne.symm hoff
      | succ i => rw [add_comm i, ← add_assoc]; exact hc i (by simpa using hi)

/-- A copy of what is there already. -/
theorem write_self {phys : ℕ → ℕ} {m : Mem} {off : ℕ} {bs : List UInt8}
    (h : ∀ i b, bs[i]? = some b → m (phys (off + i)) = b) : write phys m off bs = m := by
  induction bs generalizing off with
  | nil => rfl
  | cons b bs ih =>
    have hb : (fun i => if i = phys off then b else m i) = m := by
      ext c
      split_ifs with hc
      · rw [hc]; exact congrArg _ (h 0 b rfl).symm
      · rfl
    rw [write, hb]
    refine ih fun i c hc => ?_
    rw [add_assoc, add_comm 1]
    exact h (i + 1) c (by simpa using hc)

/-- Copies to different cells commute. -/
theorem write_comm {phys : ℕ → ℕ} (m : Mem) {off off' : ℕ} {bs cs : List UInt8}
    (h : ∀ i < bs.length, ∀ j < cs.length, phys (off + i) ≠ phys (off' + j)) :
    write phys (write phys m off bs) off' cs = write phys (write phys m off' cs) off bs := by
  have hone : ∀ (m : Mem) c b, (∀ j < cs.length, c ≠ phys (off' + j)) →
      write phys (fun i => if i = c then b else m i) off' cs =
        fun i => if i = c then b else write phys m off' cs i := by
    intro m c b hc
    induction cs generalizing m off' with
    | nil => rfl
    | cons d cs ih =>
      have hd : c ≠ phys off' := hc 0 (by simp)
      have hswap : (fun i => if i = phys off' then d else if i = c then b else m i) =
          fun i => if i = c then b else if i = phys off' then d else m i := by
        ext i
        split_ifs with h₁ h₂
        · exact absurd (h₂.symm.trans h₁) hd
        all_goals rfl
      rw [write, hswap, write]
      refine ih (fun i hi j hj => ?_) _ fun j hj => ?_
      · rw [add_assoc, add_comm 1]
        exact h i hi (j + 1) (by simpa using hj)
      · rw [add_assoc, add_comm 1]
        exact hc (j + 1) (by simpa using hj)
  induction bs generalizing m off with
  | nil => rfl
  | cons b bs ih =>
    rw [write, write, ih, hone m (phys off) b fun j hj => h 0 (by simp) j hj]
    intro i hi j hj
    rw [add_assoc, add_comm 1]
    exact h (i + 1) (by simpa using hi) j hj

/-- A copy into a plain array, -/
theorem write_id_of_get {m : Mem} {off : ℕ} {bs : List UInt8} {i : ℕ} {b : UInt8}
    (hb : bs[i]? = some b) : write id m off bs (off + i) = b :=
  write_of_lt hb fun j hij _ he => by simp only [id] at he; omega

/-- and what it leaves as it is. -/
theorem write_id_of_ne {m : Mem} {off : ℕ} {bs : List UInt8} {i : ℕ}
    (h : i < off ∨ off + bs.length ≤ i) : write id m off bs i = m i :=
  write_of_ne fun j hj he => by simp only [id] at he; omega

end Mem

/-! ## Torn loads -/

/-- A 64-bit load in progress: the bytes read so far.  Other parties may write between
    any two of them. -/
abbrev Load := ℕ → Option UInt8

namespace Load

def empty : Load := fun _ => none

/-- Read the bytes `is` that are still missing, from memory that holds `byte i` there. -/
def take (got : Load) (is : List ℕ) (byte : ℕ → UInt8) : Load :=
  fun i => if i ∈ is ∧ got i = none then some (byte i) else got i

def bytes (got : Load) : List UInt8 := (List.range 8).map fun i => (got i).getD 0

/-- The word, once all its bytes are read. -/
def word (got : Load) : Option UInt64 :=
  if (List.range 8).all fun i => (got i).isSome then some (UInt64.ofNat (Bytes.ofLE got.bytes))
  else none

@[simp] theorem length_bytes (got : Load) : got.bytes.length = 8 := by simp [bytes]

theorem word_eq_some {got : Load} {w : UInt64} (h : got.word = some w) :
    w = UInt64.ofNat (Bytes.ofLE got.bytes) ∧
      ∀ (i : ℕ) (b : UInt8), got.bytes[i]? = some b → got i = some b := by
  unfold word at h
  split_ifs at h with hall
  refine ⟨(Option.some.inj h).symm, ?_⟩
  intro i b hb
  obtain ⟨hi, he⟩ := List.getElem?_eq_some_iff.1 hb
  simp only [length_bytes] at hi
  obtain ⟨c, hc⟩ := Option.isSome_iff_exists.1 (List.all_eq_true.1 hall i (List.mem_range.2 hi))
  simp only [bytes, List.getElem_map, List.getElem_range, hc, Option.getD_some] at he
  rw [hc, he]

/-- What holds of the bytes of a load holds after it has taken more of them. -/
theorem take_forall {P : ℕ → UInt8 → Prop} {got : Load} (is : List ℕ) {byte : ℕ → UInt8}
    (h : ∀ i < 8, ∀ b, got i = some b → P i b) (hbyte : ∀ i < 8, P i (byte i)) :
    ∀ i < 8, ∀ b, got.take is byte i = some b → P i b := by
  intro i hi b hb
  unfold take at hb
  split_ifs at hb
  · cases hb; exact hbyte i hi
  · exact h i hi b hb

/-- A load that takes all the bytes it still misses is complete. -/
theorem word_take_range (got : Load) (byte : ℕ → UInt8) :
    (got.take (List.range 8) byte).word =
      some (UInt64.ofNat (Bytes.ofLE ((List.range 8).map fun i => (got i).getD (byte i)))) := by
  have hget : ∀ i ∈ List.range 8,
      got.take (List.range 8) byte i = some ((got i).getD (byte i)) := by
    intro i hi
    unfold take
    cases hg : got i with
    | none => simp only [hi, true_and, if_true]; rfl
    | some b => simp
  have hall : ((List.range 8).all fun i => (got.take (List.range 8) byte i).isSome) = true :=
    List.all_eq_true.2 fun i hi => by rw [hget i hi]; rfl
  have hbytes : (got.take (List.range 8) byte).bytes =
      (List.range 8).map fun i => (got i).getD (byte i) :=
    List.map_congr_left fun i hi => by rw [hget i hi]; rfl
  rw [word, if_pos hall, hbytes]

end Load
