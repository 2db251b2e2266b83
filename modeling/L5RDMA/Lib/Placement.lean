/-
  Writes whose bytes arrive in any order.

  A write fills one region of a stream.  It begins to arrive when those before
  it have arrived completely, and of the one in progress any bytes may have
  (`land`).

  * `Progress`: the regions that have arrived, those of the queued writes, of
    which the first has arrived in part, and those that are not posted yet;
  * `InOrder`: when anything of the later regions has arrived, all of the
    earlier ones has;
  * `Patchy`: a ring of `n` cells as a window on the stream, each cell zero
    until the byte of its position has arrived.
-/
import L5RDMA.Lib.Channel

namespace Placement

open Verbs Channel Ring

/-! ## Regions -/

/-- The positions `pos, …, pos + len - 1`. -/
structure Region where
  pos : ℕ
  len : ℕ

instance : Membership ℕ Region := ⟨fun r q => r.pos ≤ q ∧ q < r.pos + r.len⟩

/-- No position is in both. -/
def Region.Apart (r r' : Region) : Prop := ∀ q, q ∈ r → q ∉ r'

def InOrder (L : ℕ → Prop) (rs : List Region) : Prop :=
  ∀ l l', rs = l ++ l' → (∃ r ∈ l', ∃ q ∈ r, L q) → ∀ r ∈ l, ∀ q ∈ r, L q

structure Progress where
  done : List Region
  queued : List Region
  unposted : List Region
  /-- the offsets that have arrived of the first queued write -/
  placed : List ℕ

namespace Progress

def regions (t : Progress) : List Region := t.done ++ t.queued ++ t.unposted

/-- The positions whose byte has arrived. -/
def Arrived (t : Progress) (q : ℕ) : Prop :=
  (∃ r ∈ t.done, q ∈ r) ∨ ∃ r ∈ t.queued.head?, ∃ i ∈ t.placed, i < r.len ∧ q = r.pos + i

section
variable {t : Progress} {r : Region} {rest : List Region} {q i : ℕ}

theorem Arrived.exists_mem (h : t.Arrived q) : ∃ r ∈ t.regions, q ∈ r := by
  rcases h with ⟨r, hr, hq⟩ | ⟨r, hr, i, -, hi, rfl⟩
  · exact ⟨r, by simp [regions, hr], hq⟩
  · have hr := List.mem_of_mem_head? hr
    exact ⟨r, by simp [regions, hr], Nat.le_add_right _ _, by omega⟩

/-- **Regions that are apart arrive in order.** -/
theorem inOrder (h : t.regions.Pairwise Region.Apart) : InOrder t.Arrived t.regions := by
  rintro l l' hsplit ⟨r', hr', q', hq', hL⟩ r hr q hq
  have hrest : t.done ++ (t.queued ++ t.unposted) = l ++ l' := by
    rw [← List.append_assoc]; exact hsplit
  rcases List.append_eq_append_iff.1 hrest with ⟨a, rfl, ha⟩ | ⟨a, ha, -⟩
  · rcases List.mem_append.1 hr with hr | hr
    · exact Or.inl ⟨r, hr, hq⟩
    · -- then nothing of `l'` has arrived
      exfalso
      rw [hsplit, List.append_assoc] at h
      obtain ⟨-, hal, hdone⟩ := List.pairwise_append.1 h
      rcases hL with ⟨d, hd, hqd⟩ | ⟨d, hd, i, -, hi, rfl⟩
      · exact hdone d hd r' (List.mem_append_right _ hr') q' hqd hq'
      · have hda : d ∈ a := by
          cases a with
          | nil => cases hr
          | cons b a =>
            cases hqueued : t.queued with
            | nil => rw [hqueued] at hd; cases hd
            | cons d' k =>
              rw [hqueued] at hd ha
              cases hd
              rw [(List.cons.inj ha).1]
              exact List.mem_cons_self
        exact (List.pairwise_append.1 hal).2.2 d hda r' hr' _ ⟨Nat.le_add_right _ _, by omega⟩ hq'
  · exact Or.inl ⟨r, by rw [ha]; exact List.mem_append_left _ hr, hq⟩

/-- A byte of the first queued write arrives, -/
theorem arrived_place (hq : t.queued = r :: rest) (hi : i < r.len) :
    Arrived { t with placed := i :: t.placed } q ↔ t.Arrived q ∨ q = r.pos + i := by
  have hhead : ∀ r', r' ∈ t.queued.head? ↔ r' = r := by
    intro r'
    rw [hq]
    exact Option.some.injEq .. ▸ eq_comm
  constructor
  · rintro (hd | ⟨r', hr', j, hj, hjl, rfl⟩)
    · exact Or.inl (Or.inl hd)
    · obtain rfl := (hhead r').1 hr'
      rcases List.mem_cons.1 hj with rfl | hj
      · exact Or.inr rfl
      · exact Or.inl (Or.inr ⟨r', hr', j, hj, hjl, rfl⟩)
  · rintro ((hd | ⟨r', hr', j, hj, hjl, rfl⟩) | rfl)
    · exact Or.inl hd
    · exact Or.inr ⟨r', hr', j, List.mem_cons_of_mem _ hj, hjl, rfl⟩
    · exact Or.inr ⟨r, (hhead r).2 rfl, i, List.mem_cons_self, hi, rfl⟩

/-- and it may be the last one. -/
theorem arrived_finish (hq : t.queued = r :: rest) (hi : i < r.len)
    (hall : ∀ j < r.len, j = i ∨ j ∈ t.placed) :
    Arrived { t with done := t.done ++ [r], queued := rest, placed := [] } q ↔
      t.Arrived q ∨ q = r.pos + i := by
  rw [← arrived_place hq hi]
  have hhead : r ∈ t.queued.head? := by rw [hq]; rfl
  constructor
  · rintro (⟨r', hr', hqr⟩ | ⟨_, -, _, hj, -⟩)
    · rcases List.mem_append.1 hr' with hr' | hr'
      · exact Or.inl ⟨r', hr', hqr⟩
      · rw [List.mem_singleton] at hr'
        subst hr'
        obtain ⟨j, rfl⟩ := Nat.exists_eq_add_of_le hqr.1
        have hj : j < r'.len := by have := hqr.2; omega
        exact Or.inr ⟨r', hhead, j, List.mem_cons.2 (hall j hj), hj, rfl⟩
    · cases hj
  · rintro (⟨r', hr', hqr⟩ | ⟨r', hr', j, -, hjl, rfl⟩)
    · exact Or.inl ⟨r', List.mem_append_left _ hr', hqr⟩
    · have hr' : r' ∈ t.queued.head? := hr'
      rw [hq] at hr'
      cases hr'
      exact Or.inl ⟨r, List.mem_append_right _ (List.mem_singleton_self _),
        Nat.le_add_right _ _, Nat.add_lt_add_left hjl _⟩

/-- A write is posted. -/
theorem arrived_post (hplaced : t.queued = [] → t.placed = []) {unposted : List Region} :
    Arrived { t with queued := t.queued ++ [r], unposted := unposted } q ↔ t.Arrived q := by
  cases hq : t.queued with
  | nil => simp [Arrived, hq, hplaced hq]
  | cons r' rest => simp [Arrived, hq]

end

end Progress

/-! ## The queue -/

/-- Byte `i` of the oldest write that has not arrived completely arrives, when those with the
    offsets `placed` have: the write, the queue, in which nothing is left of it after its last
    byte, and the offsets that have arrived of the write in progress. -/
def place (placed : List ℕ) (i : ℕ) : List Request → Option (Write × List Request × List ℕ)
  | .write w :: sq =>
    if w.length = 0 then
      (place placed i sq).map fun (w', sq', placed') => (w', .write w :: sq', placed')
    else if i < w.length ∧ i ∉ placed then
      if ∀ j < w.length, j = i ∨ j ∈ placed then some (w, .write (w.drop w.length) :: sq, [])
      else some (w, .write w :: sq, i :: placed)
    else none
  | _ => none

/-- The writes that have not arrived completely. -/
def pending : List Request → List Write
  | [] => []
  | .write w :: sq => if w.length = 0 then pending sq else w :: pending sq
  | .read _ :: sq => pending sq

theorem pending_append (sq sq' : List Request) :
    pending (sq ++ sq') = pending sq ++ pending sq' := by
  induction sq with
  | nil => rfl
  | cons r sq ih =>
    cases r with
    | read id => exact ih
    | write w =>
      rw [List.cons_append, pending, pending, ih]
      split_ifs
      · rfl
      · rfl

theorem place_spec {placed placed' : List ℕ} {i : ℕ} {sq sq' : List Request} {w : Write}
    (h : place placed i sq = some (w, sq', placed')) :
    i < w.length ∧ i ∉ placed ∧ ∃ rest, pending sq = w :: rest ∧
      ((pending sq' = rest ∧ placed' = [] ∧ ∀ j < w.length, j = i ∨ j ∈ placed) ∨
        (pending sq' = w :: rest ∧ placed' = i :: placed)) := by
  induction sq generalizing sq' with
  | nil => cases h
  | cons r sq ih =>
    cases r with
    | read id => cases h
    | write w' =>
      rw [place] at h
      split_ifs at h with hdone hi hall
      · obtain ⟨⟨w₁, sq₁, placed₁⟩, hp, he⟩ := Option.map_eq_some_iff.1 h
        cases he
        obtain ⟨hlt, hnot, rest, hrest, hor⟩ := ih hp
        refine ⟨hlt, hnot, rest, by rw [pending, if_pos hdone, hrest], ?_⟩
        rw [pending, if_pos hdone]
        exact hor
      · cases h
        refine ⟨hi.1, hi.2, pending sq, by rw [pending, if_neg hdone], Or.inl ⟨?_, rfl, hall⟩⟩
        exact if_pos (Nat.sub_self _)
      · cases h
        exact ⟨hi.1, hi.2, pending sq, by rw [pending, if_neg hdone],
          Or.inr ⟨by rw [pending, if_neg hdone], rfl⟩⟩

/-- Byte `i` of the oldest write that has not arrived completely arrives in the ring. -/
def land (phys : ℕ → ℕ) (c : Conn) (placed : List ℕ) (i : ℕ) : Option (Conn × List ℕ) :=
  (place placed i c.sq).map fun (w, sq, placed) =>
    ({ c with
        receiveBuf := Mem.write phys c.receiveBuf (w.remoteOff + i) [w.byte phys c.sendBuf i]
        sq := sq }, placed)

/-- The write `w` has the bytes of the stream `g` for the region `r` with it. -/
structure Carries (phys : ℕ → ℕ) (n : ℕ) (g : ℕ → UInt8) (w : Write) (r : Region) : Prop where
  length : w.length = r.len
  maps : Maps phys n w.remoteOff r.pos r.len
  bytes : ∀ (m : Mem) (i : ℕ), i < r.len → w.byte phys m i = g (r.pos + i)

/-! ## The ring -/

/-- Of the `n` positions from `R` on, those in `L` hold their byte of the stream `g`, and the
    others zero. -/
def Patchy (n : ℕ) (g : ℕ → UInt8) (m : Mem) (R : ℕ) (L : ℕ → Prop) : Prop :=
  ∀ q, R ≤ q → q < R + n → (L q ∧ m (q % n) = g q) ∨ (¬ L q ∧ m (q % n) = 0)

/-- What a reader knows of a byte it has loaded: it is zero, or a byte of the stream that
    has arrived. -/
def Seen (g : ℕ → UInt8) (L : ℕ → Prop) (q : ℕ) (b : UInt8) : Prop := b = 0 ∨ (L q ∧ b = g q)

namespace Patchy
variable {n : ℕ} {g : ℕ → UInt8} {m : Mem} {R : ℕ} {L L' : ℕ → Prop} {phys : ℕ → ℕ} {off x : ℕ}

/-- The byte of position `x` arrives.  It may be late, and its cell cleared, but only if it
    is zero and the position that the cell has now has not arrived. -/
theorem place (h : Patchy n g m R L) (hoff : phys off = x % n) (hx : x < R + n)
    (hlate : x < R → g x = 0 ∧ R ≤ x + n ∧ ¬ L (x + n)) (hL : ∀ q, L' q ↔ L q ∨ q = x) :
    Patchy n g (Mem.write phys m off [g x]) R L' := by
  intro q hRq hq
  rw [hL]
  have hwrite : Mem.write phys m off [g x] (q % n) = if q % n = x % n then g x else m (q % n) := by
    rw [← hoff]; rfl
  rw [hwrite]
  by_cases hc : q % n = x % n
  · rw [if_pos hc]
    rcases Nat.lt_or_ge x R with hlt | hge
    · obtain ⟨hz, hn, hnot⟩ := hlate hlt
      obtain rfl : q = x + n := by
        rw [← Nat.add_mod_right x n] at hc
        rcases Nat.le_total q (x + n) with hle | hle
        · exact Pos.eq_of_mod_eq hc hle (by omega)
        · exact (Pos.eq_of_mod_eq hc.symm hle (by omega)).symm
      exact Or.inr ⟨fun hq => hq.elim hnot (by omega), hz⟩
    · obtain rfl : q = x := by
        rcases Nat.le_total q x with hle | hle
        · exact Pos.eq_of_mod_eq hc hle (by omega)
        · exact (Pos.eq_of_mod_eq hc.symm hle (by omega)).symm
      exact Or.inl ⟨Or.inr rfl, rfl⟩
  · rw [if_neg hc]
    have hne : q ≠ x := fun he => hc (he ▸ rfl)
    rcases h q hRq hq with ⟨hLq, hm⟩ | ⟨hLq, hm⟩
    · exact Or.inl ⟨Or.inl hLq, hm⟩
    · exact Or.inr ⟨fun hq => hq.elim hLq hne, hm⟩

/-- The first `k` positions are cleared and given back. -/
theorem clear (h : Patchy n g m R L) {m' : Mem} {k : ℕ} (hL : ∀ q, R + n ≤ q → ¬ L q)
    (hz : ∀ i < k, m' ((R + i) % n) = 0)
    (ho : ∀ q, R + k ≤ q → q < R + n → m' (q % n) = m (q % n)) : Patchy n g m' (R + k) L := by
  intro q hRq hq
  rcases Nat.lt_or_ge q (R + n) with hqn | hqn
  · rw [ho q hRq hqn]
    exact h q (by omega) hqn
  · -- the position that inherits a cleared cell
    obtain ⟨i, rfl⟩ : ∃ i, q = R + i + n := ⟨q - R - n, by omega⟩
    rw [Nat.add_mod_right]
    exact Or.inr ⟨hL _ hqn, hz i (by omega)⟩

theorem congr {g' : ℕ → UInt8} (h : Patchy n g m R L) (hg : ∀ q, R ≤ q → L q → g q = g' q) :
    Patchy n g' m R L := by
  intro q hRq hq
  rcases h q hRq hq with ⟨hLq, hm⟩ | hm
  · exact Or.inl ⟨hLq, hm.trans (hg q hRq hLq)⟩
  · exact Or.inr hm

theorem congr_arrived (h : Patchy n g m R L) (hL : ∀ q, L' q ↔ L q) : Patchy n g m R L' := by
  intro q hRq hq
  rw [hL]
  exact h q hRq hq

/-- A load at `q`. -/
theorem seen (h : Patchy n g m R L) (hn : 0 < n) {q : ℕ} (hRq : R ≤ q)
    (hq : q < R + n ∨ ∀ q, R ≤ q → ¬ L q) : Seen g L q (m (q % n)) := by
  rcases Nat.lt_or_ge q (R + n) with hlt | hge
  · rcases h q hRq hlt with hm | ⟨-, hm⟩
    · exact Or.inr hm
    · exact Or.inl hm
  · -- nothing has arrived, so every cell is zero
    have hnot := hq.resolve_left (Nat.not_lt.2 hge)
    have hc : (R + (q - R) % n) % n = q % n := by
      rw [Nat.add_mod_mod, Nat.add_sub_cancel' hRq]
    have hlt := Nat.mod_lt (q - R) hn
    rcases h (R + (q - R) % n) (Nat.le_add_right _ _) (by omega) with ⟨hLq, -⟩ | ⟨-, hm⟩
    · exact absurd hLq (hnot _ (Nat.le_add_right _ _))
    · rw [hc] at hm
      exact Or.inl hm

/-- The cell of a position whose byte has arrived, or is zero. -/
theorem cell (h : Patchy n g m R L) {q : ℕ} (hRq : R ≤ q) (hq : q < R + n) (hL : L q ∨ g q = 0) :
    m (q % n) = g q := by
  rcases h q hRq hq with ⟨-, hm⟩ | ⟨hnot, hm⟩
  · exact hm
  · exact hm.trans (hL.resolve_left hnot).symm

end Patchy

end Placement
