/-
  Pollers: loops that go through an array, over and over, until they find an
  entry that is set, which they return and reset.

  A loop has the steps that it may take as its fuel.  It takes `stride` entries
  at once, and of those that are set there it may choose any (`Sees`).  If some
  entry is set, one pass is enough (`Sees.scan`).

  `Polls.drain`: called until nothing is set, a poller returns each entry that
  was set exactly once, so that two of them differ only in the order
  (`Polls.refines`).
-/
import Mathlib.Data.List.Basic
import Mathlib.Data.List.Nodup
import Mathlib.Logic.Function.Basic
import Mathlib.Order.Nat
import Mathlib.Tactic.SplitIfs

namespace Scan

variable {α ρ : Type}

def scan (stride count : ℕ) (look : ℕ → Option ℕ) : ℕ → ℕ → Option ℕ
  | 0, _ => none
  | fuel + 1, i =>
    if i < count then
      match look i with
      | some j => some j
      | none => scan stride count look fuel (i + stride)
    else scan stride count look fuel 0

/-- One look sees whether `P` holds at one of `stride` indices, and at which. -/
structure Sees (P : ℕ → Prop) (stride : ℕ) (look : ℕ → Option ℕ) : Prop where
  found : ∀ {i j}, look i = some j → i ≤ j ∧ j < i + stride ∧ P j
  missed : ∀ {i j}, look i = none → i ≤ j → j < i + stride → ¬ P j

section
variable {P : ℕ → Prop} {stride count : ℕ} {look : ℕ → Option ℕ}

theorem Sees.scan_from (h : Sees P stride look) (hpos : 0 < stride) (hdvd : stride ∣ count)
    (n : ℕ) : ∀ i, count - i ≤ n → stride ∣ i → (∃ j, i ≤ j ∧ j < count ∧ P j) →
      ∃ j < count, P j ∧ ∀ fuel > n, scan stride count look fuel i = some j := by
  induction n with
  | zero =>
    rintro i hn - ⟨j, hij, hj, -⟩
    omega
  | succ n ih =>
    rintro i hn hi ⟨j, hij, hj, hP⟩
    have hlt : i < count := lt_of_le_of_lt hij hj
    cases hl : look i with
    | some k =>
      obtain ⟨hik, hk, hPk⟩ := h.found hl
      have hblock : i + stride ≤ count := by
        obtain ⟨a, rfl⟩ := hi
        obtain ⟨b, rfl⟩ := hdvd
        rw [← Nat.mul_succ]
        exact Nat.mul_le_mul_left stride (Nat.lt_of_mul_lt_mul_left hlt)
      refine ⟨k, lt_of_lt_of_le hk hblock, hPk, fun fuel hf => ?_⟩
      obtain ⟨fuel, rfl⟩ := Nat.exists_eq_succ_of_ne_zero (Nat.ne_of_gt (Nat.zero_lt_of_lt hf))
      rw [scan, if_pos hlt, hl]
    | none =>
      have hij' : i + stride ≤ j := by
        by_contra hlt'
        exact h.missed hl hij (by omega) hP
      obtain ⟨k, hk, hPk, hscan⟩ := ih (i + stride) (by omega)
        (Nat.dvd_add hi (Nat.dvd_refl stride)) ⟨j, hij', hj, hP⟩
      refine ⟨k, hk, hPk, fun fuel hf => ?_⟩
      obtain ⟨fuel, rfl⟩ := Nat.exists_eq_succ_of_ne_zero (Nat.ne_of_gt (Nat.zero_lt_of_lt hf))
      rw [scan, if_pos hlt, hl]
      exact hscan fuel (by omega)

/-- **One pass is enough** if something is to be found. -/
theorem Sees.scan (h : Sees P stride look) (hpos : 0 < stride) (hdvd : stride ∣ count)
    (hP : ∃ j < count, P j) :
    ∃ j < count, P j ∧ ∀ fuel > count, scan stride count look fuel 0 = some j := by
  obtain ⟨j, hj, hP⟩ := hP
  exact h.scan_from hpos hdvd count 0 (Nat.le_refl _) (Nat.dvd_zero _) ⟨j, Nat.zero_le _, hj, hP⟩

theorem sees_if [DecidablePred P] : Sees P 1 fun i => if P i then some i else none where
  found := by
    intro i j h
    split_ifs at h with hP
    cases h
    exact ⟨Nat.le_refl _, Nat.lt_succ_self _, hP⟩
  missed := by
    intro i j h hij hj
    split_ifs at h with hP
    obtain rfl : i = j := by omega
    exact hP

end

/-! ## Calling a poller until nothing is set -/

/-- The result for index `i` and the value there, and the array without it. -/
def take (idle : α) (out : ℕ → α → ρ) (a : ℕ → α) (i : ℕ) : ρ × (ℕ → α) :=
  (out i (a i), Function.update a i idle)

/-- A loop that returns and resets the entry that it has found. -/
def poll (stride : ℕ) (idle : α) (out : ℕ → α → ρ) (look : (ℕ → α) → ℕ → Option ℕ) (count : ℕ)
    (a : ℕ → α) (fuel : ℕ) : Option (ρ × (ℕ → α)) :=
  (scan stride count (look a) fuel 0).map (take idle out a)

/-- While something is set, the poller returns one entry that is set, and resets it. -/
def Polls (idle : α) (out : ℕ → α → ρ) (count : ℕ)
    (poll : (ℕ → α) → ℕ → Option (ρ × (ℕ → α))) : Prop :=
  ∀ a, (∃ i < count, a i ≠ idle) →
    ∃ i < count, a i ≠ idle ∧ ∀ fuel > count, poll a fuel = some (take idle out a i)

theorem Sees.polls {stride count : ℕ} {idle : α} {out : ℕ → α → ρ}
    {look : (ℕ → α) → ℕ → Option ℕ} (h : ∀ a, Sees (fun i => a i ≠ idle) stride (look a))
    (hpos : 0 < stride) (hdvd : stride ∣ count) :
    Polls idle out count (poll stride idle out look count) := by
  intro a hset
  obtain ⟨i, hi, hne, hscan⟩ := (h a).scan hpos hdvd hset
  exact ⟨i, hi, hne, fun fuel hf => by rw [poll, hscan fuel hf]; rfl⟩

section
variable [DecidableEq α]

/-- Call `poll` until nothing is set, at most so many times. -/
def drain (idle : α) (count : ℕ) (poll : (ℕ → α) → Option (ρ × (ℕ → α))) :
    ℕ → (ℕ → α) → Option (List ρ)
  | 0, a => if ∀ i < count, a i = idle then some [] else none
  | calls + 1, a =>
    if ∀ i < count, a i = idle then some []
    else
      match poll a with
      | none => none
      | some (r, a) => (drain idle count poll calls a).map fun rs => r :: rs

def setIndices (idle : α) (count : ℕ) (a : ℕ → α) : List ℕ :=
  (List.range count).filter fun i => a i ≠ idle

/-- The results for all entries that are set. -/
def entries (idle : α) (out : ℕ → α → ρ) (count : ℕ) (a : ℕ → α) : List ρ :=
  (setIndices idle count a).map fun i => out i (a i)

variable {idle : α} {out : ℕ → α → ρ} {count : ℕ} {a : ℕ → α}

@[simp] theorem mem_setIndices {i : ℕ} : i ∈ setIndices idle count a ↔ i < count ∧ a i ≠ idle := by
  simp [setIndices]

theorem nodup_setIndices : (setIndices idle count a).Nodup := List.nodup_range.filter _

theorem mem_entries {r : ρ} : r ∈ entries idle out count a ↔
    ∃ i < count, a i ≠ idle ∧ out i (a i) = r := by
  simp only [entries, List.mem_map, mem_setIndices, and_assoc]

theorem nodup_entries (hout : ∀ i j x y, out i x = out j y → i = j) :
    (entries idle out count a).Nodup :=
  List.Nodup.map (fun i j h => hout i j _ _ h) nodup_setIndices

theorem setIndices_update {i : ℕ} (hi : i < count) (hset : a i ≠ idle) :
    (setIndices idle count a).Perm (i :: setIndices idle count (Function.update a i idle)) := by
  have hnot : i ∉ setIndices idle count (Function.update a i idle) := by simp
  refine (List.perm_ext_iff_of_nodup nodup_setIndices (nodup_setIndices.cons hnot)).2 fun j => ?_
  by_cases hj : j = i
  · subst hj
    simp [hi, hset]
  · simp [hj]

/-- Of the entries that are set, one is taken. -/
theorem entries_update {i : ℕ} (hi : i < count) (hset : a i ≠ idle) :
    (entries idle out count a).Perm
      (out i (a i) :: entries idle out count (Function.update a i idle)) := by
  refine ((setIndices_update hi hset).map _).trans ?_
  rw [List.map_cons]
  refine List.Perm.cons _ (List.Perm.of_eq (List.map_congr_left fun j hj => ?_))
  have hne : j ≠ i := by
    rintro rfl
    simp at hj
  rw [Function.update_of_ne hne]

theorem drain_idle {poll : (ℕ → α) → Option (ρ × (ℕ → α))} (h : ∀ i < count, a i = idle)
    (calls : ℕ) : drain idle count poll calls a = some [] := by
  cases calls <;> exact if_pos h

variable {poll poll' : (ℕ → α) → ℕ → Option (ρ × (ℕ → α))}

/-- **Each entry that is set is returned once.** -/
theorem Polls.drain (h : Polls idle out count poll) (a : ℕ → α) :
    ∃ l, l.Perm (entries idle out count a) ∧ ∀ fuel > count, ∀ calls ≥ count,
      drain idle count (poll · fuel) calls a = some l := by
  suffices hn : ∀ n a, (setIndices idle count a).length ≤ n → ∃ l,
      l.Perm (entries idle out count a) ∧ ∀ fuel > count, ∀ calls ≥ n,
        Scan.drain idle count (poll · fuel) calls a = some l from
    hn count a (le_trans (List.length_filter_le _ _) List.length_range.le)
  intro n
  induction n with
  | zero =>
    intro a hlen
    have hnil := List.length_eq_zero_iff.1 (Nat.le_zero.1 hlen)
    have hidle : ∀ i < count, a i = idle := by
      intro i hi
      by_contra hset
      have hmem : i ∈ setIndices idle count a := mem_setIndices.2 ⟨hi, hset⟩
      rw [hnil] at hmem
      cases hmem
    exact ⟨[], by rw [entries, hnil]; rfl, fun fuel _ calls _ => drain_idle hidle calls⟩
  | succ n ih =>
    intro a hlen
    by_cases hidle : ∀ i < count, a i = idle
    · refine ⟨[], ?_, fun fuel _ calls _ => drain_idle hidle calls⟩
      have hnil : setIndices idle count a = [] := by
        rw [setIndices, List.filter_eq_nil_iff]
        intro i hi
        simp [hidle i (List.mem_range.1 hi)]
      rw [entries, hnil]
      rfl
    · obtain ⟨i, hi, hset, hpoll⟩ := h a (by simpa using hidle)
      have hperm := (setIndices_update hi hset).length_eq
      rw [List.length_cons] at hperm
      obtain ⟨l, hl, hdrain⟩ := ih (Function.update a i idle) (by omega)
      refine ⟨out i (a i) :: l, (hl.cons _).trans (entries_update hi hset).symm, ?_⟩
      intro fuel hf calls hc
      obtain ⟨calls, rfl⟩ := Nat.exists_eq_succ_of_ne_zero (Nat.ne_of_gt (Nat.zero_lt_of_lt hc))
      rw [Scan.drain, if_neg hidle, hpoll fuel hf, take]
      dsimp only
      rw [hdrain fuel hf calls (Nat.le_of_succ_le_succ hc)]
      rfl

/-- `poll` returns an entry that is set and resets it alone; and called until nothing is set,
    it returns what was set, each once, which is what `poll'` returns in another order. -/
structure Refines (idle : α) (out : ℕ → α → ρ) (count : ℕ)
    (poll poll' : (ℕ → α) → ℕ → Option (ρ × (ℕ → α))) (a : ℕ → α) : Prop where
  one : (∃ i < count, a i ≠ idle) → ∃ i < count, a i ≠ idle ∧
    ∀ fuel > count, poll a fuel = some (out i (a i), Function.update a i idle)
  all : ∃ l l', l.Perm l' ∧ l.Nodup ∧
    (∀ r, r ∈ l ↔ ∃ i < count, a i ≠ idle ∧ out i (a i) = r) ∧
    ∀ fuel > count, ∀ calls ≥ count, Scan.drain idle count (poll · fuel) calls a = some l ∧
      Scan.drain idle count (poll' · fuel) calls a = some l'

/-- **Any two pollers return the same**, up to the order. -/
theorem Polls.refines (h : Polls idle out count poll) (h' : Polls idle out count poll')
    (hout : ∀ i j x y, out i x = out j y → i = j) (a : ℕ → α) :
    Refines idle out count poll poll' a where
  one := h a
  all := by
    obtain ⟨l, hl, hdrain⟩ := h.drain a
    obtain ⟨l', hl', hdrain'⟩ := h'.drain a
    refine ⟨l, l', hl.trans hl'.symm, hl.nodup_iff.2 (nodup_entries hout), fun r => ?_, ?_⟩
    · rw [hl.mem_iff, mem_entries]
    · intro fuel hf calls hc
      exact ⟨hdrain fuel hf calls hc, hdrain' fuel hf calls hc⟩

end

end Scan
