/-
  File descriptors and who closes them.

  The kernel gives out the numbers that are free, so a number can stand for one
  descriptor after another; each descriptor has a serial number that tells it
  from those.  A holder `i` holds what it was given, `hold i`: a number with
  the serial of its descriptor at that time.

  * `Close`: a call of `close`, meant for the descriptor that was held;
  * `Sound`: every holder holds an open descriptor, its own and nobody else's.
    It is kept when a number is given out (`Sound.open_`), when a descriptor
    that nobody holds is taken (`Sound.take`), when holders exchange what they
    hold (`Sound.comp`), and when a holder closes its descriptor (`Sound.close`).
-/
import Mathlib.Logic.Equiv.Basic
import Mathlib.Logic.Function.Basic
import Mathlib.Data.Nat.Notation

namespace Descriptors

/-- The descriptor table of a process. -/
structure Table where
  /-- the serial number of the descriptor that is open under a number -/
  serial : ℕ → Option ℕ
  next : ℕ

/-- The kernel gives out the number `n`. -/
def Table.open_ (t : Table) (n : ℕ) : Table :=
  ⟨Function.update t.serial n (some t.next), t.next + 1⟩

def Table.close (t : Table) (n : ℕ) : Table :=
  { t with serial := Function.update t.serial n none }

structure Holding where
  number : ℕ
  serial : Option ℕ

/-- A call of `close`: what it was meant for, and what was open under the number. -/
structure Close where
  held : Holding
  closed : Option ℕ

/-- The number was neither closed before nor given out again. -/
def Close.Right (c : Close) : Prop := c.closed ≠ none ∧ c.closed = c.held.serial

section
variable {ι : Type} {t : Table} {hold : ι → Option Holding}

structure Sound (t : Table) (hold : ι → Option Holding) : Prop where
  own : ∀ i h, hold i = some h → t.serial h.number ≠ none ∧ t.serial h.number = h.serial
  unique : ∀ i j h h', hold i = some h → hold j = some h' → h.number = h'.number → i = j

theorem sound_none : Sound t fun _ : ι => none where
  own := fun _ _ h => by cases h
  unique := fun _ _ _ _ h => by cases h

/-- A call of `close` by a holder does what it is meant for. -/
theorem Sound.right (hs : Sound t hold) {i : ι} {h : Holding} (hi : hold i = some h) :
    Close.Right ⟨h, t.serial h.number⟩ :=
  hs.own i h hi

theorem Sound.open_ (hs : Sound t hold) {n : ℕ} (hn : t.serial n = none) :
    Sound (t.open_ n) hold where
  own := by
    intro i h hi
    obtain ⟨hopen, hown⟩ := hs.own i h hi
    have hne : h.number ≠ n := by
      rintro rfl
      exact hopen hn
    simp only [Table.open_, Function.update_of_ne hne]
    exact ⟨hopen, hown⟩
  unique := hs.unique

theorem Sound.comp (hs : Sound t hold) (e : ι ≃ ι) : Sound t (hold ∘ e) where
  own := fun i => hs.own (e i)
  unique := fun i j h h' hi hj he => e.injective (hs.unique (e i) (e j) h h' hi hj he)

variable [DecidableEq ι]

theorem Sound.take (hs : Sound t hold) (i : ι) {n : ℕ} (hopen : t.serial n ≠ none)
    (hfree : ∀ j h, hold j = some h → h.number ≠ n) :
    Sound t (Function.update hold i (some ⟨n, t.serial n⟩)) where
  own := by
    intro j h hj
    by_cases hji : j = i
    · rw [hji, Function.update_self] at hj
      cases hj
      exact ⟨hopen, rfl⟩
    · rw [Function.update_of_ne hji] at hj
      exact hs.own j h hj
  unique := by
    intro j k h h' hj hk he
    by_cases hji : j = i <;> by_cases hki : k = i
    · rw [hji, hki]
    · rw [hji, Function.update_self] at hj
      rw [Function.update_of_ne hki] at hk
      cases hj
      exact absurd he.symm (hfree k h' hk)
    · rw [hki, Function.update_self] at hk
      rw [Function.update_of_ne hji] at hj
      cases hk
      exact absurd he (hfree j h hj)
    · rw [Function.update_of_ne hji] at hj
      rw [Function.update_of_ne hki] at hk
      exact hs.unique j k h h' hj hk he

theorem Sound.close (hs : Sound t hold) {i : ι} {h : Holding} (hi : hold i = some h) :
    Sound (t.close h.number) (Function.update hold i none) where
  own := by
    intro j h' hj
    have hji : j ≠ i := by
      rintro rfl
      rw [Function.update_self] at hj
      cases hj
    rw [Function.update_of_ne hji] at hj
    have hne : h'.number ≠ h.number := fun he => hji (hs.unique j i h' h hj hi he)
    simp only [Table.close, Function.update_of_ne hne]
    exact hs.own j h' hj
  unique := by
    intro j k h' h'' hj hk he
    have hne : ∀ l h₀, Function.update hold i none l = some h₀ → hold l = some h₀ := by
      intro l h₀ hl
      by_cases hli : l = i
      · rw [hli, Function.update_self] at hl
        cases hl
      · rwa [Function.update_of_ne hli] at hl
    exact hs.unique j k h' h'' (hne j h' hj) (hne k h'' hk) he

end

end Descriptors
