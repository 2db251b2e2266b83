/-
  Calls that take one of several pending items.

  A call that offers too little room for the item it selects throws; else it
  returns the item.  `Taking` says what a component's calls can do, in terms of
  the state before and after a call.

  `Atomic`: after a call that throws, the next call with enough room returns the
  item, and nothing that was pending is lost.  Calls that throw are atomic where
  they change nothing (`atomic_of_unchanged`); where they consume what they
  select, only calls that do not throw are (`atomic_iff_fits`).
-/
import Mathlib.Data.Nat.Notation
import Mathlib.Tactic.ByContra

/-- States `σ`, sources `ι` of items `β`, sizes `ρ`. -/
structure Taking (σ ι β ρ : Type) where
  throws : σ → ρ → ι → σ → Prop
  returns : σ → ρ → ι → β → Prop
  item : σ → ι → β
  size : σ → ι → ρ
  /-- how many items of a source are pending -/
  pending : σ → ι → ℕ

namespace Taking
variable {σ ι β ρ : Type} [LE ρ] (t : Taking σ ι β ρ)

def Atomic (s : σ) (room : ρ) : Prop :=
  ∀ c s', t.throws s room c s' →
    (∀ room', t.size s c ≤ room' → t.returns s' room' c (t.item s c)) ∧
      ∀ d, t.pending s d ≤ t.pending s' d

/-- The calls in state `s` select what `sel` says, and throw if it does not fit. -/
structure Selects (s : σ) (sel : ι → Prop) : Prop where
  selected : ∀ {room c s'}, t.throws s room c s' → sel c ∧ ¬ t.size s c ≤ room
  throws : ∀ {room c}, sel c → ¬ t.size s c ≤ room → ∃ s', t.throws s room c s'
  returns : ∀ {room c}, sel c → t.size s c ≤ room → t.returns s room c (t.item s c)

variable {t} {s : σ} {room : ρ} {sel : ι → Prop}

theorem Selects.atomic_of_unchanged (h : t.Selects s sel)
    (hsame : ∀ c s', t.throws s room c s' → s' = s) : t.Atomic s room := by
  intro c s' ht
  obtain rfl := hsame c s' ht
  exact ⟨fun room' hroom => h.returns (h.selected ht).1 hroom, fun d => Nat.le_refl _⟩

theorem Selects.atomic_iff_fits (h : t.Selects s sel)
    (hless : ∀ c s', t.throws s room c s' → t.pending s' c < t.pending s c) :
    t.Atomic s room ↔ ∀ c, sel c → t.size s c ≤ room := by
  constructor
  · intro ha c hc
    by_contra hfit
    obtain ⟨s', ht⟩ := h.throws hc hfit
    exact Nat.not_lt.2 ((ha c s' ht).2 c) (hless c s' ht)
  · intro hfit c s' ht
    obtain ⟨hc, hnot⟩ := h.selected ht
    exact absurd (hfit c hc) hnot

end Taking
