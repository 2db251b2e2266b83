/-
  Runs that end.

  * `Inevitable step Ok Done P s`: whatever sequence of actions `Ok` the
    environment takes, as long as the run is not `Done`, it leads to `P`;
  * `inevitable_of_measure`: so it is if each action lowers a measure, and what
    is done has `P`;
  * `not_inevitable`: not so if an invariant without `P` can always go on;
  * `length_add_le`: a run is no longer than the measure it lowers;
  * `exists_run_done`: if it can go on as long as it is not `Done`, it gets there.
-/
import L5RDMA.Lib.Run
import Mathlib.Order.Nat

namespace Run

variable {σ α : Type} {step : σ → α → Option σ}

/-- The first `n` actions of a sequence. -/
def firstOf (f : ℕ → α) (n : ℕ) : List α := (List.range n).map f

def Inevitable (step : σ → α → Option σ) (Ok : α → Prop) (Done P : σ → Prop) (s : σ) : Prop :=
  ∀ f : ℕ → α, (∀ n, Ok (f n)) →
    (∀ n s', run step s (firstOf f n) = some s' → Done s' ∨ (step s' (f n)).isSome = true) →
    ∃ n s', run step s (firstOf f n) = some s' ∧ P s'

theorem firstOf_succ (f : ℕ → α) (n : ℕ) : firstOf f (n + 1) = firstOf f n ++ [f n] := by
  rw [firstOf, firstOf, List.range_succ, List.map_append]; rfl

theorem firstOf_cons (f : ℕ → α) (n : ℕ) :
    firstOf f (n + 1) = f 0 :: firstOf (fun i => f (i + 1)) n := by
  rw [firstOf, firstOf, List.range_succ_eq_map, List.map_cons, List.map_map]; rfl

/-- **A measure that every action lowers** leads to the end. -/
theorem inevitable_of_measure {Ok : α → Prop} {Done P I : σ → Prop} (μ : σ → ℕ)
    (hstep : ∀ s a s', I s → Ok a → step s a = some s' → I s' ∧ μ s' < μ s)
    (hdone : ∀ s, I s → Done s → P s) {s : σ} (h : I s) : Inevitable step Ok Done P s := by
  induction hμ : μ s using Nat.strong_induction_on generalizing s with
  | _ m ih =>
    subst hμ
    intro f hok hgo
    rcases hgo 0 s rfl with hd | hs
    · exact ⟨0, s, rfl, hdone s h hd⟩
    · obtain ⟨s₁, hs⟩ := Option.isSome_iff_exists.1 hs
      obtain ⟨hi, hlt⟩ := hstep s (f 0) s₁ h (hok 0) hs
      -- the rest of the sequence, from the next state on
      have hrun : ∀ n, run step s (firstOf f (n + 1)) =
          run step s₁ (firstOf (fun i => f (i + 1)) n) := by
        intro n
        rw [firstOf_cons, run_cons hs]
      obtain ⟨n, s', hr, hp⟩ := ih (μ s₁) hlt hi rfl (fun i => f (i + 1)) (fun n => hok (n + 1))
        fun n s' hr => hgo (n + 1) s' ((hrun n).trans hr)
      exact ⟨n + 1, s', (hrun n).trans hr, hp⟩

/-- **An invariant that can always go on** never leads to what it excludes. -/
theorem not_inevitable {Ok : α → Prop} {Done P J : σ → Prop} (hP : ∀ s, J s → ¬ P s)
    (hgo : ∀ s, J s → ∃ a s', Ok a ∧ step s a = some s' ∧ J s') {s : σ} (h : J s) :
    ¬ Inevitable step Ok Done P s := by
  choose act next hok hstep hnext using hgo
  -- the states of the run that goes on
  let at_ : ℕ → {s // J s} := Nat.rec ⟨s, h⟩ fun _ t => ⟨next t.1 t.2, hnext t.1 t.2⟩
  let f : ℕ → α := fun n => act (at_ n).1 (at_ n).2
  have hrun : ∀ n, run step s (firstOf f n) = some (at_ n).1 := by
    intro n
    induction n with
    | zero => rfl
    | succ n ih =>
      rw [firstOf_succ, run_append ih, run_cons (hstep (at_ n).1 (at_ n).2)]
      rfl
  intro hin
  obtain ⟨n, s', hr, hp⟩ := hin f (fun n => hok _ _) fun n s' hr => by
    obtain rfl : (at_ n).1 = s' := Option.some.inj ((hrun n).symm.trans hr)
    exact Or.inr (by rw [hstep (at_ n).1 (at_ n).2]; rfl)
  obtain rfl : (at_ n).1 = s' := Option.some.inj ((hrun n).symm.trans hr)
  exact hP _ (at_ n).2 hp

/-- A run is no longer than what it takes off a measure. -/
theorem length_add_le {Ok : α → Prop} {I : σ → Prop} (μ : σ → ℕ)
    (hstep : ∀ s a s', I s → Ok a → step s a = some s' → I s' ∧ μ s' < μ s) {s s' : σ}
    {as : List α} (h : I s) (hok : ∀ a ∈ as, Ok a) (hr : run step s as = some s') :
    as.length + μ s' ≤ μ s := by
  induction as generalizing s with
  | nil => cases hr; exact (Nat.zero_add _).le
  | cons a as ih =>
    rw [run] at hr
    cases hs : step s a with
    | none => rw [hs] at hr; cases hr
    | some s₁ =>
      rw [hs] at hr
      obtain ⟨hi, hlt⟩ := hstep s a s₁ h (hok a (by simp)) hs
      have := ih hi (fun b hb => hok b (by simp [hb])) hr
      rw [List.length_cons]
      omega

/-- **A run that can always go on** ends where it is to. -/
theorem exists_run_done {Done I : σ → Prop} (μ : σ → ℕ)
    (hstep : ∀ s a s', I s → step s a = some s' → I s' ∧ μ s' < μ s)
    (hgo : ∀ s, I s → Done s ∨ ∃ a s', step s a = some s') {s : σ} (h : I s) :
    ∃ as s', run step s as = some s' ∧ I s' ∧ Done s' := by
  induction hμ : μ s using Nat.strong_induction_on generalizing s with
  | _ m ih =>
    subst hμ
    rcases hgo s h with hd | ⟨a, s₁, hs⟩
    · exact ⟨[], s, rfl, h, hd⟩
    · obtain ⟨hi, hlt⟩ := hstep s a s₁ h hs
      obtain ⟨as, s', hr, hd⟩ := ih (μ s₁) hlt hi rfl
      exact ⟨a :: as, s', by rw [run_cons hs, hr], hd⟩

end Run
