/-
  Actions that commute.

  Where each action is the step of one of several parties, and what a party does
  leaves the others' steps as they are, the order of the steps does not matter.

  * `Commutes step`: two actions that are both enabled lead to the same state in
    either order;
  * `Final step s`: no action is enabled;
  * `Commutes.completes`: if one run ends in a final state, every run can be
    completed to a run that ends there and takes the same actions in some order.
-/
import L5RDMA.Lib.Run

namespace Run

variable {σ α : Type}

def Commutes (step : σ → α → Option σ) : Prop :=
  ∀ s a b sa sb, a ≠ b → step s a = some sa → step s b = some sb →
    ∃ t, step sa b = some t ∧ step sb a = some t

def Final (step : σ → α → Option σ) (s : σ) : Prop := ∀ a, step s a = none

section
variable {step : σ → α → Option σ}

theorem Final.run_eq {s s' : σ} {as : List α} (h : Final step s) (hr : run step s as = some s') :
    as = [] ∧ s' = s := by
  cases as with
  | nil => cases hr; exact ⟨rfl, rfl⟩
  | cons a as => rw [run, h a] at hr; cases hr

variable [DecidableEq α]

/-- An action that is enabled stays so until it is taken, and may as well be taken first. -/
theorem Commutes.first (hc : Commutes step) {s s₁ t : σ} {a : α} {bs : List α}
    (hs : step s a = some s₁) (hr : run step s bs = some t) :
    a ∈ bs ∧ run step s₁ (bs.erase a) = some t ∨
      ∃ t₁, run step s₁ bs = some t₁ ∧ step t a = some t₁ := by
  induction bs generalizing s s₁ with
  | nil => cases hr; exact Or.inr ⟨s₁, rfl, hs⟩
  | cons b bs ih =>
    rw [run] at hr
    cases hb : step s b with
    | none => rw [hb] at hr; cases hr
    | some s₂ =>
      rw [hb] at hr
      by_cases hab : a = b
      · subst hab
        obtain rfl : s₁ = s₂ := Option.some.inj (hs.symm.trans hb)
        exact Or.inl ⟨by simp, by rw [List.erase_cons_head]; exact hr⟩
      · obtain ⟨u, hu₁, hu₂⟩ := hc s a b s₁ s₂ hab hs hb
        rcases ih hu₂ hr with ⟨hmem, hrun⟩ | ⟨t₁, hrun, ht⟩
        · refine Or.inl ⟨List.mem_cons_of_mem _ hmem, ?_⟩
          rw [List.erase_cons_tail (by simpa using Ne.symm hab), run_cons hu₁]
          exact hrun
        · exact Or.inr ⟨t₁, by rw [run_cons hu₁]; exact hrun, ht⟩

/-- **Every run can be completed** if one run ends, and ends where that one does. -/
theorem Commutes.completes (hc : Commutes step) {s f t : σ} {as bs : List α}
    (hf : run step s as = some f) (hfinal : Final step f) (hr : run step s bs = some t) :
    ∃ cs, run step t cs = some f ∧ (bs ++ cs).Perm as := by
  induction as generalizing s t bs with
  | nil =>
    cases hf
    obtain ⟨rfl, rfl⟩ := hfinal.run_eq hr
    exact ⟨[], rfl, .refl _⟩
  | cons a as ih =>
    rw [run] at hf
    cases hs : step s a with
    | none => rw [hs] at hf; cases hf
    | some s₁ =>
      rw [hs] at hf
      rcases hc.first hs hr with ⟨hmem, hrun⟩ | ⟨t₁, hrun, ht⟩
      · obtain ⟨cs, hcs, hperm⟩ := ih hf hrun
        refine ⟨cs, hcs, ?_⟩
        calc bs ++ cs
            _ |>.Perm (a :: bs.erase a ++ cs) := (List.perm_cons_erase hmem).append_right cs
            _ |>.Perm (a :: as) := hperm.cons a
      · obtain ⟨cs, hcs, hperm⟩ := ih hf hrun
        refine ⟨a :: cs, by rw [run_cons ht]; exact hcs, ?_⟩
        exact List.perm_middle.trans (hperm.cons a)

/-- No run is longer than one that ends. -/
theorem Commutes.length_le (hc : Commutes step) {s f t : σ} {as bs : List α}
    (hf : run step s as = some f) (hfinal : Final step f) (hr : run step s bs = some t) :
    bs.length ≤ as.length := by
  obtain ⟨cs, -, hperm⟩ := hc.completes hf hfinal hr
  have hlen := hperm.length_eq
  rw [List.length_append] at hlen
  omega

end

end Run
