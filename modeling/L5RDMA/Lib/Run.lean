/-
  Runs of a step function.

  A system is a function `step : σ → α → Option σ`: in state `s` the action
  `a` (whose turn it is, and the data it chooses) leads to `step s a`, or is
  not enabled.  A list of actions is a schedule; the run follows it up to its
  first disabled action.

  * `AllStates step P s as`: `P` holds in every state of the run;
  * `Along step C s as`: every action taken in the run meets `C` in the state
    it is taken in.

  The rules: an invariant kept by every step (`allStates_of_inv`), kept by
  the steps that meet `C` (`allStates_of_along`), and lost at exactly the steps
  that do not (`allStates_iff_along`).

  * `Within step a P k s`: `P` holds after at most `k` times the action `a`;
  * `Erases step own Failed s as bs`: of the actions `as`, `bs` leaves out those
    of one party in some of its failed calls.
-/
import Mathlib.Data.List.Basic

namespace Run

variable {σ α : Type}

/-- The state after the actions `as`, if all of them are enabled. -/
def run (step : σ → α → Option σ) : σ → List α → Option σ
  | s, [] => some s
  | s, a :: as =>
    match step s a with
    | some s' => run step s' as
    | none => none

/-- `P` holds in every state of the run. -/
def AllStates (step : σ → α → Option σ) (P : σ → Prop) : σ → List α → Prop
  | s, [] => P s
  | s, a :: as => P s ∧
    match step s a with
    | some s' => AllStates step P s' as
    | none => True

/-- Every action taken in the run meets `C`. -/
def Along (step : σ → α → Option σ) (C : σ → α → Prop) : σ → List α → Prop
  | _, [] => True
  | s, a :: as =>
    match step s a with
    | some s' => C s a ∧ Along step C s' as
    | none => True

/-- `P` holds after at most `k` times the action `a`. -/
def Within (step : σ → α → Option σ) (a : α) (P : σ → Prop) : ℕ → σ → Prop
  | 0, s => P s
  | k + 1, s => P s ∨ ∃ s', step s a = some s' ∧ Within step a P k s'

/-- Some of the stretches of `as` are calls that fail, and of these, `bs` has only the actions
    that are not `own`. -/
inductive Erases (step : σ → α → Option σ) (own : α → Bool) (Failed : σ → List α → σ → Prop) :
    σ → List α → List α → Prop
  | same (s : σ) (as : List α) : Erases step own Failed s as as
  | keep {s s' : σ} {a : α} {as bs : List α} (hs : step s a = some s')
      (h : Erases step own Failed s' as bs) : Erases step own Failed s (a :: as) (a :: bs)
  | failed {s s' : σ} {call as bs : List α} (hc : Failed s call s')
      (h : Erases step own Failed s' as bs) :
      Erases step own Failed s (call ++ as) ((call.filter fun a => !own a) ++ bs)

instance Along.decidable (step : σ → α → Option σ) (C : σ → α → Prop)
    [∀ s a, Decidable (C s a)] : ∀ s as, Decidable (Along step C s as)
  | _, [] => isTrue trivial
  | s, a :: as =>
    show Decidable (match step s a with
      | some s' => C s a ∧ Along step C s' as
      | none => True) from
    match step s a with
    | some s' => @instDecidableAnd _ _ _ (Along.decidable step C s' as)
    | none => isTrue trivial

section
variable {step : σ → α → Option σ} {P : σ → Prop} {C : σ → α → Prop} {I : σ → Prop}

theorem AllStates.head {s : σ} {as : List α} (h : AllStates step P s as) : P s := by
  cases as with
  | nil => exact h
  | cons a as => exact h.1

/-- A complete run takes its first step, and then the others. -/
theorem step_of_run_cons {s s' : σ} {a : α} {as : List α} (h : run step s (a :: as) = some s') :
    ∃ s₁, step s a = some s₁ ∧ run step s₁ as = some s' := by
  rw [run] at h
  cases hs : step s a with
  | none => rw [hs] at h; cases h
  | some s₁ => rw [hs] at h; exact ⟨s₁, rfl, h⟩

/-- The last state of a complete run is one of its states. -/
theorem AllStates.last {s s' : σ} {as : List α} (h : AllStates step P s as)
    (hr : run step s as = some s') : P s' := by
  induction as generalizing s with
  | nil => cases hr; exact h
  | cons a as ih =>
    obtain ⟨s₁, hs, hrun⟩ := step_of_run_cons hr
    have h' := h.2
    rw [hs] at h'
    exact ih h' hrun

theorem run_cons {s s' : σ} {a : α} (h : step s a = some s') (as : List α) :
    run step s (a :: as) = run step s' as := by
  rw [run, h]

theorem run_append {s s' : σ} {as : List α} (h : run step s as = some s') (bs : List α) :
    run step s (as ++ bs) = run step s' bs := by
  induction as generalizing s with
  | nil => cases h; rfl
  | cons a as ih =>
    rw [run] at h
    cases hs : step s a with
    | none => rw [hs] at h; cases h
    | some s₁ => rw [hs] at h; rw [List.cons_append, run_cons hs, ih h]

theorem exists_of_run_append {s s' : σ} {as bs : List α} (h : run step s (as ++ bs) = some s') :
    ∃ s₁, run step s as = some s₁ ∧ run step s₁ bs = some s' := by
  induction as generalizing s with
  | nil => exact ⟨s, rfl, h⟩
  | cons a as ih =>
    rw [List.cons_append, run] at h
    cases hs : step s a with
    | none => rw [hs] at h; cases h
    | some s₁ =>
      rw [hs] at h
      rw [run_cons hs]
      exact ih h

/-- A part of the state that runs on its own. -/
theorem run_map {τ β : Type} {part : τ → β → Option τ} (put : τ → σ) (act : β → α)
    (hput : ∀ t b t', part t b = some t' → step (put t) (act b) = some (put t')) {bs : List β}
    {t t' : τ} (hr : run part t bs = some t') : run step (put t) (bs.map act) = some (put t') := by
  induction bs generalizing t with
  | nil => cases hr; rfl
  | cons b bs ih =>
    rw [List.map_cons, run] at *
    cases hs : part t b with
    | none => rw [hs] at hr; cases hr
    | some t₁ =>
      rw [hs] at hr
      rw [hput t b t₁ hs]
      exact ih hr

/-- A part of the state that runs on its own, each of its steps being the same action. -/
theorem run_lift {τ β : Type} {part : τ → β → Option τ} (put : τ → σ) {a : α} {b : β}
    (hput : ∀ t t', part t b = some t' → step (put t) a = some (put t')) {n : ℕ} {t t' : τ}
    (hr : run part t (List.replicate n b) = some t') :
    run step (put t) (List.replicate n a) = some (put t') := by
  induction n generalizing t with
  | zero => cases hr; rfl
  | succ n ih =>
    rw [List.replicate_succ, run] at hr ⊢
    cases hs : part t b with
    | none => rw [hs] at hr; cases hr
    | some t₁ =>
      rw [hs] at hr
      rw [hput t t₁ hs]
      exact ih hr

theorem Along.imp {C' : σ → α → Prop} (hC : ∀ s a, C s a → C' s a) {s : σ} {as : List α}
    (h : Along step C s as) : Along step C' s as := by
  induction as generalizing s with
  | nil => trivial
  | cons a as ih =>
    rw [Along] at h ⊢
    cases hs : step s a with
    | none => trivial
    | some s' => rw [hs] at h; exact ⟨hC s a h.1, ih h.2⟩

theorem Along.append {s : σ} {as bs : List α} (h : Along step C s as)
    (h' : ∀ s', run step s as = some s' → Along step C s' bs) : Along step C s (as ++ bs) := by
  induction as generalizing s with
  | nil => exact h' s rfl
  | cons a as ih =>
    rw [Along] at h
    rw [List.cons_append, Along]
    cases hs : step s a with
    | none => trivial
    | some s₁ =>
      rw [hs] at h
      exact ⟨h.1, ih h.2 fun s' hr => h' s' (by rw [run_cons hs, hr])⟩

theorem Within.succ {a : α} {k : ℕ} {s : σ} (h : Within step a P k s) :
    Within step a P (k + 1) s := by
  induction k generalizing s with
  | zero => exact Or.inl h
  | succ k ih =>
    rcases h with h | ⟨s', hs, h⟩
    · exact Or.inl h
    · exact Or.inr ⟨s', hs, ih h⟩

theorem Within.after {a : α} {k : ℕ} {s s' : σ} (h : Within step a P k s')
    (hs : step s a = some s') : Within step a P (k + 1) s :=
  Or.inr ⟨s', hs, h⟩

theorem Along.left {s : σ} {as bs : List α} (h : Along step C s (as ++ bs)) :
    Along step C s as := by
  induction as generalizing s with
  | nil => trivial
  | cons a as ih =>
    rw [List.cons_append, Along] at h
    rw [Along]
    cases hs : step s a with
    | none => trivial
    | some s₁ => rw [hs] at h; exact ⟨h.1, ih h.2⟩

theorem Along.right {s s' : σ} {as bs : List α} (h : Along step C s (as ++ bs))
    (hr : run step s as = some s') : Along step C s' bs := by
  induction as generalizing s with
  | nil => cases hr; exact h
  | cons a as ih =>
    rw [List.cons_append, Along] at h
    rw [run] at hr
    cases hs : step s a with
    | none => rw [hs] at hr; cases hr
    | some s₁ => rw [hs] at h hr; exact ih h.2 hr

/-- A condition on actions alone. -/
theorem along_of_forall {s : σ} {as : List α} (h : ∀ a ∈ as, ∀ s, C s a) : Along step C s as := by
  induction as generalizing s with
  | nil => trivial
  | cons a as ih =>
    rw [Along]
    cases step s a with
    | none => trivial
    | some s' => exact ⟨h a (by simp) s, ih fun b hb => h b (by simp [hb])⟩

/-- **An invariant of the steps that meet `C`** holds in every state of a run whose
    steps all meet it. -/
theorem allStates_of_along (hP : ∀ s, I s → P s)
    (hstep : ∀ s a s', I s → C s a → step s a = some s' → I s')
    {s : σ} {as : List α} (h₀ : I s) (h : Along step C s as) : AllStates step P s as := by
  induction as generalizing s with
  | nil => exact hP s h₀
  | cons a as ih =>
    refine ⟨hP s h₀, ?_⟩
    rw [Along] at h
    cases hs : step s a with
    | none => trivial
    | some s' => rw [hs] at h; exact ih (hstep s a s' h₀ h.1 hs) h.2

/-- What holds wherever a run leads. -/
theorem allStates_of_run {s : σ} (h : ∀ as s', run step s as = some s' → P s') (as : List α) :
    AllStates step P s as := by
  induction as generalizing s with
  | nil => exact h [] s rfl
  | cons a as ih =>
    refine ⟨h [] s rfl, ?_⟩
    cases hs : step s a with
    | none => trivial
    | some s₁ => exact ih fun bs s' hr => h (a :: bs) s' (by rw [run_cons hs, hr])

/-- An invariant that makes every step meet `C`. -/
theorem along_of_inv {D : α → Prop} (hC : ∀ s a, I s → D a → C s a)
    (hstep : ∀ s a s', I s → D a → step s a = some s' → I s') {s : σ} {as : List α} (h : I s)
    (hD : ∀ a ∈ as, D a) : Along step C s as := by
  induction as generalizing s with
  | nil => trivial
  | cons a as ih =>
    rw [Along]
    cases hs : step s a with
    | none => trivial
    | some s' =>
      have ha := hD a (by simp)
      exact ⟨hC s a h ha, ih (hstep s a s' h ha hs) fun b hb => hD b (List.mem_cons_of_mem _ hb)⟩

theorem allStates_of_inv (hP : ∀ s, I s → P s)
    (hstep : ∀ s a s', I s → step s a = some s' → I s')
    {s : σ} (as : List α) (h₀ : I s) : AllStates step P s as :=
  allStates_of_along (C := fun _ _ => True) hP (fun s a s' hi _ => hstep s a s' hi) h₀
    (along_of_forall fun _ _ _ => trivial)

/-- An invariant holds in the last state of a run. -/
theorem inv_of_run {D : α → Prop} (hI : ∀ s a s', I s → D a → step s a = some s' → I s') {s s' : σ}
    {as : List α} (h : I s) (hD : ∀ a ∈ as, D a) (hr : run step s as = some s') : I s' :=
  (allStates_of_along (C := fun _ a => D a) (fun _ h => h) hI h
    (along_of_forall fun a ha _ => hD a ha)).last hr

/-- The actions of a party that change nothing but what `hide` hides can be left out. -/
theorem run_filter {own : α → Bool} (hide : σ → σ)
    (hown : ∀ s a s', C s a → own a = true → step s a = some s' → hide s' = hide s)
    (hother : ∀ s a s', C s a → own a = false → step s a = some s' →
      step (hide s) a = some (hide s')) {s s' : σ} {as : List α} (hC : Along step C s as)
    (hr : run step s as = some s') :
    run step (hide s) (as.filter fun a => !own a) = some (hide s') := by
  induction as generalizing s with
  | nil => cases hr; rfl
  | cons a as ih =>
    rw [Along] at hC
    rw [run] at hr
    cases hs : step s a with
    | none => rw [hs] at hr; cases hr
    | some s₁ =>
      rw [hs] at hC hr
      cases ha : own a with
      | true =>
        rw [List.filter_cons_of_neg (by simp [ha]), ← hown s a s₁ hC.1 ha hs]
        exact ih hC.2 hr
      | false =>
        rw [List.filter_cons_of_pos (by simp [ha]), run_cons (hother s a s₁ hC.1 ha hs)]
        exact ih hC.2 hr

/-- **Failed calls leave no trace** in a run if each of them on its own leaves none. -/
theorem Erases.run_eq {own : α → Bool} {Failed : σ → List α → σ → Prop} {D : α → Prop}
    (hI : ∀ s a s', I s → D a → step s a = some s' → I s')
    (hfailed : ∀ s call s', I s → (∀ a ∈ call, D a) → Failed s call s' →
      run step s call = some s' ∧ run step s (call.filter fun a => !own a) = some s')
    {s : σ} {as bs : List α} (h : Erases step own Failed s as bs) (hs : I s)
    (hD : ∀ a ∈ as, D a) : run step s bs = run step s as := by
  induction h with
  | same s as => rfl
  | keep hstep _ ih =>
    rw [run_cons hstep, run_cons hstep]
    exact ih (hI _ _ _ hs (hD _ (by simp)) hstep) fun a ha => hD a (by simp [ha])
  | failed hc _ ih =>
    have hDc := fun a ha => hD a (List.mem_append_left _ ha)
    obtain ⟨hcall, hothers⟩ := hfailed _ _ _ hs hDc hc
    rw [run_append hcall, run_append hothers]
    exact ih (inv_of_run hI hs hDc hcall) fun a ha => hD a (List.mem_append_right _ ha)

/-- **A condition is exact** if the steps that meet it keep the invariant and the
    others lead to a state without `P`.  All of it may be under a condition `D`. -/
theorem allStates_iff_along_of_along {D : σ → α → Prop} (hP : ∀ s, I s → P s)
    (hstep : ∀ s a s', I s → D s a → C s a → step s a = some s' → I s')
    (hbad : ∀ s a s', I s → D s a → ¬ C s a → step s a = some s' → ¬ P s')
    {s : σ} {as : List α} (h₀ : I s) (hD : Along step D s as) :
    AllStates step P s as ↔ Along step C s as := by
  induction as generalizing s with
  | nil => exact iff_of_true (hP s h₀) trivial
  | cons a as ih =>
    rw [AllStates, Along]
    rw [Along] at hD
    cases hs : step s a with
    | none => exact iff_of_true ⟨hP s h₀, trivial⟩ trivial
    | some s' =>
      rw [hs] at hD
      obtain ⟨hDa, hD⟩ := hD
      by_cases hC : C s a
      · have hi := hstep s a s' h₀ hDa hC hs
        exact ⟨fun h => ⟨hC, (ih hi hD).1 h.2⟩, fun h => ⟨hP s h₀, (ih hi hD).2 h.2⟩⟩
      · exact iff_of_false (fun h => hbad s a s' h₀ hDa hC hs h.2.head) fun h => hC h.1

theorem allStates_iff_along (hP : ∀ s, I s → P s)
    (hstep : ∀ s a s', I s → C s a → step s a = some s' → I s')
    (hbad : ∀ s a s', I s → ¬ C s a → step s a = some s' → ¬ P s')
    {s : σ} (as : List α) (h₀ : I s) : AllStates step P s as ↔ Along step C s as :=
  allStates_iff_along_of_along (D := fun _ _ => True) hP (fun s a s' hi _ => hstep s a s' hi)
    (fun s a s' hi _ => hbad s a s' hi) h₀ (along_of_forall fun _ _ _ => trivial)

end

end Run
