/-
  Programs of calls that may throw and changes of a state.

  An exception ends the program and leaves what was changed until then.

  `AllOrNothing`: a program that throws leaves the state as it was.  So it is if
  all changes come after the calls (`allOrNothing_of_callsFirst`); where a
  change that is not taken back comes earlier, it is so iff a call before that
  change throws, or none at all (`allOrNothing_iff`).

  Objects have methods that are such programs, and any call may throw at any time
  (`Ends`).  What a method keeps holds in every state between two methods
  (`Reachable.inv`), and all calls that a method ever makes are of some kind iff
  all calls in its program are (`makes_iff`).
-/
import Mathlib.Data.List.Basic

namespace Fallible

variable {σ κ : Type}

inductive Op (σ κ : Type) where
  | call (c : κ)
  | change (f : σ → σ)

/-- The state in which a program ends, and the call that has thrown. -/
def exec (fails : κ → Bool) : List (Op σ κ) → σ → σ × Option κ
  | [], s => (s, none)
  | .call c :: ops, s => if fails c then (s, some c) else exec fails ops s
  | .change f :: ops, s => exec fails ops (f s)

/-- From one state to another, a program makes the calls `cs`; the last may have thrown. -/
inductive Ends : List (Op σ κ) → σ → List κ → σ → Prop
  | nil (s : σ) : Ends [] s [] s
  | throws (c : κ) (ops : List (Op σ κ)) (s : σ) : Ends (.call c :: ops) s [c] s
  | call {c : κ} {ops : List (Op σ κ)} {s s' : σ} {cs : List κ} (h : Ends ops s cs s') :
      Ends (.call c :: ops) s (c :: cs) s'
  | change {f : σ → σ} {ops : List (Op σ κ)} {s s' : σ} {cs : List κ} (h : Ends ops (f s) cs s') :
      Ends (.change f :: ops) s cs s'

/-- The states between two methods.  A method without a program has no meaning there. -/
inductive Reachable {α : Type} (start : σ → Prop) (method : σ → α → Option (List (Op σ κ))) :
    σ → Prop
  | start {s : σ} (h : start s) : Reachable start method s
  | method {s s' : σ} {a : α} {ops : List (Op σ κ)} {cs : List κ}
      (hs : Reachable start method s) (hm : method s a = some ops) (he : Ends ops s cs s') :
      Reachable start method s'

/-- However the method ends, all its calls meet `P`. -/
def Makes {α : Type} (method : σ → α → Option (List (Op σ κ))) (P : κ → Prop) (s : σ) (a : α) :
    Prop :=
  ∀ ops cs s', method s a = some ops → Ends ops s cs s' → ∀ c ∈ cs, P c

def AllOrNothing (fails : κ → Bool) (ops : List (Op σ κ)) (s : σ) : Prop :=
  (exec fails ops s).2 ≠ none → (exec fails ops s).1 = s

section
variable {fails : κ → Bool} {cs : List κ} {ops rest : List (Op σ κ)} {s : σ}

theorem exec_throws_iff : (exec fails ops s).2 ≠ none ↔ ∃ c, .call c ∈ ops ∧ fails c := by
  induction ops generalizing s with
  | nil => simp [exec]
  | cons op ops ih =>
    cases op with
    | change f => simp [exec, ih]
    | call c =>
      by_cases hc : fails c
      · simp [exec, hc]
      · simp [exec, hc, ih]

/-- A program that does not throw runs as if no call could throw. -/
theorem exec_of_not_thrown (h : (exec fails ops s).2 = none) :
    exec fails ops s = exec (fun _ => false) ops s := by
  induction ops generalizing s with
  | nil => rfl
  | cons op ops ih =>
    cases op with
    | change f => exact ih h
    | call c =>
      rw [exec] at h ⊢
      split_ifs at h ⊢
      exact ih h

/-- What every change keeps is kept, whether the program throws or not. -/
theorem exec_keeps {P : σ → Prop} (h : ∀ f, .change f ∈ ops → ∀ s, P s → P (f s)) (hs : P s) :
    P (exec fails ops s).1 := by
  induction ops generalizing s with
  | nil => exact hs
  | cons op ops ih =>
    have hrest : ∀ f, .change f ∈ ops → ∀ s, P s → P (f s) :=
      fun f hf => h f (List.mem_cons_of_mem _ hf)
    cases op with
    | change f => exact ih hrest (h f List.mem_cons_self s hs)
    | call c =>
      rw [exec]
      split_ifs
      · exact hs
      · exact ih hrest hs

theorem exec_calls_of_fails (h : ∃ c ∈ cs, fails c) :
    (exec fails (cs.map .call ++ ops) s).1 = s := by
  induction cs with
  | nil => obtain ⟨c, hc, -⟩ := h; cases hc
  | cons c cs ih =>
    rw [List.map_cons, List.cons_append, exec]
    split_ifs with hc
    · rfl
    · obtain ⟨d, hd, hf⟩ := h
      rcases List.mem_cons.1 hd with rfl | hd
      · exact absurd hf hc
      · exact ih ⟨d, hd, hf⟩

theorem exec_calls_of_not (h : ∀ c ∈ cs, fails c = false) :
    exec fails (cs.map .call ++ ops) s = exec fails ops s := by
  induction cs with
  | nil => rfl
  | cons c cs ih =>
    rw [List.map_cons, List.cons_append, exec, h c List.mem_cons_self]
    exact ih fun d hd => h d (List.mem_cons_of_mem _ hd)

theorem exec_changes (fs : List (σ → σ)) :
    exec fails (fs.map .change ++ ops) s = exec fails ops (fs.foldl (fun s f => f s) s) := by
  induction fs generalizing s with
  | nil => rfl
  | cons f fs ih => exact ih

theorem allOrNothing_of_callsFirst (cs : List κ) (fs : List (σ → σ)) :
    AllOrNothing fails (cs.map .call ++ fs.map .change) s := by
  intro ht
  obtain ⟨c, hc, hf⟩ := exec_throws_iff.1 ht
  rcases List.mem_append.1 hc with hc | hc
  · exact exec_calls_of_fails ⟨c, by simpa using hc, hf⟩
  · simp at hc

/-- Changes that are seen afterwards come between the calls `cs` and the others. -/
theorem allOrNothing_iff {P : σ → Prop} (cs : List κ) (fs : List (σ → σ)) (hs : ¬ P s)
    (hfs : P (fs.foldl (fun s f => f s) s))
    (hrest : ∀ g, .change g ∈ rest → ∀ s, P s → P (g s)) :
    AllOrNothing fails (cs.map .call ++ (fs.map .change ++ rest)) s ↔
      (∃ c ∈ cs, fails c) ∨
        ∀ c, .call c ∈ cs.map .call ++ (fs.map .change ++ rest) → fails c = false := by
  by_cases hcs : ∃ c ∈ cs, fails c
  · exact iff_of_true (fun _ => exec_calls_of_fails hcs) (Or.inl hcs)
  · have hcs' : ∀ c ∈ cs, fails c = false :=
      fun c hc => Bool.eq_false_iff.2 fun hf => hcs ⟨c, hc, hf⟩
    rw [AllOrNothing, exec_calls_of_not hcs', exec_changes, or_iff_right hcs]
    constructor
    · intro h c hc
      by_contra hfail
      have hmem : .call c ∈ rest := by
        rcases List.mem_append.1 hc with hc | hc
        · exact absurd (hcs' c (by simpa using hc)) hfail
        · simpa using hc
      refine hs ?_
      rw [← h (exec_throws_iff.2 ⟨c, hmem, by simpa using hfail⟩)]
      exact exec_keeps hrest hfs
    · intro h ht
      obtain ⟨c, hc, hfail⟩ := exec_throws_iff.1 ht
      rw [h c (List.mem_append_right _ (List.mem_append_right _ hc))] at hfail
      cases hfail

/-! ### Methods -/

variable {cs : List κ} {s' : σ}

theorem Ends.mem_ops (h : Ends ops s cs s') {c : κ} (hc : c ∈ cs) : .call c ∈ ops := by
  induction h with
  | nil => cases hc
  | throws d ops s =>
    rw [List.mem_singleton.1 hc]
    exact List.mem_cons_self
  | call _ ih =>
    rcases List.mem_cons.1 hc with rfl | hc
    · exact List.mem_cons_self
    · exact List.mem_cons_of_mem _ (ih hc)
  | change _ ih => exact List.mem_cons_of_mem _ (ih hc)

theorem Ends.keeps {P : σ → Prop} (h : Ends ops s cs s')
    (hops : ∀ f, .change f ∈ ops → ∀ s, P s → P (f s)) (hs : P s) : P s' := by
  induction h with
  | nil | throws => exact hs
  | call _ ih => exact ih (fun f hf => hops f (List.mem_cons_of_mem _ hf)) hs
  | change _ ih =>
    exact ih (fun f hf => hops f (List.mem_cons_of_mem _ hf)) (hops _ List.mem_cons_self _ hs)

/-- If nothing throws, all calls are made. -/
theorem exists_ends (ops : List (Op σ κ)) (s : σ) :
    ∃ cs s', Ends ops s cs s' ∧ ∀ c, .call c ∈ ops → c ∈ cs := by
  induction ops generalizing s with
  | nil => exact ⟨[], s, .nil s, fun c hc => by cases hc⟩
  | cons op ops ih =>
    cases op with
    | call d =>
      obtain ⟨cs, s', h, hcs⟩ := ih s
      refine ⟨d :: cs, s', .call h, fun c hc => ?_⟩
      rcases List.mem_cons.1 hc with hc | hc
      · cases hc
        exact List.mem_cons_self
      · exact List.mem_cons_of_mem _ (hcs c hc)
    | change f =>
      obtain ⟨cs, s', h, hcs⟩ := ih (f s)
      refine ⟨cs, s', .change h, fun c hc => hcs c ?_⟩
      rcases List.mem_cons.1 hc with hc | hc
      · cases hc
      · exact hc

variable {α : Type} {start : σ → Prop} {method : σ → α → Option (List (Op σ κ))} {a : α}

theorem makes_iff {P : κ → Prop} (hm : method s a = some ops) :
    Makes method P s a ↔ ∀ c, .call c ∈ ops → P c := by
  constructor
  · intro h c hc
    obtain ⟨cs, s', he, hcs⟩ := exists_ends ops s
    exact h ops cs s' hm he c (hcs c hc)
  · rintro h ops' cs s' hm' he c hc
    rw [hm, Option.some.injEq] at hm'
    subst hm'
    exact h c (he.mem_ops hc)

theorem makes_of_none {P : κ → Prop} (hm : method s a = none) : Makes method P s a := by
  rintro ops cs s' hm'
  rw [hm] at hm'
  cases hm'

theorem Reachable.inv {I : σ → Prop} (hstart : ∀ s, start s → I s)
    (hmethod : ∀ s a ops, I s → method s a = some ops →
      ∀ f, .change f ∈ ops → ∀ t, I t → I (f t))
    (h : Reachable start method s) : I s := by
  induction h with
  | start h => exact hstart _ h
  | method _ hm he ih => exact he.keeps (hmethod _ _ _ ih hm) ih

end

end Fallible
