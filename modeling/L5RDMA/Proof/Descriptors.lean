/-
  When a descriptor has two owners.

  `owned_iff`: in a run every open descriptor has at most one owner, and every
  `close` is of the owner's own descriptor, iff each object that takes over a
  descriptor number takes one that no live object owns (`Unowned`).  The
  constructor of `VirtualRingBuffer` hands the numbers that its local `Socket`s
  own to `malloc_shared` and `mmapRingBuffer`, so no run that constructs one
  meets the condition.
-/
import Mathlib.Logic.Equiv.Basic
import L5RDMA.Descriptors

namespace L5RDMA

namespace Descriptor

open Run
open Descriptors (Table Close Holding Sound)

/-- Every open descriptor has at most one owner, and no destructor has closed a number that
    was closed before or given out again. -/
structure Owned (s : State) : Prop where
  unique : ∀ n, s.table.serial n ≠ none → ∀ i j h h', s.hold i = some h → s.hold j = some h' →
    h.number = n → h'.number = n → i = j
  closes : ∀ c ∈ s.closes, c.Right

/-- A new object owns what nobody else does. -/
def Unowned (s : State) : Act → Prop
  | .construct kind _ fd =>
    kind.closes fd = true → ∀ j h, s.hold j = some h → h.number ≠ fd.toNat
  | _ => True

structure Inv (s : State) : Prop where
  sound : Sound s.table s.hold
  closes : ∀ c ∈ s.closes, c.Right

theorem Inv.owned {s : State} (h : Inv s) : Owned s where
  unique := fun _ _ i j _ _ hi hj hn hn' => h.sound.unique i j _ _ hi hj (hn.trans hn'.symm)
  closes := h.closes

theorem inv_init (n : ℕ) : Inv (init n) where
  sound := Descriptors.sound_none
  closes := fun _ hc => by cases hc

section
variable {s s' : State}

/-! ## The steps -/

theorem Kind.nonneg_of_closes {kind : Kind} {fd : Int} (h : kind.closes fd = true) : 0 ≤ fd := by
  cases kind <;> simp [Kind.closes] at h <;> omega

@[simp] theorem hold_put (s : State) (i : ℕ) (o : Option Object) :
    (s.put i o).hold = Function.update s.hold i (o.bind Object.holds) := by
  funext j
  unfold State.hold State.put
  dsimp only
  by_cases hj : j = i
  · rw [hj, Function.update_self, Function.update_self]
  · rw [Function.update_of_ne hj, Function.update_of_ne hj]

@[simp] theorem table_put (s : State) (i : ℕ) (o : Option Object) : (s.put i o).table = s.table :=
  rfl

theorem hold_of_objects {i : ℕ} {o : Option Object} (h : s.objects i = o) :
    s.hold i = o.bind Object.holds := by
  rw [State.hold, h]

/-- An object closes what it holds, and is replaced by one that holds nothing. -/
theorem Inv.closeBy (h : Inv s) {i : ℕ} {o : Object} (ho : s.objects i = some o)
    {o' : Option Object} (ho' : o'.bind Object.holds = none) : Inv ((s.closeBy o).put i o') := by
  have hi : s.hold i = o.holds := hold_of_objects ho
  unfold State.closeBy
  cases hh : o.holds with
  | none =>
    dsimp only
    constructor
    · rw [hold_put, ho', ← hh, ← hi, Function.update_eq_self]
      exact h.sound
    · exact h.closes
  | some held =>
    rw [hh] at hi
    dsimp only
    constructor
    · rw [hold_put, ho']
      exact h.sound.close hi
    · intro c hc
      rcases List.mem_append.1 hc with hc | hc
      · exact h.closes c hc
      · rw [List.mem_singleton.1 hc]
        exact h.sound.right hi

/-- Two objects exchange what they hold. -/
theorem Inv.swap (h : Inv s) {i j : ℕ} {o o' : Option Object}
    (ho : o.bind Object.holds = s.hold j) (ho' : o'.bind Object.holds = s.hold i) :
    Inv ((s.put i o).put j o') := by
  constructor
  · rw [hold_put, hold_put, ho, ho', ← Equiv.comp_swap_eq_update, Equiv.swap_comm]
    exact h.sound.comp _
  · exact h.closes

theorem step_inv {a : Act} (h : Inv s) (hC : Unowned s a) (hs : step s a = some s') : Inv s' := by
  cases a with
  | open_ n =>
    simp only [step] at hs
    split at hs
    next hn => cases hs; exact ⟨h.sound.open_ hn, h.closes⟩
    next => cases hs
  | construct kind this fd =>
    simp only [step] at hs
    split at hs
    next => cases hs
    next hnone =>
      split_ifs at hs with hfd
      cases hs
      constructor
      · rw [hold_put, table_put]
        show Sound s.table (Function.update s.hold this
          (if kind.closes fd then some ⟨fd.toNat, s.table.serial fd.toNat⟩ else none))
        split_ifs with hcl
        · have hnonneg := Kind.nonneg_of_closes hcl
          rcases hfd with hneg | hopen
          · omega
          · simp only [State.opened, Option.isSome_iff_ne_none, decide_eq_true_eq] at hopen
            exact h.sound.take this hopen.2 (hC hcl)
        · have hthis : s.hold this = none := hold_of_objects hnone
          rw [← hthis, Function.update_eq_self]
          exact h.sound
      · exact h.closes
  | moveConstruct this other =>
    simp only [step] at hs
    split at hs
    next o hthis hother =>
      cases hs
      refine h.swap (hold_of_objects hother).symm ?_
      rw [hold_of_objects hthis]
      cases hk : o.kind <;> rfl
    next => cases hs
  | moveAssign this other =>
    simp only [step] at hs
    split at hs
    next o o' hthis hother =>
      split_ifs at hs
      cases hs
      exact h.swap (hold_of_objects hother).symm (hold_of_objects hthis).symm
    next => cases hs
  | close this =>
    simp only [step] at hs
    split at hs
    next o ho =>
      by_cases hk : o.kind = .socket
      · rw [if_pos hk] at hs
        cases hs
        refine h.closeBy ho ?_
        show Object.holds (if o.fd < 0 then o else ⟨.socket, -1, none⟩) = none
        split_ifs with hneg
        · simp [Object.holds, hk, Kind.closes, hneg]
        · rfl
      · rw [if_neg hk] at hs; cases hs
    next => cases hs
  | destroy this =>
    simp only [step] at hs
    split at hs
    next o ho => cases hs; exact h.closeBy ho rfl
    next => cases hs

/-- A second owner. -/
theorem step_shares {a : Act} (hC : ¬ Unowned s a) (hs : step s a = some s') : ¬ Owned s' := by
  cases a with
  | construct kind this fd =>
    unfold Unowned at hC
    push Not at hC
    obtain ⟨hcl, j, held, hj, hnumber⟩ := hC
    simp only [step] at hs
    split at hs
    next => cases hs
    next hnone =>
      split_ifs at hs with hfd
      cases hs
      have hopen : s.table.serial fd.toNat ≠ none := by
        rcases hfd with hneg | hopen
        · have := Kind.nonneg_of_closes hcl
          omega
        · simp only [State.opened, Option.isSome_iff_ne_none, decide_eq_true_eq] at hopen
          exact hopen.2
      have hne : j ≠ this := by
        rintro rfl
        rw [hold_of_objects hnone] at hj
        cases hj
      intro h
      refine hne (h.unique fd.toNat hopen j this held ⟨fd.toNat, s.table.serial fd.toNat⟩
        ?_ ?_ hnumber rfl)
      · rw [hold_put, Function.update_of_ne hne]
        exact hj
      · rw [hold_put, Function.update_self]
        exact if_pos hcl
  | open_ | moveConstruct | moveAssign | close | destroy => exact absurd trivial hC

end

/-! ## The constructor of `VirtualRingBuffer` -/

/-- A number that goes to a `Socket` and to another object. -/
theorem not_unowned_twice {s s' : State} {n this other : ℕ} {kind : Kind}
    (hcl : kind.closes n = true)
    (hr : run step s [.construct .socket this n, .construct kind other n] = some s') :
    ¬ Along step Unowned s [.construct .socket this n, .construct kind other n] := by
  intro h
  rw [run] at hr
  rw [Along] at h
  cases hs : step s (.construct .socket this n) with
  | none => rw [hs] at hr; cases hr
  | some s₁ =>
    rw [hs] at hr h
    dsimp only at hr h
    have h₂ := h.2
    rw [run] at hr
    rw [Along] at h₂
    cases hs₂ : step s₁ (.construct kind other n) with
    | none => rw [hs₂] at hr; cases hr
    | some s₂ =>
      rw [hs₂] at h₂
      have hheld : s₁.hold this = some ⟨n, s.table.serial n⟩ := by
        simp only [step] at hs
        split at hs
        next => cases hs
        next =>
          split_ifs at hs
          cases hs
          rw [hold_put, Function.update_self]
          rfl
      exact h₂.1 hcl this _ hheld rfl

/-- The constructor does this with the numbers it receives, which are not both 0. -/
theorem VirtualRingBuffer.construct_twice (c : VirtualRingBuffer.Construction) :
    ∃ front back n this other kind, Kind.closes kind (n : ℕ) = true ∧
      VirtualRingBuffer.construct c =
        front ++ ([.construct .socket this n, .construct kind other n] ++ back) := by
  by_cases h : c.remoteNumber = 0
  · have hpos : c.remoteRwNumber ≠ 0 := fun h' => c.distinct (h'.trans h.symm)
    refine ⟨(construct c).take 13, (construct c).drop 15, c.remoteRwNumber,
      c.remoteRwFd, c.temporary, .shmMapping, ?_, rfl⟩
    simp only [Kind.closes, gt_iff_lt, decide_eq_true_eq]
    omega
  · refine ⟨(construct c).take 18, (construct c).drop 20, c.remoteNumber, c.remoteFd,
      c.temporary, .wraparoundBuffer, ?_, rfl⟩
    simp only [Kind.closes, gt_iff_lt, decide_eq_true_eq]
    omega

theorem VirtualRingBuffer.not_unowned {s s' : State} {before after : List Act}
    {c : VirtualRingBuffer.Construction}
    (hr : run step s (before ++ VirtualRingBuffer.construct c) = some s') :
    ¬ Along step Unowned s (before ++ VirtualRingBuffer.construct c ++ after) := by
  intro h
  obtain ⟨front, back, n, this, other, kind, hcl, hc⟩ := VirtualRingBuffer.construct_twice c
  obtain ⟨s₁, hr₁, hr⟩ := exists_of_run_append hr
  have h₁ := h.left.right hr₁
  rw [hc] at hr h₁
  obtain ⟨s₂, hr₂, hr⟩ := exists_of_run_append hr
  obtain ⟨s₃, hr₃, -⟩ := exists_of_run_append hr
  exact not_unowned_twice hcl hr₃ (h₁.right hr₂).left

/-- **A descriptor has one owner iff nothing is constructed from one that is owned**, and
    with a `VirtualRingBuffer` it has not. -/
theorem owned_iff (inherited : ℕ) :
    (∀ acts, AllStates step Owned (init inherited) acts ↔
      Along step Unowned (init inherited) acts) ∧
    ∀ before c after, run step (init inherited) (before ++ VirtualRingBuffer.construct c) ≠ none →
      ¬ AllStates step Owned (init inherited)
        (before ++ VirtualRingBuffer.construct c ++ after) := by
  have hiff : ∀ acts, AllStates step Owned (init inherited) acts ↔
      Along step Unowned (init inherited) acts := fun acts =>
    allStates_iff_along (I := Inv) (fun _ h => h.owned) (fun _ _ _ h hC hs => step_inv h hC hs)
      (fun _ _ _ _ hC hs => step_shares hC hs) acts (inv_init inherited)
  refine ⟨hiff, ?_⟩
  intro before c after hr h
  obtain ⟨s', hs'⟩ := Option.ne_none_iff_exists'.1 hr
  exact VirtualRingBuffer.not_unowned hs' ((hiff _).1 h)

/-- A `VirtualRingBuffer` lives while a socket is opened, -/
def ringThenSocket : List Act :=
  VirtualRingBuffer.construct
      { this := 0, remoteRwFd := 4, remoteFd := 5, temporary := 6,
        localRwNumber := 3, localNumber := 4, remoteRwNumber := 5, remoteNumber := 6,
        distinct := by decide } ++
    Socket.create 7 5 ++ VirtualRingBuffer.destroy 0

/-- and closes its number. -/
theorem ringThenSocket_closes :
    ¬ AllStates step Owned (init 3) ringThenSocket := by
  intro h
  have hcloses : ((run step (init 3) ringThenSocket).map fun s =>
      s.closes.map fun c => (c.held.number, c.held.serial, c.closed)) =
      some [(6, some 6, some 6), (5, some 5, some 5),
        (6, some 6, none), (5, some 5, some 7), (4, some 4, some 4), (3, some 3, some 3)] := by
    decide +kernel
  obtain ⟨s, hs, he⟩ := Option.map_eq_some_iff.1 hcloses
  have hmem : (5, some 5, some 7) ∈
      s.closes.map fun c => (c.held.number, c.held.serial, c.closed) := by
    rw [he]; simp
  obtain ⟨c, hc, hce⟩ := List.mem_map.1 hmem
  have hright := ((h.last hs).closes c hc).2
  simp only [Prod.mk.injEq] at hce
  rw [hce.2.2, hce.2.1] at hright
  cases hright

end Descriptor

end L5RDMA
