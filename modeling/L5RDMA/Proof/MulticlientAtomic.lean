/-
  A request that is larger than the room the server's `receive` offers.

  `receive` selects a request, takes it and then throws.  DistinctMr takes it
  only after the check.  The doorbell transport has cleared the bell of the
  client, and the shared receive queue has lost the completion, so that nothing
  leads the server to the request any more.

  `receive_atomic_iff`: a call is atomic iff the transport is DistinctMr or the
  request that it selects fits.
-/
import L5RDMA.Lib.Taking
import L5RDMA.MulticlientRecv
import L5RDMA.Proof.MulticlientDelivery
import L5RDMA.Proof.MulticlientRecvQueue

namespace L5RDMA

namespace Multiclient

open Run

/-! ## Polling -/

namespace Polling

/-- The client that a call of `receive` finds first. -/
def Selected (k : Polling) (s : Slots) (c : ℕ) : Prop :=
  ∃ m, k.stride * m < k.bound s ∧ k.look s (k.stride * m) = some c ∧
    ∀ j < m, k.look s (k.stride * j) = none

/-- The memory when the server looks at the request of client `c`. -/
def turned (k : Polling) (s : Slots) (c : ℕ) : Slots :=
  match k with
  | doorbell => { s with doorBells := Function.update s.doorBells c 0 }
  | distinctMr => s

/-- Where a call of `receive` in state `s` gets, if nobody else does anything. -/
def CallAt (k : Polling) (s : Slots) (maxSize : UInt64) (t : Slots) : Prop :=
  match t.pc with
  | .idle | .reset _ _ => True
  | .poll n i => n = maxSize ∧ t = { s with pc := .poll n i } ∧
      ∃ m, i = k.stride * m ∧ ∀ j < m, k.look s (k.stride * j) = none
  | .clear n c => n = maxSize ∧ k = .doorbell ∧ Selected k s c ∧ t = { s with pc := .clear n c }
  | .size n c => n = maxSize ∧ Selected k s c ∧ t = { k.turned s c with pc := .size n c }
  | .copy n c size => n = maxSize ∧ Selected k s c ∧ size = sizeWord (s.receives c) ∧
      t = { k.turned s c with pc := .copy n c size }

section
variable {k : Polling} {s t t' : Slots} {maxSize : UInt64} {c : ℕ}

theorem look_pc (s : Slots) (pc : ServePc) (i : ℕ) : k.look { s with pc := pc } i = k.look s i := by
  cases k <;> rfl

theorem turned_receives (k : Polling) (s : Slots) (c : ℕ) :
    (k.turned s c).receives = s.receives := by cases k <;> rfl

theorem CallAt.step (h : CallAt k s maxSize t) (hs : k.receiveStep t = some t') :
    CallAt k s maxSize t' := by
  unfold CallAt at h
  cases receiveStep_cases hs with
  | @poll n i hpc =>
    rw [hpc] at h
    obtain ⟨rfl, ht, m, rfl, hnone⟩ := h
    rcases Nat.lt_or_ge (k.stride * m) (k.bound t) with hi | hi
    · rw [afterLook_of_lt hi]
      have hlook : k.look t (k.stride * m) = k.look s (k.stride * m) := by rw [ht, look_pc]
      rw [hlook]
      cases hf : k.look s (k.stride * m) with
      | none =>
        refine ⟨rfl, by rw [ht], m + 1, by rw [Nat.mul_succ], ?_⟩
        intro j hj
        rcases Nat.lt_succ_iff_lt_or_eq.1 hj with hj | rfl
        · exact hnone j hj
        · exact hf
      | some c =>
        have hsel : Selected k s c := ⟨m, by rw [ht, bound_pc] at hi; exact hi, hf, hnone⟩
        cases k with
        | doorbell => exact ⟨rfl, rfl, hsel, by rw [ht]; rfl⟩
        | distinctMr => exact ⟨rfl, hsel, by rw [ht]; rfl⟩
    · rw [afterLook_of_le hi]
      exact ⟨rfl, by rw [ht], 0, rfl, fun j hj => absurd hj (Nat.not_lt_zero j)⟩
  | clear _ hpc =>
    rw [hpc] at h
    obtain ⟨rfl, rfl, hsel, ht⟩ := h
    exact ⟨rfl, hsel, by rw [ht]; rfl⟩
  | size hpc =>
    rw [hpc] at h
    obtain ⟨rfl, hsel, ht⟩ := h
    have hreceives : t.receives = s.receives := by rw [ht]; exact turned_receives k s _
    rw [hreceives]
    exact ⟨rfl, hsel, rfl, by cases k <;> rw [ht] <;> rfl⟩
  | throw | deliver | copy | reset => trivial

theorem run_looks {m : ℕ} (hm : k.stride * m ≤ k.bound s)
    (hnone : ∀ j < m, k.look s (k.stride * j) = none) :
    run k.serveStep { s with pc := .poll maxSize 0 } (List.replicate m ()) =
      some { s with pc := .poll maxSize (k.stride * m) } := by
  have hpos := k.stride_pos
  induction m with
  | zero => rfl
  | succ m ih =>
    rw [Nat.mul_succ] at hm
    have hi : k.stride * m < k.bound s := by omega
    rw [List.replicate_succ', run_append (ih (by omega) fun j hj => hnone j (by omega)),
      run_cons (receiveStep_poll rfl), afterLook_of_lt (by rwa [bound_pc]), look_pc,
      hnone m (Nat.lt_succ_self m), Nat.mul_succ]
    rfl

/-- The server looks at the request that is selected. -/
theorem Selected.run (h : Selected k s c) (maxSize : UInt64) :
    ∃ n, run k.serveStep { s with pc := .poll maxSize 0 } (List.replicate n ()) =
      some { k.turned s c with pc := .copy maxSize c (sizeWord (s.receives c)) } := by
  obtain ⟨m, hm, hlook, hnone⟩ := h
  have hfound : Run.run k.serveStep { s with pc := .poll maxSize 0 } (List.replicate (m + 1) ()) =
      some { s with pc := k.found maxSize c } := by
    rw [List.replicate_succ', run_append (run_looks hm.le hnone), run_cons (receiveStep_poll rfl),
      afterLook_of_lt (by rwa [bound_pc]), look_pc, hlook]
    rfl
  cases k with
  | doorbell =>
    refine ⟨m + 1 + 2, ?_⟩
    rw [List.replicate_add, run_append hfound]
    rfl
  | distinctMr =>
    refine ⟨m + 1 + 1, ?_⟩
    rw [List.replicate_add, run_append hfound]
    rfl

/-- A request that fits is returned. -/
theorem run_copy {size : UInt64} (hfit : size ≤ maxSize) :
    ∃ n s', run k.serveStep { s with pc := .copy maxSize c size } (List.replicate n ()) = some s' ∧
      s'.pc = .idle ∧
      s'.returned = s.returned ++ [(c, Mem.read id (s.receives c) 8 size.toNat)] := by
  have hlt : ¬ maxSize < size := UInt64.not_lt.2 hfit
  cases k with
  | doorbell =>
    refine ⟨1, _, by
      simp only [List.replicate, run, serveStep, receiveStep,
        MulticlientRDMATransportServer.receiveStep, hlt, if_false]
      rfl, rfl, rfl⟩
  | distinctMr =>
    refine ⟨2, _, by
      simp only [List.replicate, run, serveStep, receiveStep,
        MulticlientRDMADistinctMrTransportServer.receiveStep, hlt, if_false]
      rfl, rfl, rfl⟩

theorem turned_returned (k : Polling) (s : Slots) (c : ℕ) :
    (k.turned s c).returned = s.returned := by cases k <;> rfl

end

end Polling

namespace Exchanges
variable (k : Polling)

/-- A call of `receive` throws at the request of client `c`; in `acts` until then, others
    take steps too. -/
def FailsDuring (s : State) (maxSize : UInt64) (acts : List Act) (c : ℕ) (s' : State) : Prop :=
  (∀ n, .serve n ∉ acts) ∧ ∃ t size, run (step k) s (.serve maxSize :: acts) = some t ∧
    t.slots.pc = .copy maxSize c size ∧ maxSize < size ∧ step k t .server = some s'

/-- How many requests of a client the server's memory announces. -/
def pending (s : State) (c : ℕ) : ℕ :=
  match k with
  | .doorbell => if s.slots.doorBells c ≠ 0 then 1 else 0
  | .distinctMr => if sizeWord (s.slots.receives c) ≠ 0 then 1 else 0

/-- The calls of `receive` during which nobody else does anything. -/
def taking : Taking State ℕ (List UInt8) UInt64 where
  throws s maxSize c s' := ∃ n, FailsDuring k s maxSize (List.replicate n .server) c s'
  returns s maxSize c bytes := ∃ n s',
    run (step k) s (.serve maxSize :: List.replicate n .server) = some s' ∧
      s'.slots.pc = .idle ∧ s'.slots.returned = s.slots.returned ++ [(c, bytes)]
  item s c := Mem.read id (s.slots.receives c) 8 (sizeWord (s.slots.receives c)).toNat
  size s c := sizeWord (s.slots.receives c)
  pending := pending k

/-- The server is between two calls. -/
def Between (s : State) : Prop := s.slots.pc = .idle ∧ s.server.pc = .idle

section
variable {k : Polling} {s s' t : State} {maxSize size : UInt64} {c : ℕ}

theorem step_serve (h : Between s) (maxSize : UInt64) : step k s (.serve maxSize) =
    some { s with slots := { s.slots with pc := .poll maxSize 0 } } := by
  simp only [step, h.1, h.2]

/-- Where a call gets, if nobody else does anything. -/
theorem run_call (h : Between s) {n : ℕ}
    (hr : run (step k) { s with slots := { s.slots with pc := .poll maxSize 0 } }
      (List.replicate n .server) = some t) :
    k.CallAt s.slots maxSize t.slots ∧ t = { s with slots := t.slots } := by
  have hall : AllStates (step k)
      (fun t => k.CallAt s.slots maxSize t.slots ∧ t = { s with slots := t.slots })
      { s with slots := { s.slots with pc := .poll maxSize 0 } } (List.replicate n .server) := by
    refine allStates_of_along (C := fun _ a => a = .server) (fun _ hi => hi) ?_
      ⟨⟨rfl, rfl, 0, rfl, fun j hj => absurd hj (Nat.not_lt_zero j)⟩, rfl⟩
      (along_of_forall fun a ha _ => List.eq_of_mem_replicate ha)
    rintro t a t' ⟨hat, ht⟩ rfl hs
    simp only [step] at hs
    split at hs
    · -- the call has ended
      have hidle : t.server.pc = .idle := by rw [ht]; exact h.2
      rw [Server.step, hidle] at hs
      cases hs
    · obtain ⟨slots, hslots, rfl⟩ := Option.map_eq_some_iff.1 hs
      exact ⟨hat.step hslots, by rw [ht]⟩
  exact hall.last hr

/-- A call that throws has selected a request that does not fit, and has turned to it. -/
theorem throws_spec (h : Between s) (ht : (taking k).throws s maxSize c s') :
    k.Selected s.slots c ∧ maxSize < sizeWord (s.slots.receives c) ∧
      s' = { s with slots := k.turned s.slots c } := by
  obtain ⟨n, -, t, size, hr, hpc, hlt, hs⟩ := ht
  rw [run_cons (step_serve h maxSize)] at hr
  obtain ⟨hat, hframe⟩ := run_call h hr
  unfold Polling.CallAt at hat
  rw [hpc] at hat
  obtain ⟨-, hsel, rfl, hslots⟩ := hat
  refine ⟨hsel, hlt, ?_⟩
  have hidle := h.1
  rw [hframe, hslots] at hs
  cases k with
  | doorbell =>
    simp only [step, Polling.receiveStep, MulticlientRDMATransportServer.receiveStep, hlt,
      if_true, Option.map_some] at hs
    cases hs
    rw [← hidle]
    rfl
  | distinctMr =>
    simp only [step, Polling.receiveStep, MulticlientRDMADistinctMrTransportServer.receiveStep,
      hlt, if_true, Option.map_some] at hs
    cases hs
    rw [← hidle]
    rfl

theorem run_selected (h : Between s) (hsel : k.Selected s.slots c) (maxSize : UInt64) :
    ∃ n, run (step k) s (.serve maxSize :: List.replicate n .server) = some { s with
      slots :=
        { k.turned s.slots c with pc := .copy maxSize c (sizeWord (s.slots.receives c)) } } := by
  obtain ⟨n, hr⟩ := hsel.run maxSize
  exact ⟨n, (run_cons (step_serve h maxSize) _).trans
    (run_server (s := { s with slots := { s.slots with pc := _ } }) hr)⟩

theorem selects (h : Between s) : (taking k).Selects s (k.Selected s.slots) where
  selected ht :=
    let ⟨hsel, hlt, _⟩ := throws_spec h ht
    ⟨hsel, UInt64.not_le.2 hlt⟩
  throws {maxSize c} hsel hfit := by
    have hlt : maxSize < sizeWord (s.slots.receives c) := UInt64.not_le.1 hfit
    obtain ⟨n, hr⟩ := run_selected h hsel maxSize
    have hserve : ∀ m, Act.serve m ∉ List.replicate n .server :=
      fun m hm => by cases List.eq_of_mem_replicate hm
    refine ⟨{ s with slots := { k.turned s.slots c with pc := .idle } }, n, hserve, _, _, hr, rfl,
      hlt, ?_⟩
    cases k with
    | doorbell =>
      simp only [step, Polling.receiveStep, MulticlientRDMATransportServer.receiveStep, hlt,
        if_true, Option.map_some]
    | distinctMr =>
      simp only [step, Polling.receiveStep, MulticlientRDMADistinctMrTransportServer.receiveStep,
        hlt, if_true, Option.map_some]
  returns {maxSize c} hsel hfit := by
    have hfit : sizeWord (s.slots.receives c) ≤ maxSize := hfit
    obtain ⟨n, hr⟩ := run_selected h hsel maxSize
    obtain ⟨n', slots, hr', hpc, hret⟩ := Polling.run_copy (k := k) (s := k.turned s.slots c)
      (c := c) hfit
    refine ⟨n + n', { s with slots := slots }, ?_, hpc, ?_⟩
    · have hlast := run_server (k := k) (s := { s with
        slots :=
          { k.turned s.slots c with pc := .copy maxSize c (sizeWord (s.slots.receives c)) } }) hr'
      rw [List.replicate_add, ← List.cons_append, run_append hr]
      exact hlast
    · rw [Polling.turned_returned, Polling.turned_receives] at hret
      simp only [taking]
      exact hret

/-- **A call over a polling transport is atomic** iff it takes nothing before the check, or
    the request that it selects fits. -/
theorem atomic_iff (h : Between s) (maxSize : UInt64) :
    (taking k).Atomic s maxSize ↔ k = .distinctMr ∨
      ∀ c, k.Selected s.slots c → sizeWord (s.slots.receives c) ≤ maxSize := by
  cases k with
  | distinctMr =>
    refine iff_of_true ?_ (Or.inl rfl)
    exact (selects h).atomic_of_unchanged fun c s' ht => (throws_spec h ht).2.2
  | doorbell =>
    have hless : ∀ c s', (taking .doorbell).throws s maxSize c s' →
        pending .doorbell s' c < pending .doorbell s c := by
      intro c s' ht
      obtain ⟨⟨m, -, hlook, -⟩, -, rfl⟩ := throws_spec h ht
      have hbell : s.slots.doorBells c ≠ 0 := Polling.look_eq_some hlook
      simp [pending, Polling.turned, hbell]
    rw [(selects h).atomic_iff_fits hless]
    exact ⟨Or.inr, fun hor => hor.resolve_left Polling.noConfusion⟩

/-! ## Calls during which others take steps -/

def State.withPc (s : State) (pc : ServePc) : State := { s with slots := { s.slots with pc := pc } }

/-- The steps that are not the server's. -/
def Act.others : Act → Bool
  | .server => false
  | _ => true

theorem pc_of_others {a : Act} (ha : ∀ n, a ≠ .serve n) (ha' : a.others = true)
    (hs : step k s a = some s') : s'.slots.pc = s.slots.pc := by
  cases a with
  | server => cases ha'
  | serve n => exact absurd rfl (ha n)
  | land c words =>
    simp only [step, land] at hs
    split at hs <;> cases hs <;> rfl
  | landAnswer c =>
    simp only [step, landAnswer] at hs
    split at hs
    · cases hs
    · obtain ⟨srv, -, rfl⟩ := Option.map_eq_some_iff.1 hs; rfl
  | client | completeAnswer =>
    simp only [step] at hs
    obtain ⟨_, -, rfl⟩ := Option.map_eq_some_iff.1 hs; rfl
  | answer c data =>
    simp only [step] at hs
    split at hs
    · split_ifs at hs
      obtain ⟨srv, -, rfl⟩ := Option.map_eq_some_iff.1 hs; rfl
    · cases hs
  | complete c =>
    simp only [step] at hs
    split_ifs at hs
    cases hs; rfl
  | send | receive =>
    simp only [step] at hs
    split at hs
    · split_ifs at hs
      cases hs; rfl
    · cases hs

/-- Nobody else sees where the server's `receive` is. -/
theorem step_withPc {a : Act} (ha : ∀ n, a ≠ .serve n) (ha' : a.others = true)
    (hpc : s.slots.pc ≠ .idle) (hs : step k s a = some s') (pc : ServePc) :
    step k (s.withPc pc) a = some (s'.withPc pc) := by
  cases a with
  | server => cases ha'
  | serve n => exact absurd rfl (ha n)
  | land c words =>
    simp only [step, land, State.withPc] at hs ⊢
    cases hsq : (s.clients c).sq with
    | nil => rw [hsq] at hs; cases hs
    | cons r sq =>
      rw [hsq] at hs
      cases r with
      | data off bytes => cases hs; rfl
      | bell => cases hs; rfl
  | landAnswer c =>
    simp only [step, landAnswer, State.withPc] at hs ⊢
    split at hs
    · cases hs
    · obtain ⟨srv, hsrv, rfl⟩ := Option.map_eq_some_iff.1 hs
      rw [hsrv]; rfl
  | client | completeAnswer =>
    simp only [step, State.withPc] at hs ⊢
    obtain ⟨_, he, rfl⟩ := Option.map_eq_some_iff.1 hs
    rw [he]; rfl
  | answer c data =>
    simp only [step] at hs
    split at hs
    next hidle _ => exact absurd hidle hpc
    next => cases hs
  | complete c =>
    simp only [step] at hs
    split_ifs at hs with h0
    cases hs
    simp only [step, State.withPc, h0, if_false]
  | send | receive =>
    simp only [step] at hs
    split at hs
    next hcl hreceiver =>
      split_ifs at hs with hturn
      cases hs
      simp only [step, State.withPc, hcl, hreceiver, hturn, and_self, if_true]
    next => cases hs

/-- The server of DistinctMr changes nothing before it has returned the request. -/
theorem server_withPc (hs : step .distinctMr s .server = some s') (hpc : s'.slots.pc ≠ .idle) :
    s.slots.pc ≠ .idle ∧ s'.withPc .idle = s.withPc .idle := by
  cases hp : s.slots.pc with
  | idle =>
    simp only [step, hp] at hs
    obtain ⟨srv, -, rfl⟩ := Option.map_eq_some_iff.1 hs
    exact absurd hp hpc
  | poll maxSize i =>
    refine ⟨ServePc.noConfusion, ?_⟩
    simp only [step, Polling.receiveStep, MulticlientRDMADistinctMrTransportServer.receiveStep,
      hp] at hs
    split_ifs at hs
    · cases hs; rfl
    · cases hs; rfl
    · cases hs; rfl
  | clear maxSize c =>
    simp only [step, Polling.receiveStep, MulticlientRDMADistinctMrTransportServer.receiveStep,
      hp] at hs
    cases hs
  | size maxSize c =>
    refine ⟨ServePc.noConfusion, ?_⟩
    simp only [step, Polling.receiveStep, MulticlientRDMADistinctMrTransportServer.receiveStep,
      hp] at hs
    cases hs; rfl
  | copy maxSize c size =>
    refine ⟨ServePc.noConfusion, ?_⟩
    simp only [step, Polling.receiveStep, MulticlientRDMADistinctMrTransportServer.receiveStep,
      hp] at hs
    split_ifs at hs
    · cases hs; rfl
    · cases hs; rfl
  | reset c data =>
    -- the request is returned
    simp only [step, Polling.receiveStep, MulticlientRDMADistinctMrTransportServer.receiveStep,
      hp] at hs
    cases hs
    exact absurd rfl hpc

theorem run_others {acts : List Act} (hserve : ∀ n, .serve n ∉ acts)
    (hr : run (step .distinctMr) s acts = some t) (hpc : t.slots.pc ≠ .idle) :
    s.slots.pc ≠ .idle ∧
      run (step .distinctMr) (s.withPc .idle) (acts.filter Act.others) =
        some (t.withPc .idle) := by
  induction acts generalizing s with
  | nil => cases hr; exact ⟨hpc, rfl⟩
  | cons a as ih =>
    rw [run] at hr
    cases hs : step .distinctMr s a with
    | none => rw [hs] at hr; cases hr
    | some s₁ =>
      rw [hs] at hr
      have ha : ∀ n, a ≠ .serve n := fun n he => hserve n (he ▸ List.mem_cons_self)
      obtain ⟨hne, hrun⟩ := ih (fun n hn => hserve n (List.mem_cons_of_mem _ hn)) hr
      cases ho : a.others with
      | true =>
        have hpc' := pc_of_others ha ho hs
        rw [hpc'] at hne
        rw [List.filter_cons_of_pos ho, run_cons (step_withPc ha ho hne hs .idle)]
        exact ⟨hne, hrun⟩
      | false =>
        have hserver : a = .server := by
          cases a <;> first | rfl | cases ho
        subst hserver
        obtain ⟨hne', hsame⟩ := server_withPc hs hne
        rw [List.filter_cons_of_neg (by simp [Act.others]), ← hsame]
        exact ⟨hne', hrun⟩

/-- **A call over DistinctMr that throws leaves no trace**: without it, the other steps lead
    to the same state. -/
theorem FailsDuring.erased {acts : List Act} (h : FailsDuring .distinctMr s maxSize acts c s') :
    run (step .distinctMr) s (acts.filter Act.others) = some s' := by
  obtain ⟨hserve, t, size, hr, hpc, hlt, hs⟩ := h
  rw [run] at hr
  cases hstep : step .distinctMr s (.serve maxSize) with
  | none => rw [hstep] at hr; cases hr
  | some s₁ =>
    rw [hstep] at hr
    obtain ⟨-, hrun⟩ := run_others hserve hr (by rw [hpc]; exact ServePc.noConfusion)
    have hstart : s₁.withPc .idle = s := by
      simp only [step] at hstep
      split at hstep
      next hidle _ => cases hstep; rw [State.withPc, ← hidle]
      next => cases hstep
    have hend : s' = t.withPc .idle := by
      simp only [step, hpc, Polling.receiveStep,
        MulticlientRDMADistinctMrTransportServer.receiveStep, hlt, if_true, Option.map_some] at hs
      cases hs; rfl
    rw [hend, ← hrun, hstart]

end

end Exchanges

/-! ## The shared receive queue -/

namespace Recv

/-- The oldest completion is that of client `c`; without it the queue is `recv`. -/
def Polls (s : State) (c : ℕ) (recv : Verbs.ReceiveQueue UInt32) : Prop :=
  ∃ qpn connection, s.recv.poll = some (qpn, recv) ∧
    s.qpnToConnection qpn = some connection ∧ connection.toNat = c

/-- The client whose request a call of `receive` takes. -/
def Selected (s : State) (c : ℕ) : Prop := ∃ recv, Polls s c recv

/-- Where a call of `receive` in state `s` gets, if nobody else does anything. -/
def CallAt (s : State) (maxSize : UInt64) (t : State) : Prop :=
  match t.pc with
  | .idle => True
  | .poll n => n = maxSize ∧ t = { s with pc := .poll n }
  | .post n c => n = maxSize ∧ ∃ recv, Polls s c recv ∧ t = { s with recv := recv, pc := .post n c }
  | .size n c => n = maxSize ∧ ∃ recv, Polls s c recv ∧
      t = { s with recv := recv.post, pc := .size n c }
  | .copy n c size => n = maxSize ∧ size = sizeWord (s.receives c) ∧ ∃ recv, Polls s c recv ∧
      t = { s with recv := recv.post, pc := .copy n c size }

/-- The queue pair is that of client `c`. -/
def State.isOf (s : State) (c : ℕ) (qpn : UInt32) : Bool :=
  (s.qpnToConnection qpn).any fun i => i.toNat = c

/-- How many completions of a client are in the queue. -/
def pending (s : State) (c : ℕ) : ℕ := s.recv.completions.countP (s.isOf c)

/-- The calls of `receive` during which nobody else does anything. -/
def taking : Taking State ℕ (List UInt8) UInt64 where
  throws s maxSize c s' := ∃ n t size,
    run step s (.serve maxSize :: List.replicate n .server) = some t ∧
      t.pc = .copy maxSize c size ∧ maxSize < size ∧ step t .server = some s'
  returns s maxSize c bytes := ∃ n s',
    run step s (.serve maxSize :: List.replicate n .server) = some s' ∧
      s'.pc = .idle ∧ s'.returned = s.returned ++ [(c, bytes)]
  item s c := Mem.read id (s.receives c) 8 (sizeWord (s.receives c)).toNat
  size s c := sizeWord (s.receives c)
  pending := pending

/-- The server is between two calls. -/
def Between (s : State) : Prop := s.acceptPc = .idle ∧ s.pc = .idle ∧ s.server.pc = .idle

section
variable {s s' t t' : State} {maxSize : UInt64} {c : ℕ}

theorem step_serve (h : Between s) (maxSize : UInt64) :
    step s (.serve maxSize) = some { s with pc := .poll maxSize } := by
  simp only [step, h.1, h.2.1, h.2.2]

theorem step_server (ha : s.acceptPc = .idle) (hpc : s.pc ≠ .idle) :
    step s .server = MulticlientRDMARecvTransportServer.receiveStep s := by
  simp only [step, ha]

theorem receiveStep_frame (hs : MulticlientRDMARecvTransportServer.receiveStep s = some s') :
    s'.acceptPc = s.acceptPc ∧ s'.server = s.server := by
  cases receiveStep_cases hs <;> exact ⟨rfl, rfl⟩

theorem CallAt.step (h : CallAt s maxSize t)
    (hs : MulticlientRDMARecvTransportServer.receiveStep t = some t') : CallAt s maxSize t' := by
  have hstep := receiveStep_cases hs
  unfold CallAt at h
  cases hstep with
  | empty hpc =>
    unfold CallAt
    rw [hpc] at h ⊢
    exact h
  | take hpc hpoll hmap =>
    rw [hpc] at h
    obtain ⟨rfl, ht⟩ := h
    have hrecv : t.recv = s.recv := by rw [ht]
    have hmap' : t.qpnToConnection = s.qpnToConnection := by rw [ht]
    rw [hrecv] at hpoll
    rw [hmap'] at hmap
    exact ⟨rfl, _, ⟨_, _, hpoll, hmap, rfl⟩, by rw [ht]⟩
  | post hpc =>
    rw [hpc] at h
    obtain ⟨rfl, recv, hpolls, ht⟩ := h
    exact ⟨rfl, recv, hpolls, by rw [ht]⟩
  | size hpc =>
    rw [hpc] at h
    obtain ⟨rfl, recv, hpolls, ht⟩ := h
    exact ⟨rfl, by rw [ht], recv, hpolls, by rw [ht]⟩
  | unknown | throw | deliver => trivial

/-- Where a call gets, if nobody else does anything. -/
theorem run_call (h : Between s) {n : ℕ}
    (hr : run Recv.step { s with pc := .poll maxSize } (List.replicate n .server) = some t) :
    CallAt s maxSize t ∧ t.acceptPc = .idle := by
  have hall : AllStates Recv.step
      (fun t => CallAt s maxSize t ∧ t.acceptPc = .idle ∧ t.server.pc = .idle)
      { s with pc := .poll maxSize } (List.replicate n .server) := by
    refine allStates_of_along (C := fun _ a => a = .server) (fun _ hi => hi) ?_
      ⟨⟨rfl, rfl⟩, h.1, h.2.2⟩ (along_of_forall fun a ha _ => List.eq_of_mem_replicate ha)
    rintro t a t' ⟨hat, ha, hsrv⟩ rfl hs
    by_cases hpc : t.pc = .idle
    · -- the call has ended
      simp only [Recv.step, ha, hpc, Server.step, hsrv] at hs
      cases hs
    · rw [step_server ha hpc] at hs
      obtain ⟨ha', hsrv'⟩ := receiveStep_frame hs
      exact ⟨hat.step hs, ha'.trans ha, by rw [hsrv']; exact hsrv⟩
  exact ⟨(hall.last hr).1, (hall.last hr).2.1⟩

/-- The server has polled the completion, posted a receive request and loaded the size. -/
theorem run_polls (h : Between s) {recv : Verbs.ReceiveQueue UInt32} (hpolls : Polls s c recv)
    (maxSize : UInt64) : run step s (.serve maxSize :: List.replicate 3 .server) = some { s with
      recv := recv.post, pc := .copy maxSize c (sizeWord (s.receives c)) } := by
  obtain ⟨qpn, connection, hp, hq, rfl⟩ := hpolls
  rw [run_cons (step_serve h maxSize)]
  simp only [List.replicate, run, step, h.1, MulticlientRDMARecvTransportServer.receiveStep, hp, hq]

theorem throws_spec (h : Between s) (ht : taking.throws s maxSize c s') :
    maxSize < sizeWord (s.receives c) ∧ ∃ recv, Polls s c recv ∧ s' = { s with
      recv := recv.post, pc := .idle, refused := s.refused ++ [c] } := by
  obtain ⟨n, t, size, hr, hpc, hlt, hs⟩ := ht
  rw [run_cons (step_serve h maxSize)] at hr
  obtain ⟨hat, ha⟩ := run_call h hr
  rw [step_server ha (by rw [hpc]; exact TakePc.noConfusion)] at hs
  unfold CallAt at hat
  rw [hpc] at hat
  obtain ⟨-, rfl, recv, hpolls, rfl⟩ := hat
  simp only [MulticlientRDMARecvTransportServer.receiveStep, hlt, if_true] at hs
  cases hs
  exact ⟨hlt, recv, hpolls, rfl⟩

theorem selects (h : Between s) : taking.Selects s (Selected s) where
  selected ht :=
    let ⟨hlt, recv, hpolls, _⟩ := throws_spec h ht
    ⟨⟨recv, hpolls⟩, UInt64.not_le.2 hlt⟩
  throws {maxSize c} hsel hfit := by
    obtain ⟨recv, hpolls⟩ := hsel
    have hlt : maxSize < sizeWord (s.receives c) := UInt64.not_le.1 hfit
    refine ⟨{ s with recv := recv.post, pc := .idle, refused := s.refused ++ [c] }, 3, _, _,
      run_polls h hpolls maxSize, rfl, hlt, ?_⟩
    simp only [step, h.1, MulticlientRDMARecvTransportServer.receiveStep, hlt, if_true]
  returns {maxSize c} hsel hfit := by
    obtain ⟨recv, hpolls⟩ := hsel
    have hlt : ¬ maxSize < sizeWord (s.receives c) := UInt64.not_lt.2 hfit
    have hlast : step { s with
          recv := recv.post, pc := .copy maxSize c (sizeWord (s.receives c)) } .server =
        some { s with
          recv := recv.post
          pc := .idle
          returned := s.returned ++ [(c, taking.item s c)] } := by
      simp only [step, h.1, MulticlientRDMARecvTransportServer.receiveStep, hlt, if_false, taking]
    exact ⟨4, _, (run_append (run_polls h hpolls maxSize) [.server]).trans (run_cons hlast []),
      rfl, rfl⟩

/-- **A call over the shared receive queue is atomic** iff the request that it takes fits. -/
theorem atomic_iff (h : Between s) (maxSize : UInt64) :
    taking.Atomic s maxSize ↔ ∀ c, Selected s c → sizeWord (s.receives c) ≤ maxSize := by
  refine (selects h).atomic_iff_fits ?_
  intro c s' ht
  obtain ⟨-, recv, ⟨qpn, connection, hp, hq, hc⟩, rfl⟩ := throws_spec h ht
  have hcomp := Verbs.ReceiveQueue.completions_poll hp
  have hpoll : s.isOf c qpn = true := by simp [State.isOf, hq, hc]
  show recv.completions.countP (s.isOf c) < s.recv.completions.countP (s.isOf c)
  rw [hcomp, List.countP_cons_of_pos hpoll]
  exact Nat.lt_succ_self _

end

end Recv

/-! ## The three servers -/

/-- **A call of `receive` that throws is atomic** over DistinctMr, whatever else happens during
    the call; over the two other transports a call is atomic iff the request that it selects
    fits. -/
theorem receive_atomic_iff (maxSize : UInt64) :
    (∀ k s, Exchanges.Between s →
      ((Exchanges.taking k).Atomic s maxSize ↔ k = .distinctMr ∨
        ∀ c, k.Selected s.slots c → sizeWord (s.slots.receives c) ≤ maxSize)) ∧
    (∀ s, Recv.Between s →
      (Recv.taking.Atomic s maxSize ↔
        ∀ c, Recv.Selected s c → sizeWord (s.receives c) ≤ maxSize)) ∧
    ∀ s acts c s', Exchanges.FailsDuring .distinctMr s maxSize acts c s' →
      run (Exchanges.step .distinctMr) s (acts.filter Exchanges.Act.others) = some s' := by
  refine ⟨?_, ?_, ?_⟩
  · intro k s h
    exact Exchanges.atomic_iff h maxSize
  · intro s h
    exact Recv.atomic_iff h maxSize
  · intro s acts c s' h
    exact h.erased

/-- A client has asked. -/
def oneRequest : List Exchanges.Act := [.send 0 [1, 2], .client 0, .client 0, .land 0 2, .land 0 1]

def oneRequestQueued : List Recv.Act :=
  [.accept 7, .server, .server, .server, .send 0 [1, 2], .client 0, .land 0 2]

/-- The server has room for the request; over DistinctMr it has none, and another client asks
    during the call. -/
theorem receive_atomic_oneRequest :
    (∃ s, run (Exchanges.step .doorbell) (Exchanges.init 16 1) oneRequest = some s ∧
      (Exchanges.taking .doorbell).Atomic s 2) ∧
    (∃ s, run Recv.step (Recv.init 16) oneRequestQueued = some s ∧ Recv.taking.Atomic s 2) ∧
    ∃ s s', run (Exchanges.step .distinctMr) (Exchanges.init 2 2)
        [.send 1 [1, 2], .client 1, .land 1 2] = some s ∧
      Exchanges.FailsDuring .distinctMr s 1
        [.server, .send 0 [3], .server, .client 0, .server, .land 0 2] 1 s' ∧
      run (Exchanges.step .distinctMr) s [.send 0 [3], .client 0, .land 0 2] = some s' := by
  obtain ⟨hpolling, hrecv, -⟩ := receive_atomic_iff 2
  refine ⟨⟨_, rfl, (hpolling .doorbell _ ⟨rfl, rfl⟩).2 (Or.inr ?_)⟩,
    ⟨_, rfl, (hrecv _ ⟨rfl, rfl, rfl⟩).2 ?_⟩, ?_⟩
  · rintro c ⟨m, -, hlook, -⟩
    have hbell := Polling.look_eq_some hlook
    by_cases hc : c = 0
    · rw [hc]; decide +kernel
    · exact absurd (Function.update_of_ne hc _ _) hbell
  · rintro c ⟨recv, qpn, connection, hp, hq, rfl⟩
    cases hp
    cases hq
    decide +kernel
  · refine ⟨_, _, rfl, ⟨by simp, _, 2, rfl, rfl, by decide, rfl⟩, ?_⟩
    have herased := (receive_atomic_iff 1).2.2
    exact herased _ [.server, .send 0 [3], .server, .client 0, .server, .land 0 2] 1 _
      ⟨by simp, _, 2, rfl, rfl, by decide, rfl⟩

/-- The server has room for one byte; the request of client 0 is lost. -/
theorem smallRoom_loses_request :
    (∃ s, run (Exchanges.step .doorbell) (Exchanges.init 16 1) oneRequest = some s ∧
      Exchanges.Between s ∧ ¬ (Exchanges.taking .doorbell).Atomic s 1) ∧
    ∃ s, run Recv.step (Recv.init 16) oneRequestQueued = some s ∧
      Recv.Between s ∧ ¬ Recv.taking.Atomic s 1 := by
  constructor
  · refine ⟨_, rfl, ⟨rfl, rfl⟩, ?_⟩
    rw [Exchanges.atomic_iff ⟨rfl, rfl⟩]
    rintro (hk | hfit)
    · cases hk
    · have hle := hfit 0
        ⟨0, by decide, by decide +kernel, fun j hj => absurd hj (Nat.not_lt_zero j)⟩
      revert hle
      decide +kernel
  · refine ⟨_, rfl, ⟨rfl, rfl, rfl⟩, ?_⟩
    rw [Recv.atomic_iff ⟨rfl, rfl, rfl⟩]
    intro hfit
    have hle := hfit 0 ⟨_, 7, 0, rfl, rfl, rfl⟩
    revert hle
    decide +kernel

end Multiclient

end L5RDMA
