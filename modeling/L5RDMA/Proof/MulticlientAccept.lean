/-
  A call of `accept` that throws.

  `accept_allOrNothing_iff`: the servers' `accept` is all-or-nothing exactly
  over the doorbell transport and for calls that do not get past the queue pair
  or do not throw.  Over the two others the connection stays in `connections`,
  and the next client gets the slot after its own.

  `erased`: accepts that are all-or-nothing and throw can be left out of a run.
  `accept_length_after`: the slots that are handed out are those of the
  connections that the calls leave behind.
-/
import L5RDMA.MulticlientAccept
import L5RDMA.Proof.MulticlientAtomic
import L5RDMA.Proof.MulticlientSlots

namespace L5RDMA

namespace Multiclient

open Run Fallible

/-! ## One call -/

/-- A call of `accept` that throws leaves everything as it was. -/
def AllOrNothing (t : Transport) (srv : Registry) (a : Attempt) : Prop :=
  a.thrown t srv ≠ none → a.after t srv = srv

/-- Nothing has been changed when `accept` throws. -/
def Harmless (t : Transport) (srv : Registry) (a : Attempt) : Prop :=
  t = .doorbell ∨ a.fails .tcpAccept ∨ a.fails .queuePair ∨
    ∀ c, .call c ∈ t.acceptOps srv a.client → a.fails c = false

section
variable {t : Transport} {srv : Registry} {a : Attempt}

theorem length_modify (clientId : ℕ) (f : Registered → Registered) (s : Registry) :
    (Registry.modify clientId f s).connections.length = s.connections.length :=
  List.length_modify ..

/-- The connection is registered after two calls, and the rest of `accept` does not take it
    out again. -/
structure Registers (t : Transport) (srv : Registry) (client : Newcomer)
    (fs : List (Registry → Registry)) (rest : List (Op Registry AcceptCall)) : Prop where
  ops : t.acceptOps srv client = [.tcpAccept, .queuePair].map .call ++ (fs.map .change ++ rest)
  registered :
    (fs.foldl (fun s f => f s) srv).connections.length = srv.connections.length + 1
  kept : ∀ g, .change g ∈ rest → ∀ s, (g s).connections.length = s.connections.length

theorem registers (ht : t ≠ .doorbell) (srv : Registry) (client : Newcomer) :
    ∃ fs rest, Registers t srv client fs rest := by
  cases t with
  | doorbell => exact absurd rfl ht
  | recv =>
    refine ⟨[_, _], _, rfl, by simp [Registry.emplaceBack], ?_⟩
    intro g hg s
    simp only [List.mem_cons, reduceCtorEq, Op.change.injEq, List.not_mem_nil, or_false,
      false_or] at hg
    rcases hg with rfl | rfl | rfl
    · rfl
    · exact length_modify ..
    · exact length_modify ..
  | distinctMr =>
    refine ⟨[_], _, rfl, by simp [Registry.emplaceBack], ?_⟩
    intro g hg s
    simp only [List.mem_cons, reduceCtorEq, Op.change.injEq, List.not_mem_nil, or_false,
      false_or] at hg
    rcases hg with rfl | rfl
    · exact length_modify ..
    · exact length_modify ..

/-- The state is seen to have changed after the first two calls. -/
theorem allOrNothing_registered (ht : t ≠ .doorbell) (srv : Registry) (a : Attempt) :
    AllOrNothing t srv a ↔ Harmless t srv a := by
  obtain ⟨fs, rest, hr⟩ := registers ht srv a.client
  have hiff : Fallible.AllOrNothing a.fails _ srv ↔ _ :=
    allOrNothing_iff (P := fun s => s.connections.length = srv.connections.length + 1)
      [.tcpAccept, .queuePair] fs (by simp) hr.registered
      (fun g hg s hs => (hr.kept g hg s).trans hs)
  rw [← hr.ops] at hiff
  refine hiff.trans ?_
  rw [Harmless, or_iff_right ht]
  simp [or_assoc]

theorem allOrNothing_iff_harmless (t : Transport) (srv : Registry) (a : Attempt) :
    AllOrNothing t srv a ↔ Harmless t srv a := by
  cases t with
  | doorbell =>
    refine iff_of_true ?_ (Or.inl rfl)
    let clientId := srv.connections.length
    let calls : List AcceptCall := [.tcpAccept, .queuePair, .queryAddress, .writeAddress,
      .readAddress, .writeReceiveAddr (Transport.doorbell.receiveAddr clientId), .readReceiveAddr,
      .writeDoorBellAddr (UInt64.ofNat clientId), .connect]
    exact allOrNothing_of_callsFirst calls
      [Registry.emplaceBack ⟨a.client.qpn, some a.client.receiveAddr, true⟩]
  | recv => exact allOrNothing_registered Transport.noConfusion srv a
  | distinctMr => exact allOrNothing_registered Transport.noConfusion srv a

/-! ## The other models of `accept` -/

/-- How far a call gets. -/
def Attempt.outcome (t : Transport) (srv : Registry) (a : Attempt) : Outcome :=
  if a.fails .tcpAccept ∨ a.fails .queuePair then .noConnection
  else if a.thrown t srv = none then .accepted
  else .noExchange

/-- The connection is there from the third call on. -/
theorem length_after_registered (ht : t ≠ .doorbell) (h₁ : a.fails .tcpAccept = false)
    (h₂ : a.fails .queuePair = false) :
    (a.after t srv).connections.length = srv.connections.length + 1 := by
  obtain ⟨fs, rest, hr⟩ := registers ht srv a.client
  have hcalls : ∀ c ∈ [AcceptCall.tcpAccept, .queuePair], a.fails c = false := by
    intro c hc
    rcases List.mem_pair.1 hc with rfl | rfl
    · exact h₁
    · exact h₂
  rw [Attempt.after, hr.ops, exec_calls_of_not hcalls, exec_changes]
  exact exec_keeps (P := fun s => s.connections.length = srv.connections.length + 1)
    (fun g hg s hs => (hr.kept g hg s).trans hs) hr.registered

theorem length_after_accepted (h : a.thrown t srv = none) :
    (a.after t srv).connections.length = srv.connections.length + 1 := by
  rw [Attempt.after, exec_of_not_thrown h]
  cases t <;> simp [Transport.acceptOps, MulticlientRDMATransportServer.acceptOps,
    MulticlientRDMARecvTransportServer.acceptOps,
    MulticlientRDMADistinctMrTransportServer.acceptOps, exec, Registry.emplaceBack, length_modify]

theorem after_of_fails (h : a.fails .tcpAccept ∨ a.fails .queuePair) : a.after t srv = srv := by
  have hmem : ∀ c ∈ [AcceptCall.tcpAccept, .queuePair], .call c ∈ t.acceptOps srv a.client := by
    cases t <;> simp [Transport.acceptOps, MulticlientRDMATransportServer.acceptOps,
      MulticlientRDMARecvTransportServer.acceptOps,
      MulticlientRDMADistinctMrTransportServer.acceptOps]
  refine (allOrNothing_iff_harmless t srv a).2 (Or.inr (h.imp_right Or.inl)) ?_
  rcases h with h | h
  · exact exec_throws_iff.2 ⟨_, hmem _ (by simp), h⟩
  · exact exec_throws_iff.2 ⟨_, hmem _ (by simp), h⟩

/-- A call leaves a connection behind if its outcome says so. -/
theorem length_after (t : Transport) (srv : Registry) (a : Attempt) :
    (a.after t srv).connections.length =
      srv.connections.length + if t.keeps (a.outcome t srv) then 1 else 0 := by
  unfold Attempt.outcome
  by_cases hfirst : a.fails .tcpAccept ∨ a.fails .queuePair
  · rw [if_pos hfirst, after_of_fails hfirst]
    rfl
  · rw [if_neg hfirst]
    by_cases hthrown : a.thrown t srv = none
    · rw [if_pos hthrown, length_after_accepted hthrown]
      rfl
    · rw [if_neg hthrown]
      rw [not_or, Bool.not_eq_true, Bool.not_eq_true] at hfirst
      cases t with
      | doorbell => rw [(allOrNothing_iff_harmless _ srv a).2 (Or.inl rfl) hthrown]; rfl
      | recv => exact length_after_registered Transport.noConfusion hfirst.1 hfirst.2
      | distinctMr => exact length_after_registered Transport.noConfusion hfirst.1 hfirst.2

/-- The server that hands out slots goes along. -/
theorem accept_length_after (a : Attempt) {acceptor : Acceptor}
    (h : srv.connections.length = acceptor.connections.length) :
    (a.after t srv).connections.length =
      (t.accept acceptor (a.outcome t srv)).connections.length := by
  rw [length_after, t.accept_eq, h]
  split_ifs <;> simp

theorem map_qpn_modify {f : Registered → Registered} (hf : ∀ con, (f con).qpn = con.qpn)
    (l : List Registered) (i : ℕ) :
    (l.modify i f).map (fun con => con.qpn) = l.map fun con => con.qpn := by
  ext j : 1
  rw [List.getElem?_map, List.getElem?_map, List.getElem?_modify]
  cases l[j]? with
  | none => rfl
  | some con =>
    by_cases hij : i = j
    · simp [hij, hf]
    · simp [hij]

/-- What a registry says of the server over the shared receive queue. -/
structure Recorded (s : Recv.State) (srv : Registry) : Prop where
  count : s.server.count = srv.connections.length
  qpns : s.qpns = srv.connections.map fun con => con.qpn
  map : s.qpnToConnection = srv.qpnToConnection
  posted : s.recv.posted = srv.posted

/-- The steps of an `accept` that does not throw. -/
theorem Recorded.accept {s : Recv.State} (h : Recorded s srv) (hs : Recv.Between s)
    (hq : a.client.qpn ∉ s.qpns) (ha : a.thrown .recv srv = none) :
    ∃ s', run Recv.step s [.accept a.client.qpn, .server, .server, .server] = some s' ∧
      Recorded s' (a.after .recv srv) := by
  obtain ⟨hacc, hpc, hsrv⟩ := hs
  rw [Attempt.after, exec_of_not_thrown ha]
  refine ⟨_, by
    simp only [run, Recv.step, hacc, hpc, hsrv,
      MulticlientRDMARecvTransportServer.acceptConnection, hq, if_false,
      MulticlientRDMARecvTransportServer.acceptStep]
    rfl, ?_, ?_, ?_, ?_⟩
  · have hlen := length_after_accepted ha
    rw [Attempt.after, exec_of_not_thrown ha] at hlen
    rw [hlen, ← h.count]
  · show s.qpns ++ [a.client.qpn] = List.map _ (List.modify (List.modify _ _ _) _ _)
    rw [map_qpn_modify (by intro con; rfl), map_qpn_modify (by intro con; rfl), h.qpns]
    simp [Registry.emplaceBack]
  · show Function.update s.qpnToConnection _ _ = Function.update srv.qpnToConnection _ _
    rw [h.map, h.count]
  · exact congrArg (· + 1) h.posted

end

/-! ## Runs of calls -/

/-- The calls of a run that do not throw. -/
def accepted (t : Transport) : Registry → List Attempt → List Attempt
  | _, [] => []
  | srv, a :: as =>
    if a.thrown t srv = none then a :: accepted t (a.after t srv) as
    else accepted t (a.after t srv) as

/-- The calls that throw can be left out. -/
theorem erased {t : Transport} {srv : Registry} {as : List Attempt}
    (h : Along (Attempt.step t) (AllOrNothing t) srv as) :
    run (Attempt.step t) srv as = run (Attempt.step t) srv (accepted t srv as) := by
  induction as generalizing srv with
  | nil => rfl
  | cons a as ih =>
    have hstep : Attempt.step t srv a = some (a.after t srv) := rfl
    rw [Along, hstep] at h
    obtain ⟨ha, has⟩ := h
    rw [run_cons hstep, accepted, ih has]
    split_ifs with hthrown
    · rw [run_cons hstep]
    · rw [ha hthrown]

/-- **`accept` is all-or-nothing** iff nothing has been changed when it throws; in a run of such
    calls, those that throw leave no trace, so that every client gets the slot that it would
    have without them. -/
theorem accept_allOrNothing_iff (t : Transport) :
    (∀ srv a, AllOrNothing t srv a ↔ Harmless t srv a) ∧
    ∀ attempts, Along (Attempt.step t) (Harmless t) .empty attempts →
      Along (Attempt.step t) (AllOrNothing t) .empty attempts ∧
      run (Attempt.step t) .empty attempts =
        run (Attempt.step t) .empty (accepted t .empty attempts) := by
  refine ⟨allOrNothing_iff_harmless t, ?_⟩
  intro attempts h
  have hall := h.imp fun srv a => (allOrNothing_iff_harmless t srv a).2
  exact ⟨hall, erased hall⟩

/-- The client of queue pair `qpn`; `call` throws. -/
def failsAt (qpn : UInt32) (call : AcceptCall) : Attempt where
  client := ⟨qpn, 0⟩
  fails := fun c => c = call

def failsNowhere (qpn : UInt32) : Attempt where
  client := ⟨qpn, 0⟩
  fails := fun _ => false

theorem accept_allOrNothing_doorbell :
    AllOrNothing .doorbell .empty (failsAt 7 .readAddress) ∧
      (run (Attempt.step .doorbell) .empty
        [failsAt 7 .readAddress, failsNowhere 8, failsAt 9 .connect]).map (fun srv =>
          srv.connections.map fun con => con.qpn) = some [8] := by
  obtain ⟨hiff, hrun⟩ := accept_allOrNothing_iff .doorbell
  refine ⟨(hiff _ _).2 (Or.inl rfl), ?_⟩
  rw [(hrun _ (along_of_forall fun a _ srv => Or.inl rfl)).2]
  rfl

/-- The client closes its connection in the handshake; it stays at the server. -/
theorem halfAccepted :
    ¬ AllOrNothing .recv .empty (failsAt 7 .readAddress) ∧
      ¬ AllOrNothing .distinctMr .empty (failsAt 7 .readAddress) ∧
      ((failsAt 7 .readAddress).after .recv .empty).posted = 1 ∧
      ((failsAt 7 .readAddress).after .distinctMr .empty).connections.length = 1 := by
  refine ⟨fun h => ?_, fun h => ?_, rfl, rfl⟩
  · have hsame := h (by decide)
    cases congrArg (fun srv => srv.connections.length) hsame
  · have hsame := h (by decide)
    cases congrArg (fun srv => srv.connections.length) hsame

end Multiclient

end L5RDMA
