/-
  How many completions the shared receive queue can have.

  There is a receive request for each connection, and each completion has
  consumed one.  The completion queue has `CQ_SIZE` entries, whatever the number
  of clients the server is made for: `completions_iff`, with at most `N`
  clients it never overflows iff `N` is at most `CQ_SIZE`.
-/
import L5RDMA.MulticlientRecv

namespace L5RDMA

namespace Multiclient

namespace Recv

open Run

/-- With at most `N` clients the completion queue has room. -/
def Fits (N : ℕ) (s : State) : Prop :=
  s.server.count ≤ N → s.recv.completions.length ≤ cqSize

/-! ## One request for each connection -/

/-- A connection in `accept` has no receive request yet, -/
def AcceptPc.away : AcceptPc → ℕ
  | .post => 1
  | _ => 0

/-- and one whose request is polled has none until it is posted again. -/
def TakePc.away : TakePc → ℕ
  | .post _ _ => 1
  | _ => 0

/-- The receive requests are at most as many as the connections. -/
def Bounded (s : State) : Prop := s.recv.size + s.acceptPc.away + s.pc.away ≤ s.server.count

section
variable {srv srv' : Server}

theorem count_step (hs : srv.step = some srv') : srv'.count = srv.count := by
  unfold Server.step at hs
  split at hs
  · cases hs
  · cases hs; rfl
  · split_ifs at hs
    cases hs; rfl

theorem count_complete (hs : srv.complete = some srv') : srv'.count = srv.count := by
  unfold Server.complete at hs
  split_ifs at hs
  cases hs; rfl

theorem count_land {c k : ℕ} (hs : srv.land c k = some srv') : srv'.count = srv.count := by
  simp only [Server.land] at hs
  split at hs
  · cases hs
  · split_ifs at hs <;> (cases hs; rfl)

theorem count_sendTo {maxMessageSize : UInt64} {c : ℕ} {data : List UInt8}
    (hs : sendTo maxMessageSize srv c data = some srv') : srv'.count = srv.count := by
  simp only [sendTo] at hs
  split_ifs at hs <;> (cases hs; rfl)

end

section
variable {s s' : State}

/-- A step of `receive`. -/
inductive ReceiveStep (s : State) : State → Prop
  | empty {maxSize : UInt64} (hpc : s.pc = .poll maxSize) (hpoll : s.recv.poll = none) :
      ReceiveStep s s
  | take {maxSize : UInt64} {q client : UInt32} {recv : Verbs.ReceiveQueue UInt32}
      (hpc : s.pc = .poll maxSize) (hpoll : s.recv.poll = some (q, recv))
      (hmap : s.qpnToConnection q = some client) :
      ReceiveStep s { s with recv := recv, pc := .post maxSize client.toNat }
  | unknown {maxSize : UInt64} {q : UInt32} {recv : Verbs.ReceiveQueue UInt32}
      (hpc : s.pc = .poll maxSize) (hpoll : s.recv.poll = some (q, recv))
      (hmap : s.qpnToConnection q = none) : ReceiveStep s { s with recv := recv, pc := .idle }
  | post {maxSize : UInt64} {c : ℕ} (hpc : s.pc = .post maxSize c) :
      ReceiveStep s { s with recv := s.recv.post, pc := .size maxSize c }
  | size {maxSize : UInt64} {c : ℕ} (hpc : s.pc = .size maxSize c) :
      ReceiveStep s { s with pc := .copy maxSize c (sizeWord (s.receives c)) }
  | throw {maxSize size : UInt64} {c : ℕ} (hpc : s.pc = .copy maxSize c size)
      (hmax : maxSize < size) : ReceiveStep s { s with pc := .idle, refused := s.refused ++ [c] }
  | deliver {maxSize size : UInt64} {c : ℕ} (hpc : s.pc = .copy maxSize c size) :
      ReceiveStep s
        { s with
          pc := .idle
          returned := s.returned ++ [(c, Mem.read id (s.receives c) 8 size.toNat)] }

theorem receiveStep_cases (hs : MulticlientRDMARecvTransportServer.receiveStep s = some s') :
    ReceiveStep s s' := by
  unfold MulticlientRDMARecvTransportServer.receiveStep at hs
  cases hpc : s.pc with
  | idle => rw [hpc] at hs; cases hs
  | poll maxSize =>
    simp only [hpc] at hs
    split at hs
    next hpoll => cases hs; exact .empty hpc hpoll
    next q recv hpoll =>
      split at hs
      next client hmap => cases hs; exact .take hpc hpoll hmap
      next hmap => cases hs; exact .unknown hpc hpoll hmap
  | post maxSize c =>
    simp only [hpc] at hs
    cases hs
    exact .post hpc
  | size maxSize c =>
    simp only [hpc] at hs
    cases hs
    exact .size hpc
  | copy maxSize c size =>
    simp only [hpc] at hs
    split_ifs at hs with hmax
    · cases hs
      exact .throw hpc hmax
    · cases hs
      exact .deliver hpc

theorem Bounded.fits {N : ℕ} (h : Bounded s) (hN : N ≤ cqSize) : Fits N s := by
  intro hcount
  unfold Bounded Verbs.ReceiveQueue.size at h
  omega

theorem Bounded.receive (h : Bounded s) (hs : ReceiveStep s s') : Bounded s' := by
  unfold Bounded at h ⊢
  cases hs with
  | empty => exact h
  | take hpc hpoll | unknown hpc hpoll =>
    have hsize := Verbs.ReceiveQueue.size_poll hpoll
    rw [hpc] at h
    simp only [TakePc.away] at h ⊢
    omega
  | post hpc =>
    rw [hpc] at h
    simp only [TakePc.away, Verbs.ReceiveQueue.size_post] at h ⊢
    omega
  | size hpc | throw hpc | deliver hpc => rw [hpc] at h; exact h

theorem Bounded.server (h : Bounded s) (hs : step s .server = some s') : Bounded s' := by
  unfold Bounded at h ⊢
  simp only [step] at hs
  split at hs
  next ha hp =>
    simp only [Option.map_eq_some_iff] at hs
    obtain ⟨server, hserver, rfl⟩ := hs
    rw [ha, hp] at h
    dsimp only
    rw [ha, hp, count_step hserver]
    exact h
  next => exact Bounded.receive h (receiveStep_cases hs)
  next =>
    unfold MulticlientRDMARecvTransportServer.acceptStep at hs
    split at hs
    next => cases hs
    next ha =>
      cases hs
      rw [ha] at h
      simp only [AcceptPc.away, Verbs.ReceiveQueue.size_post] at h ⊢
      omega
    next ha => cases hs; rw [ha] at h; exact h
    next ha => cases hs; rw [ha] at h; exact h

theorem Bounded.step {a : Act} (h : Bounded s) (hs : Recv.step s a = some s') : Bounded s' := by
  cases a with
  | accept qpn =>
    simp only [Recv.step] at hs
    split at hs
    next ha hp _ =>
      unfold MulticlientRDMARecvTransportServer.acceptConnection at hs
      split_ifs at hs
      cases hs
      unfold Bounded at h ⊢
      rw [ha] at h
      simp only [AcceptPc.away] at h ⊢
      omega
    next => cases hs
  | send c data | receive c maxSize =>
    simp only [Recv.step] at hs
    split at hs
    · split_ifs at hs
      cases hs; exact h
    · cases hs
  | client c =>
    simp only [Recv.step, Option.map_eq_some_iff] at hs
    obtain ⟨cl, -, rfl⟩ := hs
    exact h
  | completeAnswer =>
    simp only [Recv.step, Option.map_eq_some_iff] at hs
    obtain ⟨server, hserver, rfl⟩ := hs
    unfold Bounded at h ⊢
    rw [count_complete hserver]
    exact h
  | land c words =>
    simp only [Recv.step, land] at hs
    split at hs
    · split_ifs at hs
      · simp only [Option.map_eq_some_iff] at hs
        obtain ⟨recv, hrecv, rfl⟩ := hs
        unfold Bounded at h ⊢
        rw [Verbs.ReceiveQueue.size_arrive hrecv]
        exact h
      · cases hs; exact h
    · cases hs
  | complete c => simp only [Recv.step] at hs; split_ifs at hs; cases hs; exact h
  | serve maxSize =>
    simp only [Recv.step] at hs
    split at hs
    next ha hp _ => cases hs; unfold Bounded at h ⊢; rw [hp] at h; exact h
    next => cases hs
  | answer c data =>
    simp only [Recv.step] at hs
    split at hs
    · split_ifs at hs
      simp only [Option.map_eq_some_iff] at hs
      obtain ⟨server, hserver, rfl⟩ := hs
      unfold Bounded at h ⊢
      rw [count_sendTo hserver]
      exact h
    · cases hs
  | server => exact h.server hs
  | landAnswer c =>
    simp only [Recv.step, landAnswer] at hs
    split at hs
    · cases hs
    · simp only [Option.map_eq_some_iff] at hs
      obtain ⟨server, hserver, rfl⟩ := hs
      unfold Bounded at h ⊢
      rw [count_land hserver]
      exact h

end

/-! ## All clients ask before the server looks -/

/-- Client `n` is accepted and sends an empty request, which arrives. -/
def join (n : ℕ) : List Act :=
  [.accept (UInt32.ofNat n), .server, .server, .server, .send n [], .client n, .land n 1]

/-- The first `n` clients, one after the other. -/
def flood : ℕ → List Act
  | 0 => []
  | n + 1 => flood n ++ join n

/-- Each of `n` clients has asked, and the server has not looked. -/
structure Flooded (maxClients n : ℕ) (s : State) : Prop where
  maxClients : s.maxClients = maxClients
  qpns : s.qpns = (List.range n).map UInt32.ofNat
  count : s.server.count = n
  acceptPc : s.acceptPc = .idle
  pc : s.pc = .idle
  sendPc : s.server.pc = .idle
  posted : s.recv.posted = 0
  completions : s.recv.completions.length = n
  clients : ∀ c, n ≤ c → s.clients c = .init

theorem ofNat_fresh {n : ℕ} (hn : n < 2 ^ 32) :
    UInt32.ofNat n ∉ (List.range n).map UInt32.ofNat := by
  intro hmem
  obtain ⟨c, hc, he⟩ := List.mem_map.1 hmem
  have hc := List.mem_range.1 hc
  have := congrArg UInt32.toNat he
  rw [UInt32.toNat_ofNat', UInt32.toNat_ofNat', Nat.mod_eq_of_lt (by omega),
    Nat.mod_eq_of_lt (by omega)] at this
  omega

/-- A client that has put an empty request into `sendBuffer`. -/
theorem send_empty : ∃ m, MulticlientRDMARecvTransportClient.send .init [] =
    { Client.init with sendBuffer := m, pc := .post 8 } := by
  have hle : ¬ Pos.lengthOf [] + 8 > MulticlientRDMARecvTransportClient.maxMessageSize := by decide
  unfold MulticlientRDMARecvTransportClient.send
  dsimp only
  rw [if_neg hle]
  exact ⟨_, rfl⟩

/-- It posts the eight bytes of the size. -/
theorem sendStep_empty (m : Mem) :
    MulticlientRDMARecvTransportClient.sendStep []
        { Client.init with sendBuffer := m, pc := .post 8 } =
      some { Client.init with
        sendBuffer := m, pc := .poll 0, sq := [.data 0 (Mem.read id m 0 8)], sent := [[]] } :=
  rfl

theorem Flooded.join {maxClients n : ℕ} {s : State} (h : Flooded maxClients n s)
    (hmax : n < maxClients) (hn : n < 2 ^ 32) :
    ∃ s', run step s (join n) = some s' ∧ Flooded maxClients (n + 1) s' := by
  have hfresh : UInt32.ofNat n ∉ s.qpns := by rw [h.qpns]; exact ofNat_fresh hn
  have hlen : s.qpns.length = n := by rw [h.qpns, List.length_map, List.length_range]
  have hget : (s.qpns ++ [UInt32.ofNat n])[n]? = some (UInt32.ofNat n) := by
    rw [List.getElem?_append_right hlen.le, hlen, Nat.sub_self]; rfl
  obtain ⟨m, hm⟩ := send_empty
  have hidle : Client.init.pc = .idle ∧ Client.init.receiver.pc = .idle ∧
      Client.init.sent.length = Client.init.receiver.got.length := ⟨rfl, rfl, rfl⟩
  have hposted : s.recv.post.posted ≠ 0 := Nat.succ_ne_zero _
  refine ⟨_, by
    simp [Recv.join, run, step, h.acceptPc, h.pc, h.sendPc,
      MulticlientRDMARecvTransportServer.acceptConnection, hfresh,
      MulticlientRDMARecvTransportServer.acceptStep, h.clients n le_rfl, h.count, hidle, hm,
      sendStep_empty, land, hget, h.maxClients, hmax, Verbs.ReceiveQueue.arrive, hposted]
    rfl, ?_⟩
  refine ⟨rfl, ?_, rfl, rfl, rfl, rfl, ?_, ?_, ?_⟩
  · dsimp only
    rw [h.qpns, List.range_succ, List.map_append]; rfl
  · simp [Verbs.ReceiveQueue.post, h.posted]
  · simp [Verbs.ReceiveQueue.post, h.completions]
  · intro c hc
    dsimp only
    rw [Function.update_of_ne (by omega)]
    exact h.clients c (by omega)

theorem exists_flooded {maxClients n : ℕ} (hmax : n ≤ maxClients) (hn : n ≤ 2 ^ 32) :
    ∃ s, run step (init maxClients) (flood n) = some s ∧ Flooded maxClients n s := by
  induction n with
  | zero => exact ⟨_, rfl, rfl, rfl, rfl, rfl, rfl, rfl, rfl, rfl, fun _ _ => rfl⟩
  | succ n ih =>
    obtain ⟨s, hs, hflood⟩ := ih (by omega) (by omega)
    obtain ⟨s', hs', hflood'⟩ := hflood.join (by omega) (by omega)
    exact ⟨s', (run_append hs _).trans hs', hflood'⟩

/-- One client too many. -/
theorem exists_not_fits {maxClients N : ℕ} (hmax : N ≤ maxClients) (hN : cqSize < N) :
    ∃ acts, ¬ AllStates step (Fits N) (init maxClients) acts := by
  obtain ⟨n, hn, hnN, hsmall⟩ : ∃ n, cqSize < n ∧ n ≤ N ∧ n ≤ 2 ^ 32 :=
    ⟨cqSize + 1, by omega, by omega, by norm_num [cqSize]⟩
  obtain ⟨s, hs, hflood⟩ := exists_flooded (hnN.trans hmax) hsmall
  refine ⟨flood n, ?_⟩
  intro h
  have hfits : Fits N s := h.last hs
  have hle := hfits (by rw [hflood.count]; exact hnN)
  rw [hflood.completions] at hle
  omega

/-- **With at most `N` clients the completion queue never overflows** iff `N` is at most
    `CQ_SIZE`. -/
theorem completions_iff {maxClients N : ℕ} (h : N ≤ maxClients) :
    (∀ acts, AllStates step (Fits N) (init maxClients) acts) ↔ N ≤ cqSize := by
  constructor
  · intro hall
    by_contra hN
    obtain ⟨acts, hacts⟩ := exists_not_fits h (by omega)
    exact hacts (hall acts)
  · intro hN acts
    exact allStates_of_inv (I := Bounded) (fun _ hb => hb.fits hN) (fun _ _ _ hb hs => hb.step hs)
      acts (Nat.zero_le _)

/-- A server made for 256 clients, of which it accepts a hundred. -/
theorem completions_hundred :
    100 ≤ 256 ∧ ((∀ acts, AllStates step (Fits 100) (init 256) acts) ↔ 100 ≤ cqSize) ∧
      ∀ acts, AllStates step (Fits 100) (init 256) acts := by
  have h := completions_iff (by decide : 100 ≤ 256)
  exact ⟨by decide, h, h.2 le_rfl⟩

/-- The first 101 of its clients ask before it looks. -/
theorem flood_overflows : ¬ ∀ acts, AllStates step (Fits 256) (init 256) acts := by
  intro h
  obtain ⟨acts, hacts⟩ := exists_not_fits (le_refl 256) (by decide)
  exact hacts (h acts)

end Recv

end Multiclient

end L5RDMA
