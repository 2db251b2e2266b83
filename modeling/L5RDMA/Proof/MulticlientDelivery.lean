/-
  What the clients and a polling server can rely on.

  `Right`: the exchanges are exact, no request and no answer is lost, and each
  comes out at the other side without further help.

  `State.Ok.step`: the invariant `State.Ok` is kept by every step in which the
  server finds only requests that have arrived and were not returned.
  `State.Ok.right`: it gives `Right` where the signs in the server's memory are
  those of such requests.
-/
import L5RDMA.Proof.MulticlientSteps

namespace L5RDMA

namespace Multiclient

open Run Verbs Exchange
open Pos (lengthOf)

namespace Exchanges

/-! ## What is right -/

/-- Nothing is lost, duplicated, changed or given to the wrong client. -/
structure Right (k : Polling) (s : State) : Prop where
  /-- what the server's `receive` returns under the id of a client are the requests of
      that client, and what a client's `receive` returns are the answers to them -/
  exact : ∀ c, (s.log c).Exact
  ids : ∀ r ∈ s.slots.returned, r.1 < s.slots.count
  /-- a request that has left the client was returned, is in the hands of the server, or
      is announced -/
  requestKept : ∀ c, (s.clients c).pc = .idle → (s.clients c).sq = [] →
    s.slots.pc.sender ≠ some c → ¬ Announced k s.slots c → s.delivered c = (s.clients c).sent
  /-- an answer that has left the server was returned, or its size is there -/
  answerKept : ∀ c, frames s.server c = [] →
    sizeWord (s.clients c).receiver.receiveBuffer = 0 → (s.clients c).receiver.got = s.answers c
  /-- while a request is announced, the server returns one on its own -/
  serves : ∀ maxSize i c, s.slots.pc = .poll maxSize i → Announced k s.slots c →
    (∀ d r, (s.clients d).sent = s.delivered d ++ [r] → r.length ≤ maxSize.toNat) →
    ∃ n d r s', run (step k) s (List.replicate n .server) = some s' ∧
      (s.clients d).sent = s.delivered d ++ [r] ∧
      s'.slots.returned = s.slots.returned ++ [(d, r)]
  /-- an answer that has arrived is returned in one iteration of the client's loop -/
  returns : ∀ maxSize c a, (s.clients c).pc = .idle → (s.clients c).receiver.pc = .size maxSize →
    frames s.server c = [] → s.answers c = (s.clients c).receiver.got ++ [a] →
    a.length ≤ maxSize.toNat →
    ∃ s', run (step k) s (List.replicate 4 (.client c)) = some s' ∧
      (s'.clients c).receiver.got = s.answers c

/-! ## The invariant -/

structure State.Ok (k : Polling) (s : State) : Prop where
  base : Base s
  inlined : Inlined s.server
  ok : ∀ c, ∃ stage, (view k s c).Ok k stage

section
variable {k : Polling} {s s' : State} {a : Act} {c : ℕ}

theorem State.Ok.sent_nil (h : s.Ok k) (hc : s.server.count ≤ c) :
    (view k s c).Ok k .quiet := by
  obtain ⟨stage, hok⟩ := h.ok c
  obtain rfl := hok.log.quiet_of_nil (h.base.accepted c hc)
  exact hok

theorem State.Ok.delivered_nil (h : s.Ok k) (hc : s.server.count ≤ c) : s.delivered c = [] :=
  (h.sent_nil hc).log.1.trans (h.base.accepted c hc)

/-- A client that has asked was accepted. -/
theorem State.Ok.lt_count (h : s.Ok k) (hw : (view k s c).Waiting) : c < s.slots.count := by
  by_contra hc
  have hlen := hw.2
  have hnil : (view k s c).log.sent = [] := h.base.accepted c (by rw [← h.base.count]; omega)
  rw [hnil] at hlen
  exact absurd hlen (Nat.not_lt_zero _)

theorem State.Ok.init (k : Polling) (maxClients count : ℕ) : (init maxClients count).Ok k where
  base :=
    { asking := fun c n he => by cases he
      count := rfl
      accepted := fun c _ => rfl }
  inlined := ⟨inv_init count, fun c p hp => (by cases hp), fun c n frame he => (by cases he)⟩
  ok := fun c =>
    ⟨.quiet, ⟨rfl, rfl, rfl⟩, rfl, ⟨rfl, rfl⟩, ⟨rfl, fun i _ => rfl, Or.inl rfl⟩⟩

theorem State.Ok.step_view (h : s.Ok k) (hadm : Admitted k a)
    (hs : Exchanges.step k s a = some s') : Base s' ∧ ∀ c, view k s' c = view k s c ∨
      Move True k (looked k s.slots) c a (view k s c) (view k s' c) :=
  Exchanges.step_view h.base (fun _ => h.inlined) (fun _ hc => h.delivered_nil hc) hadm.requested hs

/-- **A step keeps the invariant** if the request that the server finds has arrived and
    was not returned. -/
theorem State.Ok.step (h : s.Ok k) (hadm : Admitted k a)
    (hfind : ∀ c, a = .server → looked k s.slots = some c → (view k s c).Waiting)
    (hs : Exchanges.step k s a = some s') : s'.Ok k := by
  obtain ⟨hbase, hview⟩ := h.step_view hadm hs
  refine ⟨hbase, step_inlined h.inlined (fun c hc => h.delivered_nil hc) hadm hs, ?_⟩
  intro c
  obtain ⟨stage, hok⟩ := h.ok c
  rcases hview c with heq | hm
  · rw [heq]; exact ⟨stage, hok⟩
  · exact hm.ok hok hadm (fun ha hl => hfind c ha hl)

/-- Nobody is accepted any more. -/
theorem step_frame (hs : Exchanges.step k s a = some s') :
    s'.slots.count = s.slots.count ∧ s'.slots.maxClients = s.slots.maxClients := by
  cases a with
  | server =>
    simp only [Exchanges.step] at hs
    split at hs
    · obtain ⟨srv, -, rfl⟩ := Option.map_eq_some_iff.1 hs; exact ⟨rfl, rfl⟩
    · obtain ⟨slots, hslots, rfl⟩ := Option.map_eq_some_iff.1 hs
      exact Polling.receiveStep_frame hslots
  | land c words =>
    simp only [Exchanges.step, land] at hs
    split at hs <;> cases hs <;> exact ⟨rfl, rfl⟩
  | landAnswer c =>
    simp only [Exchanges.step, landAnswer] at hs
    split at hs
    · cases hs
    · obtain ⟨srv, -, rfl⟩ := Option.map_eq_some_iff.1 hs; exact ⟨rfl, rfl⟩
  | client | completeAnswer =>
    simp only [Exchanges.step] at hs
    obtain ⟨_, -, rfl⟩ := Option.map_eq_some_iff.1 hs; exact ⟨rfl, rfl⟩
  | answer c data =>
    simp only [Exchanges.step] at hs
    split at hs
    · split_ifs at hs
      obtain ⟨srv, -, rfl⟩ := Option.map_eq_some_iff.1 hs; exact ⟨rfl, rfl⟩
    · cases hs
  | complete c =>
    simp only [Exchanges.step] at hs
    split_ifs at hs
    cases hs; exact ⟨rfl, rfl⟩
  | serve maxSize =>
    simp only [Exchanges.step] at hs
    split at hs <;> cases hs
    exact ⟨rfl, rfl⟩
  | send | receive =>
    simp only [Exchanges.step] at hs
    split at hs
    · split_ifs at hs
      cases hs; exact ⟨rfl, rfl⟩
    · cases hs

/-! ## Nothing is lost -/

theorem mem_delivered {r : ℕ × List UInt8} (hr : r ∈ s.slots.returned) : r.2 ∈ s.delivered r.1 :=
  List.mem_map.2 ⟨r, List.mem_filter.2 ⟨hr, by simp⟩, rfl⟩

theorem State.Ok.ids (h : s.Ok k) : ∀ r ∈ s.slots.returned, r.1 < s.slots.count := by
  intro r hr
  by_contra hc
  have hmem := mem_delivered hr
  rw [h.delivered_nil (by rw [← h.base.count]; omega)] at hmem
  cases hmem

/-- Where a request is that was not returned. -/
theorem State.Ok.requestKept (h : s.Ok k)
    (hann : (view k s c).Waiting → s.slots.pc.sender ≠ some c → Announced k s.slots c)
    (hpc : (s.clients c).pc = .idle) (hsq : (s.clients c).sq = [])
    (hheld : s.slots.pc.sender ≠ some c) (hquiet : ¬ Announced k s.slots c) :
    s.delivered c = (s.clients c).sent := by
  obtain ⟨stage, hok⟩ := h.ok c
  have hscript : (view k s c).script = [] := by simp [view, requestScript, unposted, hpc, hsq]
  have hpre := hok.log.exact.delivered
  refine hpre.eq_of_length (Nat.le_antisymm hpre.length_le ?_)
  by_contra hlt
  exact hquiet (hann ⟨hscript, by omega⟩ hheld)

/-- Where an answer is that was not returned. -/
theorem State.Ok.answerKept (h : s.Ok k) (hframes : frames s.server c = [])
    (hsize : sizeWord (s.clients c).receiver.receiveBuffer = 0) :
    (s.clients c).receiver.got = s.answers c := by
  obtain ⟨stage, hok⟩ := h.ok c
  cases stage with
  | quiet | asked | served => exact hok.log.2.1
  | answered data =>
    obtain ⟨hd, ⟨hf, -⟩ | ⟨-, ha⟩⟩ := hok.reply
    · have hf : frames s.server c = [answerFrame data] := hf
      rw [hframes] at hf; cases hf
    · exact absurd hsize (ha.size_ne hd)

/-! ## Each side gets what has arrived -/

/-- A waiting request is the last one of its client, and it is in its slot. -/
theorem State.Ok.waiting (h : s.Ok k) (hw : (view k s c).Waiting) :
    ∃ r, RequestOk k r ∧ (s.clients c).sent = s.delivered c ++ [r] ∧
      Holds (s.slots.receives c) (requestFrame r) := by
  obtain ⟨stage, hok⟩ := h.ok c
  obtain ⟨r, rfl⟩ := hok.log.asked hw.2
  obtain ⟨hr, -, -, hslot⟩ := hok.ask.arrived_of_nil hw.1
  exact ⟨r, hr, hok.log.1, hslot⟩

/-- The server alone, while it is in `receive`. -/
theorem run_server {n : ℕ} {slots : Slots}
    (hr : run k.serveStep s.slots (List.replicate n ()) = some slots) :
    run (Exchanges.step k) s (List.replicate n .server) = some { s with slots := slots } := by
  refine run_lift (fun slots => { s with slots := slots }) (fun slots slots' hs => ?_) hr
  have hs : k.receiveStep slots = some slots' := hs
  have hne : slots.pc ≠ .idle := (Polling.receiveStep_cases hs).not_idle
  simp only [Exchanges.step, hs, Option.map_some]

def State.setReceiver (s : State) (c : ℕ) (receiver : Receiver) : State :=
  { s with clients := Function.update s.clients c { s.clients c with receiver := receiver } }

theorem State.receiver_setReceiver (s : State) (c : ℕ) (receiver : Receiver) :
    ((s.setReceiver c receiver).clients c).receiver = receiver := by
  simp [State.setReceiver]

/-- A client alone, while it is in `receive`. -/
theorem run_client (hpc : (s.clients c).pc = .idle) {n : ℕ} {receiver : Receiver}
    (hr : run (Receiver.step k.transport.rereads) (s.clients c).receiver (List.replicate n ()) =
      some receiver) :
    run (Exchanges.step k) s (List.replicate n (.client c)) = some (s.setReceiver c receiver) := by
  have hput : ∀ r r', Receiver.step k.transport.rereads r () = some r' →
      Exchanges.step k (s.setReceiver c r) (.client c) = some (s.setReceiver c r') := by
    intro r r' hs
    have hs : receiveStep k.transport.rereads r = some r' := hs
    simp only [Exchanges.step, State.setReceiver, Function.update_self, Function.update_idem, hpc,
      Transport.receiveStep_eq, hs, Option.map_some]
  have hlift := run_lift (s.setReceiver c) hput hr
  rwa [State.setReceiver, Function.update_eq_self] at hlift

theorem State.Ok.serves (h : s.Ok k) (hroom : s.slots.count ≤ k.bound s.slots)
    (hann : ∀ d, Announced k s.slots d → (view k s d).Waiting) {maxSize : UInt64} {i : ℕ}
    (hpc : s.slots.pc = .poll maxSize i) (hc : Announced k s.slots c)
    (hmax : ∀ d r, (s.clients d).sent = s.delivered d ++ [r] → r.length ≤ maxSize.toNat) :
    ∃ n d r s', run (Exchanges.step k) s (List.replicate n .server) = some s' ∧
      (s.clients d).sent = s.delivered d ++ [r] ∧
      s'.slots.returned = s.slots.returned ++ [(d, r)] := by
  have hsize : ∀ d, Announced k s.slots d → sizeWord (s.slots.receives d) ≤ maxSize := by
    intro d hd
    obtain ⟨r, hr, hsent, hslot⟩ := h.waiting (hann d hd)
    rw [hslot.size, UInt64.le_iff_toNat_le, hr.toNat]
    exact hmax d r hsent
  obtain ⟨n, d, slots, hrun, hd, hret⟩ := Polling.exists_returned hc
    ((h.lt_count (hann c hc)).trans_le hroom) hpc hsize
  obtain ⟨r, hr, hsent, hslot⟩ := h.waiting (hann d hd)
  rw [hslot.size, hr.toNat, hslot.bytes] at hret
  exact ⟨n, d, r, _, run_server hrun, hsent, hret⟩

theorem State.Ok.returns (h : s.Ok k) {maxSize : UInt64} {a : List UInt8}
    (hpc : (s.clients c).pc = .idle) (hrpc : (s.clients c).receiver.pc = .size maxSize)
    (hframes : frames s.server c = [])
    (ha : s.answers c = (s.clients c).receiver.got ++ [a]) (hmax : a.length ≤ maxSize.toNat) :
    ∃ s', run (Exchanges.step k) s (List.replicate 4 (.client c)) = some s' ∧
      (s'.clients c).receiver.got = s.answers c := by
  obtain ⟨stage, hok⟩ := h.ok c
  obtain rfl := hok.log.answered ha
  obtain ⟨hd, ⟨hf, -⟩ | ⟨-, hthere⟩⟩ := hok.reply
  · have hf : frames s.server c = [answerFrame a] := hf
    rw [hframes] at hf; cases hf
  · obtain ⟨receiver, hr, hgot⟩ := hthere.run hd k.transport.rereads hrpc hmax
    refine ⟨_, run_client hpc hr, ?_⟩
    rw [State.receiver_setReceiver, ha]
    exact hgot

/-- **What the clients and the server can rely on** follows from the invariant, where the
    signs are those of requests that have arrived and were not returned. -/
theorem State.Ok.right (h : s.Ok k) (hroom : s.slots.count ≤ k.bound s.slots)
    (hann : ∀ c, Announced k s.slots c → (view k s c).Waiting)
    (hsign : ∀ c, (view k s c).Waiting → s.slots.pc.sender ≠ some c → Announced k s.slots c) :
    Right k s where
  exact := fun c => let ⟨_, hok⟩ := h.ok c; hok.log.exact
  ids := h.ids
  requestKept := fun c => h.requestKept (hsign c)
  answerKept := fun _ => h.answerKept
  serves := fun _ _ _ => h.serves hroom hann
  returns := fun _ _ _ => h.returns

end

end Exchanges

end Multiclient

end L5RDMA
