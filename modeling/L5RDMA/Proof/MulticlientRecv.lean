/-
  Request and response over a shared receive queue.

  The exchange of each client is right (`View.Ok`); what concerns all of them
  is that there is a receive request for each connection (`Pooled`).

  `right_of_inline`: the requests posted, the completions not polled and the
  one that the server is about to post are together as many as the
  connections, every request that arrives finds a receive request, and nothing
  is lost, duplicated, changed or given to the wrong client.  A request is
  refused when it has more bytes than the `receive` that takes it allows.
-/
import Mathlib.Data.Fintype.Card
import L5RDMA.Proof.MulticlientRecvView

namespace L5RDMA

namespace Multiclient

open Run Verbs Exchange
open Pos (lengthOf)

namespace Recv

open Exchanges (frames frames_send frames_step frames_land frames_complete AnswerOk Inlined)

/-! ## All clients -/

/-- The connection whose receive request the server is about to post. -/
def State.away (s : State) : Option UInt32 :=
  match s.acceptPc, s.pc with
  | .post, _ => s.qpns.getLast?
  | _, .post _ client => s.qpns[client]?
  | _, _ => none

/-- While the server is in `accept`, the last client does not know its addresses. -/
def HandedOk (count handed : ℕ) : AcceptPc → Prop
  | .idle | .connect => handed = count
  | .post | .exchange => handed + 1 = count

structure Base (s : State) : Prop where
  server : Inlined s.server
  count : s.server.count = s.qpns.length
  nodup : s.qpns.Nodup
  map : ∀ c q, s.qpns[c]? = some q → s.qpnToConnection q = some (UInt32.ofNat c)
  handed : HandedOk s.server.count s.handed s.acceptPc
  connected : s.connected ≤ s.server.count
  accepted : ∀ c, s.handed ≤ c → (s.clients c).sent = [] ∧ (s.clients c).pc = .idle
  pooled : s.recv.Pooled s.qpns s.away.toList
  single : s.acceptPc = .idle ∨ s.pc = .idle

structure Inv (s : State) : Prop where
  base : Base s
  ok : ∀ c, ∃ stage, (view s c).Ok stage

section
variable {s s' : State} {c c' : ℕ} {q : UInt32}

theorem Base.eq_of_qpn (h : Base s) (hq : s.qpns[c]? = some q) (hq' : s.qpns[c']? = some q) :
    c = c' :=
  (List.getElem?_inj (List.getElem?_eq_some_iff.1 hq).1 h.nodup).1 (hq.trans hq'.symm)

/-- There are only so many queue pair numbers, so the number of a connection fits. -/
theorem Base.toNat_connection (h : Base s) (hq : s.qpns[c]? = some q) :
    (UInt32.ofNat c).toNat = c := by
  have hle : s.qpns.length ≤ 2 ^ 32 := by
    have hinj : Function.Injective fun i : Fin s.qpns.length =>
        (⟨s.qpns[i].toNat, UInt32.toNat_lt _⟩ : Fin (2 ^ 32)) := by
      intro i j hij
      have hij := congrArg Fin.val hij
      dsimp only at hij
      have he : s.qpns[i] = s.qpns[j] := UInt32.toNat_inj.1 hij
      exact Fin.ext ((List.Nodup.getElem_inj_iff h.nodup).1 he)
    simpa using Fintype.card_le_of_injective _ hinj
  have := (List.getElem?_eq_some_iff.1 hq).1
  rw [UInt32.toNat_ofNat', Nat.mod_eq_of_lt (by omega)]

theorem Base.handed_le (h : Base s) : s.handed ≤ s.server.count := by
  have hh := h.handed
  cases ha : s.acceptPc with
  | idle | connect => rw [ha] at hh; exact hh.le
  | post | exchange => rw [ha] at hh; exact Nat.le_of_succ_le hh.le

/-- A client that has asked has been told its addresses. -/
theorem Inv.lt_handed (h : Inv s) {stage : Stage (List UInt8)} (hok : (view s c).Ok stage)
    (hne : stage ≠ .quiet) : c < s.handed := by
  by_contra hc
  exact hne (hok.log.quiet_of_nil (h.base.accepted c (by omega)).1)

theorem Inv.qpn (h : Inv s) (hc : c < s.handed) : ∃ q, s.qpns[c]? = some q := by
  have := h.base.handed_le
  have := h.base.count
  exact ⟨_, List.getElem?_eq_getElem (by omega)⟩

theorem held_of_ne {pc : TakePc} (h : pc.client ≠ some c) : held pc c = .idle := if_neg h

theorem held_of_eq {pc : TakePc} (h : pc.client = some c) : held pc c = pc := if_pos h

/-- **A request that arrives finds a receive request**: neither is its completion in the
    queue, nor is its connection the one that has none. -/
theorem Inv.not_mem (h : Inv s) (hsq : (s.clients c).sq ≠ []) (hq : s.qpns[c]? = some q) :
    q ∉ s.recv.completions ++ s.away.toList := by
  obtain ⟨stage, hok⟩ := h.ok c
  obtain ⟨data, rfl, -, hnot, hheld, -⟩ := hok.travelling hsq
  have hlt := h.lt_handed hok (fun he => by cases he)
  have hhanded := h.base.handed
  intro hmem
  rcases List.mem_append.1 hmem with hmem | hmem
  · exact hnot ⟨q, hq, hmem⟩
  · rw [Option.mem_toList] at hmem
    unfold State.away at hmem
    have hheld' : held s.pc c = .idle := hheld
    cases ha : s.acceptPc with
    | post =>
      -- the last connection, which is not this one
      rw [ha] at hhanded hmem
      dsimp only at hmem
      rw [List.getLast?_eq_getElem?] at hmem
      have := h.base.eq_of_qpn hq hmem
      have := h.base.count
      unfold HandedOk at hhanded
      omega
    | idle | exchange | connect =>
      rw [ha] at hmem
      cases hp : s.pc with
      | post maxSize client =>
        rw [hp] at hmem hheld'
        obtain rfl := h.base.eq_of_qpn hq hmem
        rw [held_of_eq rfl] at hheld'
        cases hheld'
      | idle | poll | size | copy => rw [hp] at hmem; cases hmem

theorem Inv.posted_pos (h : Inv s) (hsq : (s.clients c).sq ≠ []) : 0 < s.recv.posted := by
  obtain ⟨stage, hok⟩ := h.ok c
  obtain ⟨data, rfl, -⟩ := hok.travelling hsq
  obtain ⟨q, hq⟩ := h.qpn (h.lt_handed hok fun he => by cases he)
  exact h.base.pooled.posted_pos (List.mem_of_getElem? hq) (h.not_mem hsq hq)

/-! ## The steps -/

/-- One client is concerned. -/
theorem Inv.one (h : Inv s) (hb : Base s') (c : ℕ) (hne : ∀ c', c' ≠ c → view s' c' = view s c')
    (hc : ∃ stage, (view s' c).Ok stage) : Inv s' := by
  refine ⟨hb, ?_⟩
  intro c'
  by_cases hcc : c' = c
  · rw [hcc]; exact hc
  · rw [hne c' hcc]; exact h.ok c'

/-- Only a client changes. -/
theorem Inv.client (h : Inv s) (asking : List UInt8) {cl : Client}
    (hacc : s.handed ≤ c → cl.sent = [] ∧ cl.pc = .idle)
    (hok : ∃ stage, View.Ok { view s c with client := cl, asking := asking } stage) :
    Inv { s with
      clients := Function.update s.clients c cl
      asking := Function.update s.asking c asking } := by
  have hb := h.base
  refine h.one { hb with accepted := ?_ } c ?_ ?_
  · intro c' hc'
    by_cases hcc : c' = c
    · subst hcc; simpa using hacc hc'
    · simpa [hcc] using hb.accepted c' hc'
  · intro c' hcc
    simp [view, State.delivered, State.queued, hcc]
  · simpa [view, State.delivered, State.queued] using hok

theorem Inv.client' (h : Inv s) {cl : Client} (hacc : s.handed ≤ c → cl.sent = [] ∧ cl.pc = .idle)
    (hok : ∃ stage, View.Ok { view s c with client := cl } stage) :
    Inv { s with clients := Function.update s.clients c cl } := by
  have hi := h.client (s.asking c) hacc hok
  rwa [Function.update_eq_self] at hi

/-- A new queue pair has a number of its own, so that no completion is its. -/
theorem Base.queued_append (h : Base s) (hq : q ∉ s.qpns) (c : ℕ) :
    (∃ q', (s.qpns ++ [q])[c]? = some q' ∧ q' ∈ s.recv.completions) = s.queued c := by
  refine propext ⟨?_, ?_⟩
  · rintro ⟨q', hq', hmem⟩
    rcases Nat.lt_or_ge c s.qpns.length with hc | hc
    · rw [List.getElem?_append_left hc] at hq'
      exact ⟨q', hq', hmem⟩
    · rw [List.getElem?_append_right hc] at hq'
      obtain rfl := List.mem_singleton.1 (List.mem_of_getElem? hq')
      exact absurd (h.pooled.mem q' (List.mem_append_left _ hmem)) hq
  · rintro ⟨q', hq', hmem⟩
    refine ⟨q', ?_, hmem⟩
    rw [List.getElem?_append_left (List.getElem?_eq_some_iff.1 hq').1, hq']

theorem inlined_join {srv : Server} (h : Inlined srv) (hpc : srv.pc = .idle) :
    Inlined { srv with count := srv.count + 1 } where
  inv :=
    { h.inv with
      accepted := fun c hc => h.inv.accepted c (Nat.le_of_succ_le hc)
      send := by dsimp only; rw [hpc]; trivial }
  posted := h.posted
  posting := h.posting

theorem Inv.accept (h : Inv s) (hs : step s (.accept q) = some s') : Inv s' := by
  have hb := h.base
  simp only [step] at hs
  split at hs
  next ha hp hsp =>
    unfold MulticlientRDMARecvTransportServer.acceptConnection at hs
    split_ifs at hs with hq
    cases hs
    have hhanded := hb.handed
    rw [ha] at hhanded
    have hpooled := hb.pooled
    have haway : s.away = none := by unfold State.away; rw [ha, hp]
    rw [haway] at hpooled
    constructor
    · refine
        { server := inlined_join hb.server hsp, count := ?_, nodup := ?_, map := ?_, handed := ?_
          connected := ?_, accepted := hb.accepted, pooled := ?_, single := Or.inr hp }
      · dsimp only
        rw [List.length_append, List.length_singleton, hb.count]
      · exact List.nodup_append_comm.1 (List.nodup_cons.2 ⟨hq, hb.nodup⟩)
      · intro c q' hq'
        dsimp only at hq' ⊢
        rcases Nat.lt_or_ge c s.qpns.length with hc | hc
        · rw [List.getElem?_append_left hc] at hq'
          have hne : q' ≠ q := by
            rintro rfl
            exact hq (List.mem_of_getElem? hq')
          rw [Function.update_of_ne hne]
          exact hb.map c q' hq'
        · have hlt := (List.getElem?_eq_some_iff.1 hq').1
          rw [List.length_append, List.length_singleton] at hlt
          rw [List.getElem?_append_right hc] at hq'
          obtain rfl := List.mem_singleton.1 (List.mem_of_getElem? hq')
          have hcount := hb.count
          rw [Function.update_self, show c = s.server.count by omega]
      · unfold HandedOk at hhanded
        exact congrArg Nat.succ hhanded
      · exact hb.connected.trans (Nat.le_succ _)
      · have haway' : State.away { s with
            qpns := s.qpns ++ [q]
            qpnToConnection :=
              Function.update s.qpnToConnection q (some (UInt32.ofNat s.server.count))
            server := { s.server with count := s.server.count + 1 }
            acceptPc := .post } = some q := by
          simp [State.away]
        rw [haway']
        exact hpooled.join hq
    · intro c
      obtain ⟨stage, hok⟩ := h.ok c
      refine ⟨stage, ?_⟩
      have hq' := hb.queued_append hq c
      unfold view State.queued at hok ⊢
      dsimp only
      rw [hq']
      exact hok
  next => cases hs

/-- A step of `accept` concerns no client's exchange. -/
theorem Inv.acceptStep (h : Inv s) (hp : s.pc = .idle)
    (hs : MulticlientRDMARecvTransportServer.acceptStep s = some s') : Inv s' := by
  have hb := h.base
  have hhanded := hb.handed
  have hpooled := hb.pooled
  unfold MulticlientRDMARecvTransportServer.acceptStep at hs
  cases ha : s.acceptPc with
  | idle => rw [ha] at hs; cases hs
  | post =>
    simp only [ha] at hs
    cases hs
    rw [ha] at hhanded
    have haway : s.away = s.qpns.getLast? := by unfold State.away; rw [ha]
    rw [haway] at hpooled
    refine ⟨{ hb with handed := hhanded, pooled := ?_, single := Or.inr hp }, h.ok⟩
    have hne : s.qpns ≠ [] := by
      intro hnil
      have := hb.count
      rw [hnil, List.length_nil] at this
      unfold HandedOk at hhanded
      omega
    rw [List.getLast?_eq_some_getLast hne] at hpooled
    have haway' : State.away { s with recv := s.recv.post, acceptPc := .exchange } = none := by
      simp only [State.away, hp]
    rw [haway']
    exact hpooled.post
  | exchange =>
    simp only [ha] at hs
    cases hs
    rw [ha] at hhanded
    have haway : s.away = none := by unfold State.away; rw [ha, hp]
    rw [haway] at hpooled
    refine ⟨{ hb with handed := rfl, accepted := ?_, pooled := ?_, single := Or.inr hp }, h.ok⟩
    · intro c hc
      unfold HandedOk at hhanded
      exact hb.accepted c (by dsimp only at hc; omega)
    · have haway' :
          State.away { s with handed := s.server.count, acceptPc := .connect } = none := by
        simp only [State.away, hp]
      rw [haway']
      exact hpooled
  | connect =>
    simp only [ha] at hs
    cases hs
    rw [ha] at hhanded
    have haway : s.away = none := by unfold State.away; rw [ha, hp]
    rw [haway] at hpooled
    have hconnected : s.server.count ≤ s.server.count := le_rfl
    refine
      ⟨{ hb with handed := hhanded, connected := hconnected, pooled := ?_, single := Or.inl rfl },
        h.ok⟩
    have haway' : State.away { s with connected := s.server.count, acceptPc := .idle } = none := by
      simp only [State.away, hp]
    rw [haway']
    exact hpooled

theorem away_idle (ha : s.acceptPc = .idle) (hp : TakePc.away s.pc = 0) : s.away = none := by
  unfold State.away
  rw [ha]
  cases hpc : s.pc with
  | post => rw [hpc] at hp; cases hp
  | idle | poll | size | copy => rfl

/-- The server polls a completion. -/
theorem Inv.poll (h : Inv s) {maxSize : UInt64} {recv : ReceiveQueue UInt32}
    (ha : s.acceptPc = .idle) (hpc : s.pc = .poll maxSize) (hpoll : s.recv.poll = some (q, recv)) :
    ∃ c, s.qpns[c]? = some q ∧ s.qpnToConnection q = some (UInt32.ofNat c) ∧
      Inv { s with recv := recv, pc := .post maxSize (UInt32.ofNat c).toNat } := by
  have hb := h.base
  have hcomp := ReceiveQueue.completions_poll hpoll
  have hmem : q ∈ s.recv.completions := by rw [hcomp]; exact List.mem_cons_self
  obtain ⟨c, hq⟩ := List.mem_iff_getElem?.1 (hb.pooled.mem q (List.mem_append_left _ hmem))
  have hpooled := hb.pooled
  rw [away_idle ha (by rw [hpc]; rfl)] at hpooled
  refine ⟨c, hq, hb.map c q hq, ?_⟩
  rw [hb.toNat_connection hq]
  have hbase : Base { s with recv := recv, pc := .post maxSize c } := by
    refine { hb with pooled := ?_, single := Or.inl ha }
    have haway : State.away { s with recv := recv, pc := .post maxSize c } = some q := by
      simp only [State.away, ha, hq]
    rw [haway]
    exact hpooled.poll hpoll
  have hnot : q ∉ recv.completions := by
    have hnodup := hpooled.nodup
    rw [hcomp] at hnodup
    exact (List.nodup_cons.1 (List.nodup_append.1 hnodup).1).1
  refine h.one hbase c ?_ ?_
  · intro c' hcc
    have hne : (TakePc.post maxSize c).client ≠ some c' := fun he => hcc (Option.some.inj he).symm
    have hheld : held (.post maxSize c) c' = held s.pc c' := by
      rw [hpc, held_of_ne hne]; rfl
    have hqueued : State.queued { s with recv := recv, pc := .post maxSize c } c' =
        s.queued c' := by
      refine propext ⟨?_, ?_⟩
      · rintro ⟨q', hq', hmem'⟩
        exact ⟨q', hq', by rw [hcomp]; exact List.mem_cons_of_mem _ hmem'⟩
      · rintro ⟨q', hq', hmem'⟩
        rw [hcomp] at hmem'
        rcases List.mem_cons.1 hmem' with rfl | hmem'
        · exact absurd (hb.eq_of_qpn hq' hq) hcc
        · exact ⟨q', hq', hmem'⟩
    unfold view
    rw [hqueued]
    dsimp only
    rw [hheld]
    rfl
  · obtain ⟨stage, hok⟩ := h.ok c
    have hgone : ¬ State.queued { s with recv := recv, pc := .post maxSize c } c := by
      rintro ⟨q', hq', hmem'⟩
      have hq' : s.qpns[c]? = some q' := hq'
      rw [hq] at hq'
      cases hq'
      exact hnot hmem'
    have htake : View.Ok { view s c with
        queued := State.queued { s with recv := recv, pc := .post maxSize c } c
        held := .post maxSize c } stage := hok.take ⟨q, hq, hmem⟩ hgone
    refine ⟨stage, ?_⟩
    unfold view at htake ⊢
    dsimp only at htake ⊢
    rw [held_of_eq rfl]
    exact htake

/-- What the server does with one client's request does not concern the others. -/
theorem held_other {pc : TakePc} {d : ℕ} (hcd : c ≠ d) (hd : s.pc.client = some d)
    (hpc : pc.client = none ∨ pc.client = some d) : held pc c = held s.pc c := by
  have hne : pc.client ≠ some c := by
    intro he
    rcases hpc with hnone | hsome
    · rw [hnone] at he; cases he
    · rw [hsome] at he; exact hcd (Option.some.inj he).symm
  rw [held_of_ne hne, held_of_ne fun he => hcd (Option.some.inj (hd.symm.trans he)).symm]

theorem Inv.held_eq {d : ℕ} (hd : s.pc.client = some d) :
    (view s d).held = s.pc ∧ (view s d).held ≠ .idle := by
  have hheld : (view s d).held = s.pc := held_of_eq hd
  refine ⟨hheld, ?_⟩
  rw [hheld]
  intro he
  rw [he] at hd
  cases hd

/-- The server goes on with the request that it has taken. -/
theorem Inv.hold (h : Inv s) (ha : s.acceptPc = .idle) {d : ℕ} {pc : TakePc}
    {recv : ReceiveQueue UInt32} (hd : s.pc.client = some d) (hd' : pc.client = some d)
    (hcomp : recv.completions = s.recv.completions)
    (hpooled : recv.Pooled s.qpns (State.away { s with recv := recv, pc := pc }).toList)
    (hok : ∀ data, data.length + 8 ≤ 512 → Taken (view s d) data → HeldOk data pc) :
    Inv { s with recv := recv, pc := pc } := by
  have hqueued : ∀ c, State.queued { s with recv := recv, pc := pc } c = s.queued c := by
    intro c
    unfold State.queued
    dsimp only
    rw [hcomp]
  refine h.one { h.base with pooled := hpooled, single := Or.inl ha } d ?_ ?_
  · intro c hcd
    unfold view
    rw [hqueued]
    dsimp only
    rw [held_other hcd hd (Or.inr hd')]
    rfl
  · obtain ⟨stage, hv⟩ := h.ok d
    have hhold : View.Ok { view s d with held := pc } stage := hv.hold (Inv.held_eq hd).2 hok
    refine ⟨stage, ?_⟩
    unfold view at hhold ⊢
    rw [hqueued]
    dsimp only at hhold ⊢
    rw [held_of_eq hd']
    exact hhold

/-- A step of `receive`. -/
theorem Inv.receiveStep (h : Inv s) (ha : s.acceptPc = .idle) (hs : ReceiveStep s s') :
    Inv s' := by
  have hb := h.base
  have hpooled := hb.pooled
  cases hs with
  | empty => exact h
  | take hpc hpoll hmap =>
    obtain ⟨c, -, hmap', hinv⟩ := h.poll ha hpc hpoll
    obtain rfl := Option.some.inj (hmap.symm.trans hmap')
    exact hinv
  | unknown hpc hpoll hmap =>
    obtain ⟨c, -, hmap', -⟩ := h.poll ha hpc hpoll
    cases hmap.symm.trans hmap'
  | @post maxSize d hpc =>
    have hd : s.pc.client = some d := by rw [hpc]; rfl
    obtain ⟨stage, hok⟩ := h.ok d
    obtain ⟨data, rfl, -⟩ := hok.taken (Inv.held_eq hd).2
    obtain ⟨q, hq⟩ := h.qpn (h.lt_handed hok fun he => by cases he)
    have haway : s.away = some q := by
      unfold State.away
      rw [ha, hpc]
      exact hq
    rw [haway] at hpooled
    have haway' : State.away { s with recv := s.recv.post, pc := .size maxSize d } = none :=
      away_idle ha rfl
    refine h.hold ha hd rfl rfl ?_ fun _ _ _ => trivial
    rw [haway']
    exact hpooled.post
  | @size maxSize d hpc =>
    have hd : s.pc.client = some d := by rw [hpc]; rfl
    rw [away_idle ha (by rw [hpc]; rfl)] at hpooled
    have haway : State.away { s with pc := .copy maxSize d (sizeWord (s.receives d)) } = none :=
      away_idle ha rfl
    refine h.hold ha hd rfl rfl ?_ fun data hle ht => ht.2.2.2.size
    rw [haway]
    exact hpooled
  | @throw _ _ d hpc hmax =>
    have hd : s.pc.client = some d := by rw [hpc]; rfl
    obtain ⟨hheld, hne⟩ := Inv.held_eq hd
    obtain ⟨stage, hok⟩ := h.ok d
    rw [away_idle ha (by rw [hpc]; rfl)] at hpooled
    have haway : State.away { s with pc := .idle, refused := s.refused ++ [d] } = none :=
      away_idle ha rfl
    refine h.one { hb with pooled := by rw [haway]; exact hpooled, single := Or.inl ha } d
      ?_ ⟨stage, ?_⟩
    · intro c' hcd
      have hother : held .idle c' = held s.pc c' := held_other hcd hd (Or.inl rfl)
      unfold view
      dsimp only
      rw [hother]
      simp [hcd, State.delivered, State.queued]
    · have hrefuse := hok.refuse hne
      unfold view at hrefuse ⊢
      simpa [State.delivered, State.queued, held, TakePc.client] using hrefuse
  | @deliver _ size d hpc =>
    have hd : s.pc.client = some d := by rw [hpc]; rfl
    obtain ⟨hheld, hne⟩ := Inv.held_eq hd
    obtain ⟨stage, hok⟩ := h.ok d
    rw [away_idle ha (by rw [hpc]; rfl)] at hpooled
    have haway : State.away { s with
        pc := .idle
        returned := s.returned ++ [(d, Mem.read id (s.receives d) 8 size.toNat)] } = none :=
      away_idle ha rfl
    refine h.one { hb with pooled := by rw [haway]; exact hpooled, single := Or.inl ha } d
      ?_ ⟨.served, ?_⟩
    · intro c' hcd
      have hother : held .idle c' = held s.pc c' := held_other hcd hd (Or.inl rfl)
      unfold view
      dsimp only
      rw [hother]
      simp [Ne.symm hcd, State.delivered, State.queued]
    · have hdeliver := hok.deliver (hheld.trans hpc)
      unfold view at hdeliver ⊢
      simpa [State.delivered, State.queued, held, TakePc.client] using hdeliver

/-- The next words of a request arrive. -/
theorem Inv.land (h : Inv s) {words : ℕ} (hs : step s (.land c words) = some s') : Inv s' := by
  have hb := h.base
  simp only [step, Recv.land] at hs
  split at hs
  next qpn off bytes sq hq hsq =>
    split_ifs at hs with hroom hall
    · -- the last of them
      simp only [Option.map_eq_some_iff] at hs
      obtain ⟨recv, hrecv, rfl⟩ := hs
      have hne : (s.clients c).sq ≠ [] := by rw [hsq]; exact List.cons_ne_nil _ _
      have hcomp := ReceiveQueue.completions_arrive hrecv
      have hpooled : recv.Pooled s.qpns s.away.toList :=
        hb.pooled.arrive (List.mem_of_getElem? hq) (h.not_mem hne hq) hrecv
      refine h.one { hb with accepted := ?_, pooled := hpooled } c ?_ ?_
      · intro c' hc'
        by_cases hcc : c' = c
        · subst hcc; simpa using hb.accepted c' hc'
        · simpa [hcc] using hb.accepted c' hc'
      · intro c' hcc
        have hqueued : ∀ q', s.qpns[c']? = some q' →
            (q' ∈ recv.completions ↔ q' ∈ s.recv.completions) := by
          intro q' hq'
          rw [hcomp, List.mem_append, List.mem_singleton]
          refine or_iff_left ?_
          rintro rfl
          exact hcc (hb.eq_of_qpn hq' hq)
        have hqueued' : (∃ q', s.qpns[c']? = some q' ∧ q' ∈ recv.completions) = s.queued c' :=
          propext (exists_congr fun q' => and_congr_right fun hq' => hqueued q' hq')
        unfold State.queued at hqueued'
        simp [view, State.delivered, State.queued, hqueued', hcc]
      · obtain ⟨stage, hok⟩ := h.ok c
        have hqueued : (∃ q', s.qpns[c]? = some q' ∧ q' ∈ recv.completions) ↔
            bytes.length ≤ 8 * words :=
          iff_of_true ⟨qpn, hq, by rw [hcomp]; simp⟩ hall
        have hland := hok.land hsq hqueued (n := (s.clients c).acks + 1)
        rw [if_pos hall] at hland
        refine ⟨stage, ?_⟩
        simpa [view, State.delivered, State.queued] using hland
    · cases hs
      refine h.one { hb with accepted := ?_ } c ?_ ?_
      · intro c' hc'
        by_cases hcc : c' = c
        · subst hcc; simpa using hb.accepted c' hc'
        · simpa [hcc] using hb.accepted c' hc'
      · intro c' hcc
        simp [view, State.delivered, State.queued, hcc]
      · obtain ⟨stage, hok⟩ := h.ok c
        obtain ⟨data, -, -, hnot, -⟩ := hok.travelling (by
          show (s.clients c).sq ≠ []
          rw [hsq]; exact List.cons_ne_nil _ _)
        have hland := hok.land hsq (iff_of_false hnot hall) (n := (s.clients c).acks)
        rw [if_neg hall] at hland
        refine ⟨stage, ?_⟩
        simpa [view, State.delivered, State.queued] using hland
  next => cases hs

/-- The server's `send` goes on, and the answers on their way stay the same. -/
theorem Inv.server (h : Inv s) {srv : Server}
    (hsrv : Inlined srv ∧ srv.count = s.server.count ∧
      ∀ c, frames srv c = frames s.server c) : Inv { s with server := srv } := by
  obtain ⟨hin, hcount, hframes⟩ := hsrv
  have hb := h.base
  refine ⟨{ hb with server := hin, count := ?_, handed := ?_, connected := ?_ }, ?_⟩
  · exact hcount.trans hb.count
  · dsimp only; rw [hcount]; exact hb.handed
  · dsimp only; rw [hcount]; exact hb.connected
  · intro c
    obtain ⟨stage, hok⟩ := h.ok c
    refine ⟨stage, ?_⟩
    unfold view at hok ⊢
    dsimp only
    rw [hframes c]
    exact hok

/-- A client that was not accepted has not been heard of. -/
theorem Inv.lt_count (h : Inv s) (hdel : s.delivered c ≠ []) : c < s.server.count := by
  by_contra hc
  obtain ⟨stage, hok⟩ := h.ok c
  have hsent : (view s c).log.sent = [] :=
    (h.base.accepted c (h.base.handed_le.trans (Nat.le_of_not_lt hc))).1
  obtain rfl := hok.log.quiet_of_nil hsent
  exact hdel (hok.log.1.trans hsent)

/-- The server calls `send`, -/
theorem Inv.answer (h : Inv s) {data : List UInt8} (hd : AnswerOk data)
    (hs : step s (.answer c data) = some s') : Inv s' := by
  have hb := h.base
  simp only [step] at hs
  split at hs
  next ha hpc hspc =>
    split_ifs at hs with howed
    obtain ⟨srv, hsrv, rfl⟩ := Option.map_eq_some_iff.1 hs
    have hc : c < s.server.count := by
      refine h.lt_count ?_
      intro hnil
      rw [hnil] at howed
      exact absurd howed (Nat.not_lt_zero _)
    have hin := hb.server.send (t := .recv) hc hd hsrv
    obtain ⟨hcount, l, -, hl, hframes⟩ := frames_send (t := .recv) hspc hc hsrv
    obtain rfl := hl hd
    refine h.one { hb with server := hin, count := ?_, handed := ?_, connected := ?_ } c ?_ ?_
    · exact hcount.trans hb.count
    · dsimp only; rw [hcount]; exact hb.handed
    · dsimp only; rw [hcount]; exact hb.connected
    · intro c' hcc
      simp [view, State.delivered, State.queued, hframes, hcc]
    · obtain ⟨stage, hok⟩ := h.ok c
      have hanswer := hok.answer hd howed
      refine ⟨.answered data, ?_⟩
      simpa [view, State.delivered, State.queued, hframes] using hanswer
  next => cases hs

/-- and the answer arrives. -/
theorem Inv.landAnswer (h : Inv s) (hs : step s (.landAnswer c) = some s') : Inv s' := by
  have hb := h.base
  simp only [step, Recv.landAnswer] at hs
  split at hs
  next => cases hs
  next p rest hsq =>
    obtain ⟨srv, hsrv, rfl⟩ := Option.map_eq_some_iff.1 hs
    have hp : p ∈ (s.server.connections c).sq := by rw [hsq]; exact List.mem_cons_self
    have hin := hb.server.land hsq hsrv
    obtain ⟨hcount, hframes, hother⟩ := frames_land hsq hsrv
    rw [hb.server.bytes hp, (hb.server.posted c p hp).2.1]
    refine h.one
      { hb with server := hin, count := ?_, handed := ?_, connected := ?_, accepted := ?_ } c ?_ ?_
    · exact hcount.trans hb.count
    · dsimp only; rw [hcount]; exact hb.handed
    · dsimp only; rw [hcount]; exact hb.connected
    · intro c' hc'
      by_cases hcc : c' = c
      · subst hcc; simpa using hb.accepted c' hc'
      · simpa [hcc] using hb.accepted c' hc'
    · intro c' hcc
      simp [view, State.delivered, State.queued, hother c' hcc, hcc]
    · obtain ⟨stage, hok⟩ := h.ok c
      have hland := hok.landAnswer hframes
      refine ⟨stage, ?_⟩
      simpa [view, State.delivered, State.queued] using hland

/-- A client calls `send`, -/
theorem Inv.send (h : Inv s) {data : List UInt8} (hs : step s (.send c data) = some s') :
    Inv s' := by
  simp only [step] at hs
  split at hs
  next hpc hrpc =>
    split_ifs at hs with hcond
    cases hs
    obtain ⟨hc, hturn, hd⟩ := hcond
    obtain ⟨stage, hok⟩ := h.ok c
    exact h.client data (fun hge => absurd hc (Nat.not_lt.2 hge)) ⟨stage, hok.send hpc hturn hd⟩
  next => cases hs

/-- or `receive`, -/
theorem Inv.receive (h : Inv s) {maxSize : UInt64}
    (hs : step s (.receive c maxSize) = some s') : Inv s' := by
  simp only [step] at hs
  split at hs
  next hpc hrpc =>
    split_ifs at hs
    cases hs
    obtain ⟨stage, hok⟩ := h.ok c
    exact h.client' (h.base.accepted c) ⟨stage, hok.receive hpc maxSize⟩
  next => cases hs

/-- takes a step of it, -/
theorem Inv.clientStep (h : Inv s) (hs : step s (.client c) = some s') : Inv s' := by
  simp only [step] at hs
  obtain ⟨cl, hcl, rfl⟩ := Option.map_eq_some_iff.1 hs
  obtain ⟨stage, hok⟩ := h.ok c
  have hacc := h.base.accepted c
  split at hcl
  next hpc =>
    obtain ⟨receiver, hr, rfl⟩ := Option.map_eq_some_iff.1 hcl
    exact h.client' hacc (hok.receiveStep hpc hr)
  next hpc => exact h.client' (fun hge => absurd (hacc hge).2 hpc) (hok.sendStep hcl)

/-- and gets a completion. -/
theorem Inv.complete (h : Inv s) (hs : step s (.complete c) = some s') : Inv s' := by
  simp only [step] at hs
  split_ifs at hs
  cases hs
  obtain ⟨stage, hok⟩ := h.ok c
  exact h.client' (h.base.accepted c) ⟨stage, hok.client rfl rfl rfl hok.post⟩

/-- The server calls `receive`. -/
theorem Inv.serve (h : Inv s) {maxSize : UInt64} (hs : step s (.serve maxSize) = some s') :
    Inv s' := by
  have hb := h.base
  simp only [step] at hs
  split at hs
  next ha hpc hspc =>
    cases hs
    have hpooled := hb.pooled
    have haway : s.away = none := away_idle ha (by rw [hpc]; rfl)
    have haway' : State.away { s with pc := .poll maxSize } = none := away_idle ha rfl
    refine ⟨{ hb with pooled := ?_, single := Or.inl ha }, ?_⟩
    · rw [haway']
      rwa [haway] at hpooled
    · intro c
      obtain ⟨stage, hok⟩ := h.ok c
      refine ⟨stage, ?_⟩
      unfold view at hok ⊢
      rw [hpc] at hok
      exact hok
  next => cases hs

/-- The server takes a step. -/
theorem Inv.serverStep (h : Inv s) (hs : step s .server = some s') : Inv s' := by
  simp only [step] at hs
  split at hs
  next =>
    obtain ⟨srv, hsrv, rfl⟩ := Option.map_eq_some_iff.1 hs
    exact h.server ⟨h.base.server.step hsrv, frames_step hsrv⟩
  next ha hpc => exact h.receiveStep ha (receiveStep_cases hs)
  next hne _ => exact h.acceptStep (h.base.single.resolve_left hne) hs

/-- The answers are INLINE and not empty. -/
def Admitted : Act → Prop
  | .answer _ data => AnswerOk data
  | _ => True

instance : DecidablePred Admitted
  | .answer _ data => inferInstanceAs (Decidable (AnswerOk data))
  | .accept _ | .send _ _ | .receive _ _ | .client _ | .land _ _ | .complete _ | .serve _
  | .server | .landAnswer _ | .completeAnswer => isTrue trivial

/-- **A step keeps the invariant.** -/
theorem Inv.step {a : Act} (h : Inv s) (hadm : Admitted a) (hs : Recv.step s a = some s') :
    Inv s' := by
  cases a with
  | accept qpn => exact h.accept hs
  | send c data => exact h.send hs
  | receive c maxSize => exact h.receive hs
  | client c => exact h.clientStep hs
  | land c words => exact h.land hs
  | complete c => exact h.complete hs
  | serve maxSize => exact h.serve hs
  | answer c data => exact h.answer hadm hs
  | server => exact h.serverStep hs
  | landAnswer c => exact h.landAnswer hs
  | completeAnswer =>
    obtain ⟨srv, hsrv, rfl⟩ := Option.map_eq_some_iff.1 hs
    exact h.server ⟨h.base.server.complete hsrv, frames_complete hsrv⟩

theorem Inv.init (maxClients : ℕ) : Inv (init maxClients) where
  base :=
    { server := ⟨inv_init 0, fun c p hp => (by cases hp), fun c n frame he => (by cases he)⟩
      count := rfl
      nodup := List.nodup_nil
      map := fun c q hq => by cases hq
      handed := rfl
      connected := le_rfl
      accepted := fun c _ => ⟨rfl, rfl⟩
      pooled := ⟨rfl, List.nodup_nil, fun q hq => by cases hq⟩
      single := Or.inl rfl }
  ok := by
    intro c
    refine ⟨.quiet, ⟨rfl, rfl, rfl⟩, trivial, ⟨?_, rfl, rfl⟩, ⟨rfl, fun i _ => rfl, Or.inl rfl⟩⟩
    rintro ⟨q, hq, -⟩
    cases hq

end

/-! ## What the clients and the server can rely on -/

/-- Whether the server is between a receive request that is consumed, or a connection that
    is made, and the receive request that it posts for it. -/
def State.owed (s : State) : ℕ :=
  match s.acceptPc, s.pc with
  | .post, _ | _, .post _ _ => 1
  | _, _ => 0

structure Right (s : State) : Prop where
  /-- a receive request for each connection -/
  conserved : s.recv.posted + s.recv.completions.length + s.owed = s.server.count
  /-- a write that arrives finds one -/
  ready : ∀ c, (s.clients c).sq ≠ [] → 0 < s.recv.posted
  /-- what the server's `receive` returns under the index of a connection are the requests
      of its client, and what a client's `receive` returns are the answers to them -/
  exact : ∀ c, (view s c).log.Exact
  ids : ∀ r ∈ s.returned, r.1 < s.server.count
  /-- a request that has left the client was returned or refused, is in the hands of the
      server, or its completion is in the queue -/
  requestKept : ∀ c, (s.clients c).sq = [] → s.pc.client ≠ some c → ¬ s.queued c →
    c ∉ s.refused → s.delivered c = (s.clients c).sent
  /-- an answer that has left the server was returned, or its size is there -/
  answerKept : ∀ c, frames s.server c = [] →
    sizeWord (s.clients c).receiver.receiveBuffer = 0 → (s.clients c).receiver.got = s.answers c
  /-- the oldest completion is that of a connection's last request, which the server
      returns under the index of the connection if it has the room for it -/
  serves : ∀ maxSize q rest, s.acceptPc = .idle → s.pc = .poll maxSize →
    s.recv.completions = q :: rest →
    ∃ c r s', s.qpns[c]? = some q ∧ (s.clients c).sent = s.delivered c ++ [r] ∧
      run step s (List.replicate 4 .server) = some s' ∧
      if r.length ≤ maxSize.toNat then s'.returned = s.returned ++ [(c, r)]
      else s'.returned = s.returned ∧ s'.refused = s.refused ++ [c]
  /-- an answer that has arrived is returned in one iteration of the client's loop -/
  returns : ∀ maxSize c a, (s.clients c).pc = .idle → (s.clients c).receiver.pc = .size maxSize →
    frames s.server c = [] → s.answers c = (s.clients c).receiver.got ++ [a] →
    a.length ≤ maxSize.toNat →
    ∃ s', run step s (List.replicate 4 (.client c)) = some s' ∧
      (s'.clients c).receiver.got = s.answers c

section
variable {s : State} {c : ℕ} {q : UInt32}

theorem Inv.owed_eq (h : Inv s) : s.away.toList.length = s.owed := by
  have hb := h.base
  have hhanded := hb.handed
  unfold State.away State.owed
  cases ha : s.acceptPc with
  | post =>
    rw [ha] at hhanded
    have hcount := hb.count
    have hne : s.qpns ≠ [] := by
      intro hnil
      rw [hnil, List.length_nil] at hcount
      unfold HandedOk at hhanded
      omega
    rw [List.getLast?_eq_some_getLast hne]
    rfl
  | idle | exchange | connect =>
    cases hpc : s.pc with
    | idle | poll | size | copy => rfl
    | post maxSize d =>
      have hd : s.pc.client = some d := by rw [hpc]; rfl
      obtain ⟨stage, hok⟩ := h.ok d
      obtain ⟨data, rfl, -⟩ := hok.taken (Inv.held_eq hd).2
      obtain ⟨q, hq⟩ := h.qpn (h.lt_handed hok fun he => by cases he)
      dsimp only
      rw [hq]
      rfl

theorem Inv.ids (h : Inv s) : ∀ r ∈ s.returned, r.1 < s.server.count := by
  intro r hr
  have hmem : r.2 ∈ s.delivered r.1 :=
    List.mem_map.2 ⟨r, List.mem_filter.2 ⟨hr, by simp⟩, rfl⟩
  exact h.lt_count (List.ne_nil_of_mem hmem)

theorem Inv.requestKept (h : Inv s) (hsq : (s.clients c).sq = [])
    (hheld : s.pc.client ≠ some c) (hqueued : ¬ s.queued c) (hrefused : c ∉ s.refused) :
    s.delivered c = (s.clients c).sent := by
  obtain ⟨stage, hok⟩ := h.ok c
  cases stage with
  | quiet | served | answered => exact hok.log.1
  | asked data =>
    obtain ⟨-, ⟨-, -, off, hoff, hsq', -⟩ | ⟨hq, -⟩ | ⟨-, hh, -⟩ | ⟨-, -, -, hr⟩⟩ := hok.ask
    · have hsq' : (s.clients c).sq = _ := hsq'
      rw [hsq] at hsq'
      cases hsq'
    · exact absurd hq hqueued
    · have hidle : (view s c).held = .idle := held_of_ne hheld
      rw [hidle] at hh
      exact hh.elim
    · exact absurd hr hrefused

theorem Inv.answerKept (h : Inv s) (hframes : frames s.server c = [])
    (hsize : sizeWord (s.clients c).receiver.receiveBuffer = 0) :
    (s.clients c).receiver.got = s.answers c := by
  obtain ⟨stage, hok⟩ := h.ok c
  cases stage with
  | quiet | asked | served => exact hok.log.2.1
  | answered data =>
    obtain ⟨hd, ⟨hf, -⟩ | ⟨-, ha⟩⟩ := hok.reply
    · have hf : frames s.server c = [answerFrame data] := hf
      rw [hframes] at hf; cases hf
    · exact absurd hsize (ha.size_ne hd)

theorem Inv.serves (h : Inv s) {maxSize : UInt64} {rest : List UInt32} (ha : s.acceptPc = .idle)
    (hpc : s.pc = .poll maxSize) (hcomp : s.recv.completions = q :: rest) :
    ∃ c r s', s.qpns[c]? = some q ∧ (s.clients c).sent = s.delivered c ++ [r] ∧
      run Recv.step s (List.replicate 4 .server) = some s' ∧
      if r.length ≤ maxSize.toNat then s'.returned = s.returned ++ [(c, r)]
      else s'.returned = s.returned ∧ s'.refused = s.refused ++ [c] := by
  have hpoll : s.recv.poll = some (q, { s.recv with completions := rest }) := by
    simp [ReceiveQueue.poll, hcomp]
  obtain ⟨c, hq, hmap, -⟩ := h.poll ha hpc hpoll
  obtain ⟨stage, hok⟩ := h.ok c
  have hqueued : (view s c).queued := ⟨q, hq, by rw [hcomp]; exact List.mem_cons_self⟩
  obtain ⟨data, rfl, hle, -, -, -, hslot⟩ := hok.waiting hqueued
  have hsize : sizeWord (s.receives c) = lengthOf data := hslot.size
  have hbytes : Mem.read id (s.receives c) 8 data.length = data := hslot.bytes
  have hlen := toNat_lengthOf hle
  have hlt : maxSize < lengthOf data ↔ ¬ data.length ≤ maxSize.toNat := by
    rw [UInt64.lt_iff_toNat_lt, hlen, Nat.not_le]
  by_cases hmax : data.length ≤ maxSize.toNat
  · refine ⟨c, data, _, hq, hok.log.1, by
      simp only [List.replicate, run, Recv.step, ha, hpc,
        MulticlientRDMARecvTransportServer.receiveStep, hpoll, hmap, h.base.toNat_connection hq,
        hsize, if_neg (not_not.2 hmax ∘ hlt.1), hlen, hbytes]
      rfl, ?_⟩
    rw [if_pos hmax]
  · refine ⟨c, data, _, hq, hok.log.1, by
      simp only [List.replicate, run, Recv.step, ha, hpc,
        MulticlientRDMARecvTransportServer.receiveStep, hpoll, hmap, h.base.toNat_connection hq,
        hsize, if_pos (hlt.2 hmax)]
      rfl, ?_⟩
    rw [if_neg hmax]
    exact ⟨rfl, rfl⟩

def State.setReceiver (s : State) (c : ℕ) (receiver : Receiver) : State :=
  { s with clients := Function.update s.clients c { s.clients c with receiver := receiver } }

theorem State.receiver_setReceiver (s : State) (c : ℕ) (receiver : Receiver) :
    ((s.setReceiver c receiver).clients c).receiver = receiver := by
  simp [State.setReceiver]

/-- A client alone, while it is in `receive`. -/
theorem run_client (hpc : (s.clients c).pc = .idle) {n : ℕ} {receiver : Receiver}
    (hr : run (Receiver.step true) (s.clients c).receiver (List.replicate n ()) =
      some receiver) :
    run Recv.step s (List.replicate n (.client c)) = some (s.setReceiver c receiver) := by
  have hput : ∀ r r', Receiver.step true r () = some r' →
      Recv.step (s.setReceiver c r) (.client c) = some (s.setReceiver c r') := by
    intro r r' hs
    have hs : Multiclient.receiveStep true r = some r' := hs
    simp only [Recv.step, State.setReceiver, Function.update_self, Function.update_idem, hpc,
      MulticlientRDMARecvTransportClient.receiveStep, hs, Option.map_some]
  have hlift := run_lift (s.setReceiver c) hput hr
  rwa [State.setReceiver, Function.update_eq_self] at hlift

theorem Inv.returns (h : Inv s) {maxSize : UInt64} {a : List UInt8}
    (hpc : (s.clients c).pc = .idle) (hrpc : (s.clients c).receiver.pc = .size maxSize)
    (hframes : frames s.server c = [])
    (ha : s.answers c = (s.clients c).receiver.got ++ [a]) (hmax : a.length ≤ maxSize.toNat) :
    ∃ s', run Recv.step s (List.replicate 4 (.client c)) = some s' ∧
      (s'.clients c).receiver.got = s.answers c := by
  obtain ⟨stage, hok⟩ := h.ok c
  obtain rfl := hok.log.answered ha
  obtain ⟨hd, ⟨hf, -⟩ | ⟨-, hthere⟩⟩ := hok.reply
  · have hf : frames s.server c = [answerFrame a] := hf
    rw [hframes] at hf; cases hf
  · obtain ⟨receiver, hr, hgot⟩ := hthere.run hd true hrpc hmax
    refine ⟨_, run_client hpc hr, ?_⟩
    rw [State.receiver_setReceiver, ha]
    exact hgot

theorem Inv.right (h : Inv s) : Right s where
  conserved := by
    have hsize := h.base.pooled.size
    rw [h.owed_eq, ReceiveQueue.size, ← h.base.count] at hsize
    exact hsize
  ready := fun _ => h.posted_pos
  exact := fun c => let ⟨_, hok⟩ := h.ok c; hok.log.exact
  ids := h.ids
  requestKept := fun _ => h.requestKept
  answerKept := fun _ => h.answerKept
  serves := fun _ _ _ => h.serves
  returns := fun _ _ _ => h.returns

end

/-- **The shared receive queue delivers** every request to the server under the index of its
    connection and every answer to its client, in every order of the steps. -/
theorem right_of_inline (maxClients : ℕ) {acts : List Act} (h : ∀ a ∈ acts, Admitted a) :
    AllStates step Right (init maxClients) acts :=
  allStates_of_along (I := Inv) (fun _ hi => hi.right)
    (fun _ _ _ hi hadm hs => hi.step hadm hs) (Inv.init maxClients)
    (along_of_forall fun a ha _ => h a ha)

/-- The second connection asks first, its request arrives last, and the first one asks again
    while the server looks at it. -/
def twoConnections : List Act :=
  [.accept 7, .server, .server, .server, .accept 5, .server, .send 0 [], .client 0, .server,
    .server, .send 1 [1, 2], .client 1, .serve 64, .server, .land 1 1, .land 0 1, .land 1 1,
    .server, .server, .server, .server, .answer 0 [9], .server, .landAnswer 0, .complete 0,
    .client 0, .receive 0 1, .client 0, .client 0, .client 0, .client 0, .serve 2, .server,
    .send 0 [3], .client 0, .land 0 2, .server, .server, .server, .answer 1 [4, 5], .server,
    .complete 1, .client 1, .receive 1 2, .landAnswer 1, .client 1, .client 1, .client 1,
    .client 1]

theorem right_twoConnections :
    (∀ a ∈ twoConnections, Admitted a) ∧
      (run step (init 16) twoConnections).map (fun s =>
        (s.returned, (s.clients 0).receiver.got, (s.clients 1).receiver.got)) =
          some ([(0, []), (1, [1, 2])], [[9]], [[4, 5]]) ∧
      AllStates step Right (init 16) twoConnections := by
  have h : ∀ a ∈ twoConnections, Admitted a := by decide +kernel
  exact ⟨h, by decide +kernel, right_of_inline 16 h⟩

/-- The server has polled a completion, and has not yet posted a receive request in its place. -/
def polled : List Act :=
  [.accept 7, .server, .server, .server, .send 0 [], .client 0, .land 0 1, .serve 8, .server]

theorem polled_one_short :
    ¬ ∀ maxClients acts, (∀ a ∈ acts, Admitted a) →
      AllStates step (fun s => s.recv.posted + s.recv.completions.length = s.server.count)
        (init maxClients) acts := by
  intro h
  have hpolled : (run step (init 16) polled).map (fun s =>
      (s.recv.posted + s.recv.completions.length, s.server.count)) = some (0, 1) := by
    decide +kernel
  obtain ⟨s, hs, hcounts⟩ := Option.map_eq_some_iff.1 hpolled
  have hall := (h 16 polled (by decide +kernel)).last hs
  obtain ⟨hsum, hcount⟩ := Prod.mk.inj hcounts
  rw [hsum, hcount] at hall
  cases hall

end Recv

end Multiclient

end L5RDMA
