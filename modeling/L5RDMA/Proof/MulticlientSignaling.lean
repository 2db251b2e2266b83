/-
  The completions that the servers' `send` polls.

  Each connection counts its answers, and has every 1024th signaled and polled
  for, whereas `sharedCq` is the same for all connections.  The flags of an
  answer's request are set anew for each post, so that it does not matter that
  `accept` has made it signaled.

  `shared_exact`: in every run of `accept` and `send`, a poll consumes the
  completion of the request that has just been posted, no completion is left
  when no `send` is in progress, and no queue pair has more than 1024 requests
  posted and not retired.
-/
import L5RDMA.MulticlientSignaling
import L5RDMA.Proof.WorkRequests

namespace L5RDMA

namespace Posting

open Fallible (Op)
open Run
open SharedQueue (Queues Completion)
open Verbs (WorkRequests)

namespace Serving
variable {M S W : Type} {v : WorkRequests M S W}

structure Exact (s : Serving M W) : Prop where
  /-- no completion is left when no `send` is in progress -/
  empty : (∀ c ∈ s.call, c.method.connection = none) → s.queues.cq = []
  /-- each poll has consumed the completion of the request posted last before -/
  polled : ∀ p ∈ s.polled, p.1 = some p.2
  /-- a poll in progress has that completion and no other before it, now or later -/
  arrives : ∀ c ∈ s.call, ∀ rest, c.rest = .call .completion :: rest →
    ∃ i request, c.method.connection = some i ∧ s.lastPost = some ⟨i, request⟩ ∧
      (s.queues.cq = [⟨i, request⟩] ∨
        s.queues.cq = [] ∧ (s.queues.queuePairs i).sq.getLast? = some true)
  unretired : ∀ i, (s.queues.queuePairs i).unretired ≤ 1024

/-! ## The invariant -/

/-- `sendCounter` of a connection, 0 where there is none yet. -/
def counter (srv : Server M W) (i : ℕ) : UInt64 :=
  ((srv.connections.map Connection.sendCounter)[i]?).getD 0

/-- The requests not retired are those since the last 1024th. -/
def Even (srv : Server M W) (q : Queues ℕ) (i : ℕ) : Prop :=
  q.Lag i ((counter srv i).toNat % 1024)

/-- A step that has nothing to do with answers. -/
def Tame (op : Op (Server M W) (NetCall W)) : Prop :=
  op = .call .connect ∨ ∃ f, op = .change f ∧ ∀ srv i, counter (f srv) i = counter srv i

/-- How far a call is, and what holds there. -/
inductive Phase (v : WorkRequests M S W) (srv : Server M W) (q : Queues ℕ)
    (lastPost : Option (Completion ℕ)) : Option (Call M W) → Prop
  | idle (hq : q.Quiet) (he : ∀ i, Even srv q i) : Phase v srv q lastPost none
  | tame {m : Server.Method} {rest : List (Op (Server M W) (NetCall W))} (hq : q.Quiet)
      (he : ∀ i, Even srv q i) (hrest : ∀ op ∈ rest, Tame op) :
      Phase v srv q lastPost (some ⟨m, rest⟩)
  | answer {m : Server.Method} {i : ℕ} {con : Connection W} {totalLength : UInt64}
      (hq : q.Quiet) (he : ∀ i, Even srv q i) (hm : m.connection = some i)
      (hcon : srv.connections[i]? = some con) :
      Phase v srv q lastPost (some ⟨m, answer v srv i con totalLength⟩)
  | post {m : Server.Method} {i k : ℕ} {wr : W} {sendCounter : UInt64} (hq : q.Quiet)
      (he : ∀ j ≠ i, Even srv q j) (hm : m.connection = some i)
      (hcount : counter srv i = sendCounter) (hk : k < 1024) (hi : q.Lag i k)
      (hmod : sendCounter.toNat % 1024 = (k + 1) % 1024)
      (hsig : v.flags wr .SIGNALED = decide (sendCounter % 1024 = 0)) :
      Phase v srv q lastPost (some ⟨m, .call (.post wr) ::
        if sendCounter % 1024 = 0 then [.call .completion] else []⟩)
  | poll {m : Server.Method} {i : ℕ} (hq : q.Waiting i) (he : ∀ j ≠ i, Even srv q j)
      (hm : m.connection = some i) (hi : q.Lag i 1024) (hcount : (counter srv i).toNat % 1024 = 0)
      (hlast : lastPost = some ⟨i, (q.queuePairs i).posted - 1⟩) :
      Phase v srv q lastPost (some ⟨m, [.call .completion]⟩)

structure Inv (v : WorkRequests M S W) (s : Serving M W) : Prop where
  phase : Phase v s.server s.queues s.lastPost s.call
  polled : ∀ p ∈ s.polled, p.1 = some p.2

theorem mod_eq_zero_iff {n : UInt64} : n % 1024 = 0 ↔ n.toNat % 1024 = 0 := by
  rw [← UInt64.toNat_inj, UInt64.toNat_mod]
  rfl

theorem inv_init (t : Multiclient.Transport) : Inv v (init v t) where
  phase := .idle Queues.quiet_init fun _ => rfl
  polled := by
    intro p hp
    cases hp

section
variable {s s' : Serving M W} {srv : Server M W} {q q' : Queues ℕ}
  {lastPost : Option (Completion ℕ)}

theorem Even.unretired_le {i : ℕ} (h : Even srv q i) : (q.queuePairs i).unretired ≤ 1024 := by
  rw [Queues.Lag.unretired h]
  exact (Nat.mod_lt _ (by decide)).le

theorem Phase.unretired_le {c : Option (Call M W)} (h : Phase v srv q lastPost c) (i : ℕ) :
    (q.queuePairs i).unretired ≤ 1024 := by
  cases h with
  | idle hq he => exact (he i).unretired_le
  | tame hq he hrest => exact (he i).unretired_le
  | answer hq he hm hcon => exact (he i).unretired_le
  | @post m j k wr sendCounter hq he hm hcount hk hj hmod hsig =>
    by_cases hij : i = j
    · subst hij
      exact hj.unretired.trans_le hk.le
    · exact (he i hij).unretired_le
  | @poll m j hq he hm hj hcount hlast =>
    by_cases hij : i = j
    · subst hij
      exact hj.unretired.le
    · exact (he i hij).unretired_le

theorem Inv.exact (h : Inv v s) : s.Exact := by
  obtain ⟨hphase, hpolled⟩ := h
  refine ⟨fun hno => ?_, hpolled, ?_, hphase.unretired_le⟩
  · generalize s.call = c at hphase hno
    cases hphase with
    | idle hq he => exact hq.cq
    | tame hq he hrest => exact hq.cq
    | answer hq he hm hcon => exact hq.cq
    | post hq he hm hcount hk hi hmod hsig => exact hq.cq
    | poll hq he hm hi hcount hlast => rw [hno _ rfl] at hm; cases hm
  · generalize s.call = c at hphase
    rintro c rfl rest hrest
    cases hphase with
    | tame hq he htame =>
      dsimp only at hrest
      subst hrest
      rcases htame _ List.mem_cons_self with h | ⟨f, h, -⟩ <;> cases h
    | answer hq he hm hcon => cases hrest
    | post hq he hm hcount hk hi hmod hsig => cases hrest
    | @poll m i hq he hm hi hcount hlast =>
      refine ⟨i, _, hm, hlast, ?_⟩
      rcases hq.last with ⟨hcq, sq, hsq, -⟩ | ⟨hcq, -, -⟩
      · right
        exact ⟨hcq, by rw [hsq, List.getLast?_concat]⟩
      · left
        exact hcq

/-! ## The steps -/

/-- A connection is added at the end with a counter of 0, -/
theorem counter_emplaceBack (wr : W) (srv : Server M W) (i : ℕ) :
    counter (srv.emplaceBack ⟨wr, 0⟩) i = counter srv i := by
  rw [counter, counter, Server.emplaceBack, List.map_append, List.getElem?_append]
  split_ifs with hi
  · rfl
  · rw [List.getElem?_eq_none (Nat.le_of_not_lt hi)]
    cases i - (srv.connections.map Connection.sendCounter).length <;> rfl

/-- and a change of one connection leaves the counters of the others. -/
theorem counter_modify (i j : ℕ) (f : Connection W → Connection W) (srv : Server M W)
    (h : i = j → ∀ con ∈ srv.connections[j]?, (f con).sendCounter = con.sendCounter) :
    counter (srv.modify i f) j = counter srv j := by
  rw [counter, counter, Server.modify, List.getElem?_map, List.getElem?_map, List.getElem?_modify]
  cases hcon : srv.connections[j]? with
  | none => rfl
  | some con =>
    by_cases hij : i = j
    · simp [hij, h hij con hcon]
    · simp [hij]

theorem counter_of_get {srv : Server M W} {i : ℕ} {con : Connection W}
    (hcon : srv.connections[i]? = some con) : counter srv i = con.sendCounter := by
  rw [counter, List.getElem?_map, hcon]
  rfl

theorem counter_modify_self {srv : Server M W} {i : ℕ} {con : Connection W}
    (hcon : srv.connections[i]? = some con) (f : Connection W → Connection W) :
    counter (srv.modify i f) i = (f con).sendCounter :=
  counter_of_get (by simp [Server.modify, hcon])

theorem tame_accept {t : Multiclient.Transport} {srv : Server M W} {receiveAddr : UInt64}
    {ops : List (Op (Server M W) (NetCall W))}
    (hm : Server.method v t srv (.accept receiveAddr) = some ops) : ∀ op ∈ ops, Tame op := by
  have hearly : ∀ op ∈ acceptEarly v srv receiveAddr, Tame op := by
    intro op hop
    simp only [acceptEarly, List.mem_cons, List.not_mem_nil, or_false] at hop
    rcases hop with rfl | rfl | rfl | rfl | rfl
    · left; rfl
    · right; exact ⟨_, rfl, counter_emplaceBack _⟩
    · left; rfl
    · right; exact ⟨_, rfl, fun srv' i => counter_modify _ _ _ _ fun _ con _ => rfl⟩
    · left; rfl
  cases t with
  | doorbell =>
    cases hm
    intro op hop
    simp only [MulticlientRDMATransportServer.accept, List.mem_cons, List.not_mem_nil,
      or_false] at hop
    rcases hop with rfl | rfl
    · left; rfl
    · right; exact ⟨_, rfl, counter_emplaceBack _⟩
  | recv | distinctMr =>
    cases hm
    exact hearly

/-- A call that throws, or passes the checks and answers. -/
theorem phase_send {m : Server.Method} {i : ℕ} (totalLength : UInt64)
    {ops : List (Op (Server M W) (NetCall W))} (hq : q.Quiet) (he : ∀ i, Even srv q i)
    (hm : m.connection = some i) (hops : ops = [] ∨ ∃ con, srv.connections[i]? = some con ∧
      ops = Posting.answer v srv i con totalLength) :
    Phase v srv q lastPost (some ⟨m, ops⟩) := by
  rcases hops with rfl | ⟨con, hcon, rfl⟩
  · exact .tame hq he fun op hop => by cases hop
  · exact .answer hq he hm hcon

theorem sendTo_cases {maxMessageSize : UInt64} {srv : Server M W} {i : ℕ} {size : UInt64}
    {ops : List (Op (Server M W) (NetCall W))}
    (hops : sendTo v maxMessageSize srv i size = some ops) : ops = [] ∨
      ∃ con, srv.connections[i]? = some con ∧
        ops = Posting.answer v srv i con (size + 8 + 1) := by
  unfold sendTo at hops
  dsimp only at hops
  split_ifs at hops
  · cases hops
    left; rfl
  · cases hops
    left; rfl
  · obtain ⟨con, hcon, rfl⟩ := Option.map_eq_some_iff.1 hops
    right; exact ⟨con, hcon, rfl⟩

theorem sendWork_cases {srv : Server M W} {i : ℕ} {size : UInt64}
    {ops : List (Op (Server M W) (NetCall W))}
    (hops : MulticlientRDMATransportServer.sendWork v srv i size = some ops) : ops = [] ∨
      ∃ con, srv.connections[i]? = some con ∧
        ops = Posting.answer v srv i con (size + 8 + 1) := by
  unfold MulticlientRDMATransportServer.sendWork at hops
  split_ifs at hops
  · cases hops
    left; rfl
  · obtain ⟨con, hcon, rfl⟩ := Option.map_eq_some_iff.1 hops
    dsimp only
    split_ifs
    · left; rfl
    · right; exact ⟨con, hcon, rfl⟩

/-- `accept` leaves the counters alone, and `send` has one answer, or none. -/
theorem phase_call {t : Multiclient.Transport} {m : Server.Method}
    {ops : List (Op (Server M W) (NetCall W))} (hq : q.Quiet) (he : ∀ i, Even srv q i)
    (hm : Server.method v t srv m = some ops) : Phase v srv q lastPost (some ⟨m, ops⟩) := by
  cases m with
  | accept receiveAddr => exact .tame hq he (tame_accept hm)
  | send i size =>
    refine phase_send (size + 8 + 1) hq he rfl ?_
    cases t with
    | doorbell =>
      change MulticlientRDMATransportServer.send v srv i size = some ops at hm
      rw [MulticlientRDMATransportServer.send_eq] at hm
      exact sendTo_cases hm
    | recv | distinctMr => exact sendTo_cases hm
  | sendWork i size =>
    refine phase_send (size + 8 + 1) hq he rfl ?_
    cases t with
    | doorbell => exact sendWork_cases hm
    | recv | distinctMr => cases hm

/-- The network card executes a request, at any time. -/
theorem Phase.card {c : Option (Call M W)} {j : ℕ} (h : Phase v srv q lastPost c)
    (hs : q.execute j = some q') : Phase v srv q' lastPost c := by
  cases h with
  | idle hq he => exact .idle (hq.execute hs) fun i => (he i).execute hs
  | tame hq he hrest => exact .tame (hq.execute hs) (fun i => (he i).execute hs) hrest
  | answer hq he hm hcon => exact .answer (hq.execute hs) (fun i => (he i).execute hs) hm hcon
  | post hq he hm hcount hk hi hmod hsig =>
    exact .post (hq.execute hs) (fun i hne => (he i hne).execute hs) hm hcount hk (hi.execute hs)
      hmod hsig
  | @poll m i hq he hm hi hcount hlast =>
    refine .poll (hq.execute hs) (fun i hne => (he i hne).execute hs) hm (hi.execute hs) hcount ?_
    rw [hlast, (Queues.execute_keeps hs i).1]

/-- The request is posted, signaled if it is to be polled for. -/
theorem phase_post {m : Server.Method} {i k : ℕ} {sendCounter : UInt64} (hq : q.Quiet)
    (he : ∀ j ≠ i, Even srv q j) (hm : m.connection = some i) (hcount : counter srv i = sendCounter)
    (hk : k < 1024) (hi : q.Lag i k) (hmod : sendCounter.toNat % 1024 = (k + 1) % 1024) :
    Phase v srv (q.post i (decide (sendCounter % 1024 = 0)))
      (some ⟨i, (q.queuePairs i).posted⟩)
      (some ⟨m, if sendCounter % 1024 = 0 then [.call .completion] else []⟩) := by
  by_cases hz : sendCounter % 1024 = 0
  · have hz' := mod_eq_zero_iff.1 hz
    have hk' : k + 1 = 1024 := by omega
    rw [if_pos hz, decide_eq_true hz]
    refine .poll (hq.post i) (fun j hj => (he j hj).postOther hj true) hm (hk' ▸ hi.post true)
      (by rw [hcount, hz']) ?_
    rw [Queues.post_self]
    rfl
  · have hz' := mt mod_eq_zero_iff.2 hz
    have hk' : k + 1 = sendCounter.toNat % 1024 := by omega
    rw [if_neg hz, decide_eq_false hz]
    refine .tame (hq.postUnsignaled i) (fun j => ?_) fun op hop => by cases hop
    by_cases hj : j = i
    · subst hj
      rw [Even, hcount, ← hk']
      exact hi.post false
    · exact (he j hj).postOther hj false

/-- The completion is polled. -/
theorem phase_poll {m : Server.Method} {i : ℕ} {c : Completion ℕ} (hq : q.Waiting i)
    (he : ∀ j ≠ i, Even srv q j) (hcount : (counter srv i).toNat % 1024 = 0)
    (hs : q.poll = some (c, q')) : Phase v srv q' lastPost (some ⟨m, []⟩) := by
  refine .tame (hq.poll hs).2.1 (fun j => ?_) fun op hop => by cases hop
  by_cases hj : j = i
  · subst hj
    rw [Even, hcount]
    exact Queues.Lag.poll hq hs
  · exact (he j hj).pollOther hq hj hs

section
variable (hset : ∀ w fs f, v.flags (v.set w (.setFlags fs)) f = fs.contains f)
include hset

/-- Whatever the request was, it is signaled as the counter says. -/
theorem signaled_answerWr (sendBuffer : M) (wr : W) (sendCounter totalLength : UInt64) :
    v.flags (answerWr v sendBuffer wr sendCounter totalLength) .SIGNALED =
      decide (sendCounter % 1024 = 0) := by
  have hflags : ∀ (signaled inlineMsg : Bool) (w : W),
      v.flags (setWrFlags v w signaled inlineMsg) .SIGNALED = signaled := by
    intro signaled inlineMsg w
    cases signaled <;> cases inlineMsg <;> simp [setWrFlags, hset]
  exact hflags _ _ _

/-- The counter of the connection goes up, and its request is made. -/
theorem phase_answer {m : Server.Method} {i : ℕ} {con : Connection W} (hq : q.Quiet)
    (he : ∀ i, Even srv q i) (hm : m.connection = some i)
    (hcon : srv.connections[i]? = some con) (sendBuffer : M) (wr : W) (totalLength : UInt64) :
    let sendCounter := con.sendCounter + 1
    let wr := answerWr v sendBuffer wr sendCounter totalLength
    Phase v (srv.modify i fun _ => ⟨wr, sendCounter⟩) q lastPost
      (some ⟨m, .call (.post wr) ::
        if sendCounter % 1024 = 0 then [.call .completion] else []⟩) := by
  intro sendCounter wr
  have hi := he i
  rw [Even, counter_of_get hcon] at hi
  refine .post hq (fun j hj => ?_) hm (counter_modify_self hcon _) (Nat.mod_lt _ (by decide)) hi ?_
    (signaled_answerWr hset ..)
  · rw [Even, counter_modify _ _ _ _ fun hij => absurd hij.symm hj]
    exact he j
  · rw [UInt64.toNat_add]
    show (con.sendCounter.toNat + 1) % 2 ^ 64 % 1024 = _
    omega

theorem advance_inv (h : Inv v s) (hs : s.advance v = some s') : Inv v s' := by
  obtain ⟨hphase, hpolled⟩ := h
  unfold advance at hs
  generalize hc : s.call = c at hphase hs
  cases hphase with
  | idle hq he => cases hs
  | @tame m rest hq he hrest =>
    cases rest with
    | nil =>
      cases hs
      exact ⟨.idle hq he, hpolled⟩
    | cons op rest =>
      have hrest' : ∀ op ∈ rest, Tame op := fun op hop => hrest op (List.mem_cons_of_mem _ hop)
      rcases hrest op List.mem_cons_self with rfl | ⟨f, rfl, hf⟩
      · cases hs
        exact ⟨.tame hq he hrest', hpolled⟩
      · cases hs
        refine ⟨.tame hq (fun i => ?_) hrest', hpolled⟩
        rw [Even, hf]
        exact he i
  | @answer m i con totalLength hq he hm hcon =>
    cases hs
    exact ⟨phase_answer hset hq he hm hcon _ _ _, hpolled⟩
  | @post m i k wr sendCounter hq he hm hcount hk hi hmod hsig =>
    simp only [netCall, hm, hsig, Option.map_some] at hs
    cases hs
    exact ⟨phase_post hq he hm hcount hk hi hmod, hpolled⟩
  | @poll m i hq he hm hi hcount hlast =>
    simp only [netCall, Option.map_map] at hs
    obtain ⟨⟨c, q'⟩, hp, rfl⟩ := Option.map_eq_some_iff.1 hs
    refine ⟨phase_poll hq he hcount hp, ?_⟩
    intro p hp'
    rcases List.mem_append.1 hp' with hp' | hp'
    · exact hpolled p hp'
    · rw [List.mem_singleton] at hp'
      rw [hp', hlast, (hq.poll hp).1]

theorem step_inv {t : Multiclient.Transport} {a : Act} (h : Inv v s)
    (hs : step v t s a = some s') : Inv v s' := by
  cases a with
  | call m =>
    simp only [step] at hs
    split at hs
    next hc =>
      obtain ⟨ops, hm, rfl⟩ := Option.map_eq_some_iff.1 hs
      have hphase := h.phase
      rw [hc] at hphase
      cases hphase with
      | idle hq he => exact ⟨phase_call hq he hm, h.polled⟩
    next => cases hs
  | server => exact advance_inv hset h hs
  | card i =>
    obtain ⟨q, hq, rfl⟩ := Option.map_eq_some_iff.1 hs
    exact ⟨h.phase.card hq, h.polled⟩

end

end

/-- **Each connection's completions are its own**, over the one completion queue, if flags that
    are set replace those from before. -/
theorem shared_exact (v : WorkRequests M S W)
    (hset : ∀ w fs f, v.flags (v.set w (.setFlags fs)) f = fs.contains f)
    (t : Multiclient.Transport) (acts : List Act) :
    AllStates (step v t) Exact (init v t) acts :=
  allStates_of_inv (fun _ h => Inv.exact h) (fun _ _ _ h hs => step_inv hset h hs) acts
    (inv_init t)

/-- Two clients, of which the first gets its 1024th answer while the one to the second is still
    to be executed. -/
def toBoth : List Act :=
  [.call (.accept 0), .server, .server, .server, .call (.accept 64), .server, .server, .server,
      .call (.send 1 700), .server, .server, .server] ++
    (List.replicate 1023 [.call (.send 0 7), .server, .server, .server, .card 0]).flatten ++
    [.call (.send 0 7), .server, .server, .card 0, .server, .server, .card 1]

theorem shared_toBoth :
    ((run (step Verbs.plain .doorbell) (init Verbs.plain .doorbell) toBoth).map fun s =>
        s.polled.length) = some 1 ∧
      AllStates (step Verbs.plain .doorbell) Exact (init Verbs.plain .doorbell) toBoth :=
  ⟨by decide +kernel, shared_exact Verbs.plain (fun _ _ _ => rfl) .doorbell toBoth⟩

end Serving

end Posting

end L5RDMA
