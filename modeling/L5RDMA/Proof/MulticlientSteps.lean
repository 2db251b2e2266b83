/-
  A step of the clients and the server is a move for each client.

  `Base` collects what does not concern a single client: the requests are
  INLINE, and nobody but the accepted clients asks.  `Inlined`: so are the answers.

  `step_view`: a step keeps `Base` and changes each client's view by a move, or
  not at all; `step_inlined`: it keeps `Inlined` if its answer is INLINE.
-/
import L5RDMA.Proof.MulticlientExchange

namespace L5RDMA

namespace Multiclient

open Run Verbs Exchange
open Pos (lengthOf)

namespace Exchanges

/-! ## The answers of the server -/

section
variable {t : Transport} {srv srv' : Server} {c : ℕ} {data : List UInt8}

/-- A call of `send` puts one answer on its way, or none. -/
theorem frames_send (hpc : srv.pc = .idle) (hc : c < srv.count)
    (hs : t.send srv c data = some srv') :
    srv'.count = srv.count ∧ ∃ l : List (List UInt8), l.length ≤ 1 ∧
      (AnswerOk data → l = [answerFrame data]) ∧
      ∀ c', frames srv' c' = frames srv c' ++ if c' = c then l else [] := by
  rw [t.send_eq] at hs
  unfold sendTo at hs
  dsimp only at hs
  split_ifs at hs with hlong hafter hend
  · cases hs
    refine ⟨rfl, [], Nat.zero_le _, fun hd => ?_, fun c' => by simp⟩
    have hmax : 512 ≤ t.maxMessageSize.toNat := by cases t <;> decide
    have hsmall := hd.2
    rw [gt_iff_lt, UInt64.lt_iff_toNat_lt, answerSize, Pos.ofNat_toNat,
      Nat.mod_eq_of_lt (by omega)] at hlong
    omega
  · omega
  · cases hs
    exact ⟨rfl, [answerFrame data], le_rfl, fun _ => rfl, fun c' => by
      simp [frames, hpc, posting, eq_comm]⟩

theorem frames_step (hs : srv.step = some srv') :
    srv'.count = srv.count ∧ ∀ c', frames srv' c' = frames srv c' := by
  unfold Server.step at hs
  cases hpc : srv.pc with
  | idle => rw [hpc] at hs; cases hs
  | post receiverId totalLength frame =>
    simp only [hpc] at hs
    cases hs
    refine ⟨rfl, fun c' => ?_⟩
    have hnone : ∀ b : Bool, posting (if b then .poll else .idle) c' = [] := by
      intro b; cases b <;> rfl
    by_cases hcc : c' = receiverId
    · subst hcc
      simp [frames, hpc, posting_post, hnone]
    · simp [frames, hpc, posting_post, hnone, hcc, Ne.symm hcc]
  | poll =>
    simp only [hpc] at hs
    split_ifs at hs
    cases hs
    exact ⟨rfl, fun c' => by rw [frames, frames, hpc]; rfl⟩

theorem frames_land {p : Posted} {rest : List Posted} (hsq : (srv.connections c).sq = p :: rest)
    (hs : srv.land c p.wr.length = some srv') :
    srv'.count = srv.count ∧ frames srv c = p.frame :: frames srv' c ∧
      ∀ c', c' ≠ c → frames srv' c' = frames srv c' := by
  unfold Server.land at hs
  simp only [hsq, le_refl, if_true] at hs
  cases hs
  refine ⟨rfl, ?_, ?_⟩
  · simp [frames, hsq]
  · intro c' hcc
    simp [frames, hcc]

theorem frames_complete (hs : srv.complete = some srv') :
    srv'.count = srv.count ∧ ∀ c', frames srv' c' = frames srv c' := by
  unfold Server.complete at hs
  split_ifs at hs
  cases hs
  exact ⟨rfl, fun c' => rfl⟩

end

/-- All answers are INLINE and none has begun to arrive. -/
structure Inlined (srv : Server) : Prop where
  inv : Inv srv
  posted : ∀ c, ∀ p ∈ (srv.connections c).sq,
    p.landed = [] ∧ p.wr.remoteOff = 0 ∧ p.wr.inlined ≠ none
  posting : ∀ c n frame, srv.pc = .post c n frame → n.toNat < 512

section
variable {t : Transport} {srv srv' : Server} {c : ℕ} {data : List UInt8}

/-- INLINE answers need `sendBuffer` no more. -/
theorem Inlined.fillSafe (h : Inlined srv) : FillSafe srv (.send c data) := by
  intro _ c' _ p hp i hi
  obtain ⟨bs, hin⟩ := Option.ne_none_iff_exists'.1 (h.posted c' p hp).2.2
  simp [Request.cells, hin] at hi

theorem Inlined.send (h : Inlined srv) (hc : c < srv.count) (hd : AnswerOk data)
    (hs : t.send srv c data = some srv') : Inlined srv' := by
  have hmax : data.length + 9 ≤ t.maxMessageSize.toNat := by
    have : 512 ≤ t.maxMessageSize.toNat := by cases t <;> decide
    have := hd.2
    omega
  have hlen : (lengthOf data + 8 + 1).toNat = data.length + 9 := by
    have := hd.2
    rw [answerSize, Pos.ofNat_toNat, Nat.mod_eq_of_lt (by omega)]
  rw [t.send_eq] at hs
  have hinv := sendTo_inv h.inv hmax h.fillSafe hs
  unfold sendTo at hs
  dsimp only at hs
  rw [if_neg (by rw [gt_iff_lt, UInt64.lt_iff_toNat_lt, hlen]; omega), if_neg (by omega),
    if_neg (by omega)] at hs
  cases hs
  refine ⟨hinv, h.posted, ?_⟩
  intro c' n frame he
  cases he
  rw [hlen]
  exact hd.2

theorem Inlined.step (h : Inlined srv) (hs : srv.step = some srv') : Inlined srv' := by
  have hinv := serverStep_inv h.inv hs
  unfold Server.step at hs
  cases hpc : srv.pc with
  | idle => rw [hpc] at hs; cases hs
  | post receiverId totalLength frame =>
    simp only [hpc] at hs
    cases hs
    have hsmall : totalLength < 512 := UInt64.lt_iff_toNat_lt.2 (h.posting _ _ _ hpc)
    refine ⟨hinv, ?_, ?_⟩
    · intro c' p hp
      by_cases hcc : c' = receiverId
      · subst hcc
        simp only [Function.update_self, List.mem_append, List.mem_singleton] at hp
        rcases hp with hp | rfl
        · exact h.posted c' p hp
        · exact ⟨rfl, rfl, by simp [answerWr, setWrFlags, hsmall]⟩
      · simp only [Function.update_of_ne hcc] at hp
        exact h.posted c' p hp
    · intro c' n f he
      dsimp only at he
      split_ifs at he
  | poll =>
    simp only [hpc] at hs
    split_ifs at hs
    cases hs
    exact ⟨hinv, h.posted, fun c' n f he => by cases he⟩

/-- The bytes of an answer that arrives in one piece are its frame. -/
theorem Inlined.bytes (h : Inlined srv) {p : Posted} (hp : p ∈ (srv.connections c).sq) :
    p.wr.bytes id srv.sendBuffer p.wr.length = p.frame := by
  have hgood := (h.inv.queued c p hp).land le_rfl
  have hl := (h.posted c p hp).1
  rw [hl, List.nil_append] at hgood
  refine hgood.landed.eq_of_length ?_
  have := hgood.length
  simpa [Write.drop] using this

theorem Inlined.land (h : Inlined srv) {p : Posted} {rest : List Posted}
    (hsq : (srv.connections c).sq = p :: rest) (hs : srv.land c p.wr.length = some srv') :
    Inlined srv' := by
  have hinv := land_inv h.inv hs
  unfold Server.land at hs
  simp only [hsq, le_refl, if_true] at hs
  cases hs
  refine ⟨hinv, ?_, h.posting⟩
  intro c' q hq
  by_cases hcc : c' = c
  · subst hcc
    simp only [Function.update_self] at hq
    exact h.posted c' q (by simp [hsq, hq])
  · simp only [Function.update_of_ne hcc] at hq
    exact h.posted c' q hq

theorem Inlined.complete (h : Inlined srv) (hs : srv.complete = some srv') : Inlined srv' := by
  unfold Server.complete at hs
  split_ifs at hs
  cases hs
  exact ⟨{ h.inv with }, h.posted, h.posting⟩

end

/-! ## The requests of a client -/

section
variable {k : Polling} {cl cl' : Client} {data : List UInt8}

/-- The two copies of `send`, in either order, put the request in place. -/
theorem holds_copy (m : Mem) (data : List UInt8) :
    Holds (Mem.write id (Mem.write id m 8 data) 0 (bytesOf (lengthOf data))) (requestFrame data) ∧
      Holds (Mem.write id (Mem.write id m 0 (bytesOf (lengthOf data))) 8 data)
        (requestFrame data) := by
  have hl : (bytesOf (lengthOf data)).length = 8 := Bytes.length_le64 _
  constructor
  · intro i b hb
    rw [requestFrame] at hb
    rcases Nat.lt_or_ge i 8 with hi | hi
    · rw [List.getElem?_append_left (by omega)] at hb
      rw [← Nat.zero_add i]
      exact Mem.write_id_of_get hb
    · obtain ⟨j, rfl⟩ := Nat.exists_eq_add_of_le hi
      rw [List.getElem?_append_right (by omega), hl, Nat.add_sub_cancel_left] at hb
      rw [Mem.write_id_of_ne (Or.inr (by omega)), Mem.write_id_of_get hb]
  · intro i b hb
    rw [requestFrame] at hb
    rcases Nat.lt_or_ge i 8 with hi | hi
    · rw [List.getElem?_append_left (by omega)] at hb
      rw [Mem.write_id_of_ne (Or.inl hi), ← Nat.zero_add i]
      exact Mem.write_id_of_get hb
    · obtain ⟨j, rfl⟩ := Nat.exists_eq_add_of_le hi
      rw [List.getElem?_append_right (by omega), hl, Nat.add_sub_cancel_left] at hb
      exact Mem.write_id_of_get hb

theorem Holds.read {m : Mem} {n : ℕ} (h : Holds m (requestFrame data)) (hn : n = data.length + 8) :
    Mem.read id m 0 n = requestFrame data := by
  subst hn
  ext i : 1
  rcases Nat.lt_or_ge i (data.length + 8) with hi | hi
  · have hb := List.getElem?_eq_getElem (l := requestFrame data) (i := i)
      (by rwa [length_requestFrame])
    rw [Mem.read_get hi, Nat.zero_add, hb]
    exact congrArg some (h i _ hb)
  · rw [List.getElem?_eq_none (by simpa using hi),
      List.getElem?_eq_none (by rwa [length_requestFrame])]

/-- A call of `send` puts the request into `sendBuffer`. -/
theorem send_spec (hd : RequestOk k data) (cl : Client) :
    ∃ m n, k.send cl data = { cl with sendBuffer := m, pc := .post n } ∧
      n.toNat = data.length + 8 ∧ Mem.read id m 0 n.toNat = requestFrame data := by
  have hsmall := hd.1
  have hn : (lengthOf data + 8).toNat = data.length + 8 := by
    rw [UInt64.toNat_add, hd.toNat]
    exact Nat.mod_eq_of_lt (by change data.length + 8 < 2 ^ 64; omega)
  have hle : ¬ lengthOf data + 8 > 256 * 1024 * 1024 := by
    rw [gt_iff_lt, UInt64.lt_iff_toNat_lt, hn]
    change ¬ 268435456 < data.length + 8
    omega
  obtain ⟨hholds, hholds'⟩ := holds_copy cl.sendBuffer data
  cases k with
  | doorbell =>
    refine ⟨_, _, ?_, hn, hholds.read hn⟩
    rw [Polling.send, MultiClientRDMATransportClient.send]
    exact if_neg hle
  | distinctMr =>
    refine ⟨_, _, ?_, hn, hholds'.read hn⟩
    rw [Polling.send, MulticlientRDMADistinctMrTransportClient.send]
    exact if_neg hle

/-- The writes of a client do not depend on which of them it has posted. -/
theorem sendStep_script (hpost : ∀ n, cl.pc = .post n → n.toNat ≤ 512)
    (hs : k.sendStep cl = some cl') :
    requestScript k cl' = requestScript k cl ∧ cl'.receiver = cl.receiver ∧ cl'.sent = cl.sent ∧
      ∀ n, cl'.pc ≠ .post n := by
  have hpoll : ∀ n, cl.pc = .poll n → cl.poll n = some cl' →
      requestScript k cl' = requestScript k cl ∧ cl'.receiver = cl.receiver ∧
        cl'.sent = cl.sent ∧ ∀ n, cl'.pc ≠ .post n := by
    intro n hpc hs
    unfold Client.poll at hs
    split_ifs at hs
    cases hs
    cases n <;> simp [requestScript, unposted, hpc]
  have hinline : ∀ n, cl.pc = .post n → ¬ n > maxInlineSize := fun n hpc =>
    UInt64.not_lt.2 (UInt64.le_iff_toNat_le.2 (hpost n hpc))
  cases k with
  | doorbell =>
    simp only [Polling.sendStep, MultiClientRDMATransportClient.sendStep] at hs
    cases hpc : cl.pc with
    | idle => rw [hpc] at hs; cases hs
    | post n =>
      simp only [hpc, Client.post, if_neg (hinline n hpc)] at hs
      cases hs
      simp [requestScript, unposted, hpc, bells]
    | ring =>
      simp only [hpc] at hs
      cases hs
      simp [requestScript, unposted, hpc]
    | poll n => exact hpoll n hpc (by simpa only [hpc] using hs)
  | distinctMr =>
    simp only [Polling.sendStep, MulticlientRDMADistinctMrTransportClient.sendStep] at hs
    cases hpc : cl.pc with
    | idle | ring => rw [hpc] at hs; cases hs
    | post n =>
      simp only [hpc, Client.post, if_neg (hinline n hpc)] at hs
      cases hs
      simp [requestScript, unposted, hpc, bells]
    | poll n => exact hpoll n hpc (by simpa only [hpc] using hs)

end

/-! ## The views after a step -/

/-- The client whose request the server finds in its next step. -/
def looked (k : Polling) (slots : Slots) : Option ℕ :=
  match slots.pc with
  | .poll _ i => if i < k.bound slots then k.look slots i else none
  | _ => none

structure Base (s : State) : Prop where
  asking : ∀ c n, (s.clients c).pc = .post n → n.toNat ≤ 512
  count : s.slots.count = s.server.count
  accepted : ∀ c, s.server.count ≤ c → (s.clients c).sent = []

section
variable {inlined : Prop} {k : Polling} {s s' : State} {c c' : ℕ}

theorem delivered_append (returned : List (ℕ × List UInt8)) (c : ℕ) (bytes : List UInt8) :
    ((returned ++ [(c, bytes)]).filter fun r => r.1 = c).map (fun r => r.2) =
      (returned.filter fun r => r.1 = c).map (fun r => r.2) ++ [bytes] := by
  simp

/-- Only one client changes. -/
theorem view_update {cl : Client} (h : c' ≠ c) :
    view k { s with clients := Function.update s.clients c cl } c' = view k s c' := by
  simp [view, State.log, State.delivered, h]

theorem view_update_self {cl : Client} :
    view k { s with clients := Function.update s.clients c cl } c =
      { view k s c with
        script := requestScript k cl, receiver := cl.receiver
        log := { s.log c with sent := cl.sent, got := cl.receiver.got } } := by
  simp [view, State.log, State.delivered]

@[simp] theorem held_idle (c : ℕ) : held .idle c = .idle := rfl

theorem held_of_ne {pc : ServePc} (h : pc.sender ≠ some c) : held pc c = .idle := if_neg h

theorem held_of_eq {pc : ServePc} (h : pc.sender = some c) : held pc c = pc := if_pos h

/-- The server finds a client whose request is announced. -/
theorem looked_eq_some {slots : Slots} (h : looked k slots = some c) : Announced k slots c := by
  unfold looked at h
  split at h
  · split_ifs at h; exact Polling.look_eq_some h
  · cases h

theorem pc_of_held {pc : ServePc} (h : (view k s c).held = pc) (hne : pc ≠ .idle) :
    s.slots.pc = pc := by
  by_cases hs : s.slots.pc.sender = some c
  · exact (held_of_eq hs).symm.trans h
  · exact absurd (h.symm.trans (held_of_ne hs)) hne

theorem held_self {pc : ServePc} (hpc : s.slots.pc = pc) (h : pc.sender = some c) :
    (view k s c).held = pc := by
  rw [← hpc] at h ⊢
  exact held_of_eq h

/-- Only what the server does and knows changes. -/
theorem view_slots {slots : Slots} {slot : Mem} {bell : UInt8} {pc : ServePc}
    {delivered : List (List UInt8)} (hslot : slots.receives c = slot)
    (hbell : slots.doorBells c = bell) (hpc : held slots.pc c = pc)
    (hret : (slots.returned.filter fun r => r.1 = c).map (fun r => r.2) = delivered) :
    view k { s with slots := slots } c =
      { view k s c with
        slot := slot, bell := bell, held := pc
        log := { s.log c with delivered := delivered } } := by
  subst hslot hbell hpc hret
  rfl

theorem move_slots {slots : Slots} {slot : Mem} {bell : UInt8} {pc : ServePc}
    {delivered : List (List UInt8)} {l : Option ℕ} (hslot : slots.receives c = slot)
    (hbell : slots.doorBells c = bell) (hpc : held slots.pc c = pc)
    (hret : (slots.returned.filter fun r => r.1 = c).map (fun r => r.2) = delivered)
    (hm : Move inlined k l c .server (view k s c)
      { view k s c with
        slot := slot, bell := bell, held := pc
        log := { s.log c with delivered := delivered } }) :
    Move inlined k l c .server (view k s c) (view k { s with slots := slots } c) := by
  rw [view_slots hslot hbell hpc hret]
  exact hm

/-- The server does nothing that concerns client `c`. -/
theorem view_slots_of_ne {slots : Slots} (hslot : slots.receives c = s.slots.receives c)
    (hbell : slots.doorBells c = s.slots.doorBells c) (hpc : s.slots.pc.sender ≠ some c)
    (hpc' : slots.pc.sender ≠ some c)
    (hret : (slots.returned.filter fun r => r.1 = c) = s.slots.returned.filter fun r => r.1 = c) :
    view k { s with slots := slots } c = view k s c := by
  rw [view_slots hslot hbell (held_of_ne hpc') (congrArg _ hret), ← held_of_ne hpc]
  rfl

section
variable {slots : Slots}

/-- A client that the server is with after a look is the one it has found. -/
theorem afterLook_sender {maxSize : UInt64} {i : ℕ}
    (h : (k.afterLook s.slots maxSize i).sender = some c) :
    i < k.bound s.slots ∧ k.look s.slots i = some c ∧
      k.afterLook s.slots maxSize i = k.found maxSize c := by
  rcases Nat.lt_or_ge i (k.bound s.slots) with hi | hi
  · rw [Polling.afterLook_of_lt hi] at h ⊢
    cases hd : k.look s.slots i with
    | none => rw [hd] at h; cases h
    | some d =>
      have hfound : (k.found maxSize d).sender = some d := by cases k <;> rfl
      rw [hd] at h
      obtain rfl : d = c := Option.some.inj (hfound.symm.trans h)
      exact ⟨hi, rfl, rfl⟩
  · rw [Polling.afterLook_of_le hi] at h
    cases h

/-- The server gets to another client only by finding it. -/
theorem move_of_found (h : Polling.ReceiveStep k s.slots slots)
    (hc : s.slots.pc.sender ≠ some c) (hc' : slots.pc.sender = some c) :
    Move inlined k (looked k s.slots) c .server (view k s c)
      (view k { s with slots := slots } c) := by
  cases h with
  | poll hpc =>
    obtain ⟨hi, hlook, hfound⟩ := afterLook_sender hc'
    have hlooked : looked k s.slots = some c := by
      rw [looked, hpc]
      exact (if_pos hi).trans hlook
    exact move_slots rfl rfl ((held_of_eq hc').trans hfound) rfl (.find hlooked)
  | clear hk hpc | size hpc | copy hk hpc => rw [hpc] at hc; exact absurd hc' hc
  | throw | deliver | reset => cases hc'

/-- A client that the server is not with keeps its slot, its bell and its requests. -/
theorem slots_of_ne (h : Polling.ReceiveStep k s.slots slots) (hc : s.slots.pc.sender ≠ some c) :
    slots.receives c = s.slots.receives c ∧ slots.doorBells c = s.slots.doorBells c ∧
      (slots.returned.filter fun r => r.1 = c) = s.slots.returned.filter fun r => r.1 = c := by
  cases h with
  | poll | size | throw | copy => exact ⟨rfl, rfl, rfl⟩
  | clear hk hpc =>
    rw [hpc] at hc
    exact ⟨rfl, Function.update_of_ne (fun h => hc (congrArg some h.symm)) _ _, rfl⟩
  | deliver hk hpc =>
    rw [hpc] at hc
    have hne : ¬ _ = c := fun h => hc (congrArg some h)
    exact ⟨rfl, rfl, by simp [hne]⟩
  | reset hk hpc =>
    rw [hpc] at hc
    have hne : ¬ _ = c := fun h => hc (congrArg some h)
    exact ⟨Function.update_of_ne (Ne.symm hne) _ _, rfl, by simp [hne]⟩

/-- What a step of the server is for the client that it is with. -/
theorem move_of_sender (h : Polling.ReceiveStep k s.slots slots)
    (hc : s.slots.pc.sender = some c) :
    Move inlined k (looked k s.slots) c .server (view k s c)
      (view k { s with slots := slots } c) := by
  cases h with
  | poll hpc => rw [hpc] at hc; cases hc
  | clear hk hpc =>
    rw [hpc] at hc
    cases hc
    exact move_slots rfl (Function.update_self _ _ _) (held_of_eq rfl) rfl
      (.clear hk (held_self hpc rfl))
  | size hpc =>
    rw [hpc] at hc
    cases hc
    exact move_slots rfl rfl (held_of_eq rfl) rfl (.load (held_self hpc rfl))
  | throw hpc hmax =>
    rw [hpc] at hc
    cases hc
    exact move_slots rfl rfl (held_idle c) rfl (.throw (held_self hpc rfl) hmax)
  | deliver hk hpc =>
    rw [hpc] at hc
    cases hc
    exact move_slots rfl rfl (held_idle c) (delivered_append _ c _)
      (.deliver hk (held_self hpc rfl))
  | copy hk hpc =>
    rw [hpc] at hc
    cases hc
    exact move_slots rfl rfl (held_of_eq rfl) rfl (.copy hk (held_self hpc rfl))
  | reset hk hpc =>
    rw [hpc] at hc
    cases hc
    exact move_slots (Function.update_self _ _ _) rfl (held_idle c) (delivered_append _ c _)
      (.reset hk (held_self hpc rfl))

/-- A step of the server's `receive`. -/
theorem receiveStep_view (hs : k.receiveStep s.slots = some slots) (c : ℕ) :
    view k { s with slots := slots } c = view k s c ∨
      Move inlined k (looked k s.slots) c .server (view k s c)
        (view k { s with slots := slots } c) := by
  have h := Polling.receiveStep_cases hs
  by_cases hc : s.slots.pc.sender = some c
  · exact Or.inr (move_of_sender h hc)
  · by_cases hc' : slots.pc.sender = some c
    · exact Or.inr (move_of_found h hc hc')
    · obtain ⟨hslot, hbell, hret⟩ := slots_of_ne h hc
      exact Or.inl (view_slots_of_ne hslot hbell hc hc' hret)

end

/-! ## The steps -/

theorem Base.update (h : Base s) (cl : Client) (hpost : ∀ n, cl.pc = .post n → n.toNat ≤ 512)
    (hacc : s.server.count ≤ c → cl.sent = []) :
    Base { s with clients := Function.update s.clients c cl } := by
  refine { h with asking := ?_, accepted := ?_ }
  · intro c' n he
    by_cases hcc : c' = c
    · subst hcc; exact hpost n (by simpa using he)
    · exact h.asking c' n (by simpa [hcc] using he)
  · intro c' hc'
    by_cases hcc : c' = c
    · subst hcc; simpa using hacc hc'
    · simpa [hcc] using h.accepted c' hc'

/-- The server's `send` goes on, and the answers on their way stay the same. -/
theorem Base.server_update {srv : Server} (h : Base s)
    (hsrv : srv.count = s.server.count ∧ ∀ c, frames srv c = frames s.server c) :
    Base { s with server := srv } ∧ ∀ c, view k { s with server := srv } c = view k s c := by
  obtain ⟨hcount, hframes⟩ := hsrv
  refine ⟨⟨h.asking, hcount.symm ▸ h.count, hcount.symm ▸ h.accepted⟩, ?_⟩
  intro c
  simp [view, State.log, State.delivered, hframes]

/-- One client changes by a move, and nothing that concerns the others. -/
theorem view_one {l : Option ℕ} {a : Act} (c : ℕ) (hne : ∀ c', c' ≠ c → view k s' c' = view k s c')
    (hself : view k s' c = view k s c ∨ Move inlined k l c a (view k s c) (view k s' c)) (c' : ℕ) :
    view k s' c' = view k s c' ∨ Move inlined k l c' a (view k s c') (view k s' c') := by
  by_cases hcc : c' = c
  · subst hcc; exact hself
  · exact Or.inl (hne c' hcc)

theorem send_view {data : List UInt8} (h : Base s) (hd : RequestOk k data)
    (hs : step k s (.send c data) = some s') :
    Base s' ∧ ∀ c', view k s' c' = view k s c' ∨
      Move inlined k (looked k s.slots) c' (.send c data) (view k s c') (view k s' c') := by
  simp only [step] at hs
  split at hs
  next hpc hrpc =>
    split_ifs at hs with hturn
    cases hs
    obtain ⟨m, n, hsend, hn, hread⟩ := send_spec hd (s.clients c)
    rw [hsend]
    refine ⟨h.update _ ?_ ?_,
      view_one c (fun c' => view_update) (Or.inr ?_)⟩
    · intro n' he
      cases he; rw [hn]; exact hd.1
    · intro hc
      have := h.count; have := hturn.1; omega
    · have hscript : ∀ sent, requestScript k
          { s.clients c with sendBuffer := m, pc := .post n, sent := sent } =
            (view k s c).script ++ .data 0 (requestFrame data) :: bells k := by
        intro sent
        simp [view, requestScript, unposted, hpc, hread]
      rw [view_update_self, hscript]
      exact Move.ask hturn.2
  next => cases hs

theorem receive_view {maxSize : UInt64} (h : Base s)
    (hs : step k s (.receive c maxSize) = some s') :
    Base s' ∧ ∀ c', view k s' c' = view k s c' ∨
      Move inlined k (looked k s.slots) c' (.receive c maxSize) (view k s c') (view k s' c') := by
  simp only [step] at hs
  split at hs
  next hpc hrpc =>
    split_ifs at hs with hturn
    cases hs
    refine ⟨h.update _ (fun n he => h.asking c n he) (h.accepted c),
      view_one c (fun c' => view_update) (Or.inr ?_)⟩
    rw [view_update_self]
    exact Move.receive hrpc
  next => cases hs

theorem client_view (h : Base s) (hs : step k s (.client c) = some s') :
    Base s' ∧ ∀ c', view k s' c' = view k s c' ∨
      Move inlined k (looked k s.slots) c' (.client c) (view k s c') (view k s' c') := by
  simp only [step, Option.map_eq_some_iff] at hs
  obtain ⟨cl, hcl, rfl⟩ := hs
  cases hpc : (s.clients c).pc with
  | idle =>
    simp only [hpc, Option.map_eq_some_iff] at hcl
    obtain ⟨receiver, hr, rfl⟩ := hcl
    rw [Transport.receiveStep_eq] at hr
    have hm : Move inlined k (looked k s.slots) c (.client c) (view k s c) _ := Move.client hr
    refine ⟨h.update _ (fun n he => by cases he) (h.accepted c),
      view_one c (fun c' => view_update) (Or.inr ?_)⟩
    rw [view_update_self]
    simpa [view, State.log, requestScript, unposted, hpc] using hm
  | post | ring | poll =>
    have hstep : k.sendStep (s.clients c) = some cl := by simpa only [hpc] using hcl
    obtain ⟨hscript, hrec, hsent, hnot⟩ := sendStep_script (h.asking c) hstep
    refine ⟨h.update _ (fun n he => absurd he (hnot n)) (fun hc => hsent ▸ h.accepted c hc),
      view_one c (fun c' => view_update) (Or.inl ?_)⟩
    rw [view_update_self, hscript, hrec, hsent]
    rfl

theorem land_view {words : ℕ} (h : Base s) (hs : step k s (.land c words) = some s') :
    Base s' ∧ ∀ c', view k s' c' = view k s c' ∨
      Move inlined k (looked k s.slots) c' (.land c words) (view k s c') (view k s' c') := by
  simp only [step, land] at hs
  split at hs
  next => cases hs
  next off bytes sq hsq =>
    cases hs
    have hscript : (view k s c).script = .data off bytes :: (sq ++ unposted k (s.clients c)) := by
      simp [view, requestScript, hsq]
    have hm : Move inlined k (looked k s.slots) c (.land c words) (view k s c) _ :=
      Move.land hscript
    by_cases hall : bytes.length ≤ 8 * words
    · rw [if_pos hall] at hm ⊢
      have hb := h.update (c := c) { s.clients c with sq := sq, acks := (s.clients c).acks + 1 }
        (fun n he => h.asking c n he) (h.accepted c)
      refine ⟨{ hb with count := h.count }, view_one c ?_ (Or.inr ?_)⟩
      · intro c' hcc
        simp [view, State.log, State.delivered, hcc]
      · simpa [view, State.log, State.delivered, requestScript, unposted] using hm
    · rw [if_neg hall] at hm ⊢
      have hb := h.update (c := c)
        { s.clients c with sq := .data (off + 8 * words) (bytes.drop (8 * words)) :: sq }
        (fun n he => h.asking c n he) (h.accepted c)
      refine ⟨{ hb with count := h.count }, view_one c ?_ (Or.inr ?_)⟩
      · intro c' hcc
        simp [view, State.log, State.delivered, hcc]
      · simpa [view, State.log, State.delivered, requestScript, unposted] using hm
  next sq hsq =>
    cases hs
    have hscript : (view k s c).script = .bell :: (sq ++ unposted k (s.clients c)) := by
      simp [view, requestScript, hsq]
    have hm : Move inlined k (looked k s.slots) c (.land c words) (view k s c) _ :=
      Move.ring hscript
    have hb := h.update (c := c) { s.clients c with sq := sq, acks := (s.clients c).acks + 1 }
      (fun n he => h.asking c n he) (h.accepted c)
    refine ⟨{ hb with count := h.count }, view_one c ?_ (Or.inr ?_)⟩
    · intro c' hcc
      simp [view, State.log, State.delivered, hcc]
    · simpa [view, State.log, State.delivered, requestScript, unposted] using hm

theorem complete_view (h : Base s) (hs : step k s (.complete c) = some s') :
    Base s' ∧ ∀ c', view k s' c' = view k s c' := by
  simp only [step] at hs
  split_ifs at hs
  cases hs
  refine ⟨h.update _ (fun n he => h.asking c n he) (h.accepted c), ?_⟩
  intro c'
  by_cases hcc : c' = c
  · subst hcc
    rw [view_update_self]
    rfl
  · exact view_update hcc

theorem serve_view {maxSize : UInt64} (h : Base s) (hs : step k s (.serve maxSize) = some s') :
    Base s' ∧ ∀ c', view k s' c' = view k s c' := by
  simp only [step] at hs
  split at hs
  next hpc _ =>
    cases hs
    refine ⟨{ h with count := h.count }, fun c' => view_slots_of_ne rfl rfl ?_ ?_ rfl⟩
    · rw [hpc]; simp [ServePc.sender]
    · simp [ServePc.sender]
  next => cases hs

/-- A client that is owed an answer was accepted. -/
theorem lt_count_of_owed (hdel : ∀ c, s.server.count ≤ c → s.delivered c = [])
    (howed : (s.answers c).length < (s.delivered c).length) : c < s.server.count := by
  by_contra hc
  rw [hdel c (by omega)] at howed
  exact absurd howed (Nat.not_lt_zero _)

theorem answer_view {data : List UInt8} (h : Base s)
    (hdel : ∀ c, s.server.count ≤ c → s.delivered c = [])
    (hs : step k s (.answer c data) = some s') :
    Base s' ∧ ∀ c', view k s' c' = view k s c' ∨
      Move inlined k (looked k s.slots) c' (.answer c data) (view k s c') (view k s' c') := by
  simp only [step] at hs
  split at hs
  next hpc hspc =>
    split_ifs at hs with howed
    obtain ⟨srv, hsrv, rfl⟩ := Option.map_eq_some_iff.1 hs
    obtain ⟨hcount, l, hlen, hl, hframes⟩ := frames_send hspc (lt_count_of_owed hdel howed) hsrv
    refine ⟨⟨h.asking, hcount.symm ▸ h.count, hcount.symm ▸ h.accepted⟩,
      view_one c ?_ (Or.inr ?_)⟩
    · intro c' hcc
      simp [view, State.log, State.delivered, hframes, hcc]
    · have hm : Move inlined k (looked k s.slots) c (.answer c data) (view k s c) _ :=
        Move.answer howed hlen hl
      simpa [view, State.log, State.delivered, hframes] using hm
  next => cases hs

theorem server_view (h : Base s) (hs : step k s .server = some s') :
    Base s' ∧ ∀ c', view k s' c' = view k s c' ∨
      Move inlined k (looked k s.slots) c' .server (view k s c') (view k s' c') := by
  simp only [step] at hs
  split at hs
  next =>
    obtain ⟨srv, hsrv, rfl⟩ := Option.map_eq_some_iff.1 hs
    obtain ⟨hb, hv⟩ := h.server_update (k := k) (frames_step hsrv)
    exact ⟨hb, fun c' => Or.inl (hv c')⟩
  next =>
    obtain ⟨slots, hslots, rfl⟩ := Option.map_eq_some_iff.1 hs
    exact ⟨{ h with count := (Polling.receiveStep_frame hslots).1.trans h.count },
      fun c' => receiveStep_view hslots c'⟩

theorem landAnswer_view (h : Base s) (hin : inlined → Inlined s.server)
    (hs : step k s (.landAnswer c) = some s') :
    Base s' ∧ ∀ c', view k s' c' = view k s c' ∨
      Move inlined k (looked k s.slots) c' (.landAnswer c) (view k s c') (view k s' c') := by
  simp only [step, landAnswer] at hs
  split at hs
  next => cases hs
  next p rest hsq =>
    obtain ⟨srv, hsrv, rfl⟩ := Option.map_eq_some_iff.1 hs
    have hp : p ∈ (s.server.connections c).sq := by rw [hsq]; exact List.mem_cons_self
    obtain ⟨hcount, hframes, hne⟩ := frames_land hsq hsrv
    let bytes := p.wr.bytes id s.server.sendBuffer p.wr.length
    have hb := h.update (c := c)
      { s.clients c with
        receiver := { (s.clients c).receiver with
          receiveBuffer :=
            Mem.write id (s.clients c).receiver.receiveBuffer p.wr.remoteOff bytes } }
      (fun n he => h.asking c n he) (h.accepted c)
    refine ⟨⟨hb.asking, hcount.symm ▸ hb.count, hcount.symm ▸ hb.accepted⟩,
      view_one c ?_ (Or.inr ?_)⟩
    · intro c' hcc
      simp [view, State.log, State.delivered, hne c' hcc, hcc]
    · have hbytes : inlined → p.wr.remoteOff = 0 ∧ bytes = p.frame := fun hinlined =>
        ⟨((hin hinlined).posted c p hp).2.1, (hin hinlined).bytes hp⟩
      have hm : Move inlined k (looked k s.slots) c (.landAnswer c) (view k s c) _ :=
        Move.landAnswer hframes hbytes
      simpa [view, State.log, State.delivered, requestScript, unposted] using hm

/-- **A step is a move** for each client, or nothing. -/
theorem step_view {a : Act} (h : Base s) (hin : inlined → Inlined s.server)
    (hdel : ∀ c, s.server.count ≤ c → s.delivered c = []) (hreq : Requested k a)
    (hs : step k s a = some s') : Base s' ∧ ∀ c, view k s' c = view k s c ∨
      Move inlined k (looked k s.slots) c a (view k s c) (view k s' c) := by
  cases a with
  | send c data => exact send_view h hreq hs
  | receive c maxSize => exact receive_view h hs
  | client c => exact client_view h hs
  | land c words => exact land_view h hs
  | complete c => exact (complete_view h hs).imp_right fun hv c' => Or.inl (hv c')
  | serve maxSize => exact (serve_view h hs).imp_right fun hv c' => Or.inl (hv c')
  | answer c data => exact answer_view h hdel hs
  | server => exact server_view h hs
  | landAnswer c => exact landAnswer_view h hin hs
  | completeAnswer =>
    obtain ⟨srv, hsrv, rfl⟩ := Option.map_eq_some_iff.1 hs
    obtain ⟨hb, hv⟩ := h.server_update (k := k) (frames_complete hsrv)
    exact ⟨hb, fun c' => Or.inl (hv c')⟩

/-- A step whose answer is INLINE leaves all of them so. -/
theorem step_inlined {a : Act} (h : Inlined s.server)
    (hdel : ∀ c, s.server.count ≤ c → s.delivered c = []) (hadm : Admitted k a)
    (hs : step k s a = some s') : Inlined s'.server := by
  cases a with
  | answer c data =>
    simp only [step] at hs
    split at hs
    next =>
      split_ifs at hs with howed
      obtain ⟨srv, hsrv, rfl⟩ := Option.map_eq_some_iff.1 hs
      exact h.send (lt_count_of_owed hdel howed) hadm hsrv
    next => cases hs
  | server =>
    simp only [step] at hs
    split at hs
    next =>
      obtain ⟨srv, hsrv, rfl⟩ := Option.map_eq_some_iff.1 hs
      exact h.step hsrv
    next =>
      obtain ⟨slots, -, rfl⟩ := Option.map_eq_some_iff.1 hs
      exact h
  | landAnswer c =>
    simp only [step, landAnswer] at hs
    split at hs
    next => cases hs
    next p rest hsq =>
      obtain ⟨srv, hsrv, rfl⟩ := Option.map_eq_some_iff.1 hs
      exact h.land hsq hsrv
  | completeAnswer =>
    obtain ⟨srv, hsrv, rfl⟩ := Option.map_eq_some_iff.1 hs
    exact h.complete hsrv
  | client c =>
    simp only [step, Option.map_eq_some_iff] at hs
    obtain ⟨cl, -, rfl⟩ := hs
    exact h
  | land c words =>
    simp only [step, land] at hs
    split at hs <;> cases hs <;> exact h
  | complete c =>
    simp only [step] at hs
    split_ifs at hs
    cases hs
    exact h
  | serve maxSize =>
    simp only [step] at hs
    split at hs <;> cases hs
    exact h
  | send | receive =>
    simp only [step] at hs
    split at hs
    next => split_ifs at hs; cases hs; exact h
    next => cases hs

end

end Exchanges

end Multiclient

end L5RDMA
