/-
  The exchange of one client with the server over a shared receive queue.

  `view` is what concerns one client; `View.Ok` is the invariant of its
  exchange with the server, with one lemma for each event: its request
  travels, waits in the completion queue, is in the hands of the server or was
  refused, and then the answer travels back.
-/
import L5RDMA.Proof.MulticlientDelivery
import L5RDMA.Proof.MulticlientRecvQueue

namespace L5RDMA

namespace Multiclient

open Run Verbs Exchange
open Pos (lengthOf)

namespace Recv

open Exchanges (requestFrame frames Holds AnswerOk Unanswered Answered)

/-! ## The view of one client -/

def TakePc.client : TakePc → Option ℕ
  | .idle | .poll _ => none
  | .post _ client | .size _ client | .copy _ client _ => some client

/-- What the server does with the request of client `c`. -/
def held (pc : TakePc) (c : ℕ) : TakePc := if pc.client = some c then pc else .idle

structure View where
  client : Client
  /-- the data of its last call of `send` -/
  asking : List UInt8
  delivered : List (List UInt8)
  answers : List (List UInt8)
  slot : Mem
  /-- the completion of its request is in the queue -/
  queued : Prop
  held : TakePc
  refused : Prop
  frames : List (List UInt8)

def State.queued (s : State) (c : ℕ) : Prop := ∃ q, s.qpns[c]? = some q ∧ q ∈ s.recv.completions

def view (s : State) (c : ℕ) : View where
  client := s.clients c
  asking := s.asking c
  delivered := s.delivered c
  answers := s.answers c
  slot := s.receives c
  queued := s.queued c
  held := held s.pc c
  refused := c ∈ s.refused
  frames := frames s.server c

def View.log (v : View) : Log (List UInt8) where
  sent := v.client.sent
  delivered := v.delivered
  answers := v.answers
  got := v.client.receiver.got

/-! ## The invariant of an exchange -/

/-- What the server knows of the request `data` that it has taken. -/
def HeldOk (data : List UInt8) : TakePc → Prop
  | .idle | .poll _ => False
  | .post _ _ | .size _ _ => True
  | .copy _ _ size => size = lengthOf data

/-- The request has not arrived completely, -/
def Travelling (v : View) (data : List UInt8) : Prop :=
  ¬ v.queued ∧ v.held = .idle ∧ ∃ off < data.length + 8,
    v.client.sq = [.data off ((requestFrame data).drop off)] ∧
    ∀ i < off, ∀ b, (requestFrame data)[i]? = some b → v.slot i = b

/-- it waits in the completion queue, -/
def Queued (v : View) (data : List UInt8) : Prop :=
  v.queued ∧ v.held = .idle ∧ v.client.sq = [] ∧ Holds v.slot (requestFrame data)

/-- the server is about to return it, -/
def Taken (v : View) (data : List UInt8) : Prop :=
  ¬ v.queued ∧ HeldOk data v.held ∧ v.client.sq = [] ∧ Holds v.slot (requestFrame data)

/-- or has refused it. -/
def Dropped (v : View) : Prop :=
  ¬ v.queued ∧ v.held = .idle ∧ v.client.sq = [] ∧ v.refused

/-- Where the request of a client is. -/
def AskOk (v : View) : Option (List UInt8) → Prop
  | none => ¬ v.queued ∧ v.held = .idle ∧ v.client.sq = []
  | some data => data.length + 8 ≤ 512 ∧
      (Travelling v data ∨ Queued v data ∨ Taken v data ∨ Dropped v)

/-- Where the answer to a client is. -/
def ReplyOk (frames : List (List UInt8)) (receiver : Receiver) : Option (List UInt8) → Prop
  | none => frames = [] ∧ Unanswered receiver
  | some data => AnswerOk data ∧
      ((frames = [answerFrame data] ∧ Unanswered receiver) ∨
        (frames = [] ∧ Answered receiver data))

/-- A `send` that is about to post has the request in `sendBuffer`. -/
def PostOk (v : View) : AskPc → Prop
  | .post n => v.client.sent.length = v.client.receiver.got.length ∧
      n.toNat = v.asking.length + 8 ∧
      Mem.read id v.client.sendBuffer 0 n.toNat = requestFrame v.asking
  | _ => True

structure View.Ok (v : View) (stage : Stage (List UInt8)) : Prop where
  log : v.log.At stage
  post : PostOk v v.client.pc
  ask : AskOk v stage.request
  reply : ReplyOk v.frames v.client.receiver stage.answer

/-! ## The client -/

section
variable {v : View} {stage : Stage (List UInt8)} {data : List UInt8}

/-- A change of the client that concerns neither its requests nor its answers. -/
theorem View.Ok.client (h : v.Ok stage) {cl : Client} (hsent : cl.sent = v.client.sent)
    (hreceiver : cl.receiver = v.client.receiver) (hsq : cl.sq = v.client.sq)
    (hpost : PostOk { v with client := cl } cl.pc) : View.Ok { v with client := cl } stage where
  log := by
    have hlog : View.log { v with client := cl } = v.log := by
      simp only [View.log, hsent, hreceiver]
    rw [hlog]; exact h.log
  post := hpost
  ask := by
    have hask := h.ask
    cases hr : stage.request with
    | none => rw [hr] at hask; exact ⟨hask.1, hask.2.1, hsq.trans hask.2.2⟩
    | some data =>
      rw [hr] at hask
      obtain ⟨hle, ⟨h1, h2, off, ho, h3, h4⟩ | ⟨h1, h2, h3, h4⟩ | ⟨h1, h2, h3, h4⟩ |
        ⟨h1, h2, h3, h4⟩⟩ := hask
      · exact ⟨hle, Or.inl ⟨h1, h2, off, ho, hsq.trans h3, h4⟩⟩
      · exact ⟨hle, Or.inr (Or.inl ⟨h1, h2, hsq.trans h3, h4⟩)⟩
      · exact ⟨hle, Or.inr (Or.inr (Or.inl ⟨h1, h2, hsq.trans h3, h4⟩))⟩
      · exact ⟨hle, Or.inr (Or.inr (Or.inr ⟨h1, h2, hsq.trans h3, h4⟩))⟩
  reply := by dsimp only; rw [hreceiver]; exact h.reply

/-- `send` throws, or it puts the request into `sendBuffer`. -/
theorem send_spec (hd : data.length + 8 < 2 ^ 64) (cl : Client) :
    MulticlientRDMARecvTransportClient.send cl data = cl ∨
      ∃ m n, MulticlientRDMARecvTransportClient.send cl data =
          { cl with sendBuffer := m, pc := .post n } ∧
        n.toNat = data.length + 8 ∧ Mem.read id m 0 n.toNat = requestFrame data := by
  have hlen : (lengthOf data).toNat = data.length := by
    rw [lengthOf, Pos.ofNat_toNat, Nat.mod_eq_of_lt (by omega)]
  have hn : (lengthOf data + 8).toNat = data.length + 8 := by
    rw [UInt64.toNat_add, hlen]
    exact Nat.mod_eq_of_lt hd
  unfold MulticlientRDMARecvTransportClient.send
  dsimp only
  by_cases hmax : lengthOf data + 8 > MulticlientRDMARecvTransportClient.maxMessageSize
  · left; rw [if_pos hmax]
  · right
    rw [if_neg hmax]
    exact ⟨_, _, rfl, hn, (Exchanges.holds_copy cl.sendBuffer data).2.read hn⟩

theorem View.Ok.send (h : v.Ok stage) (hpc : v.client.pc = .idle)
    (hturn : v.client.sent.length = v.client.receiver.got.length)
    (hd : data.length + 8 < 2 ^ 64) :
    View.Ok
      { v with client := MulticlientRDMARecvTransportClient.send v.client data, asking := data }
      stage := by
  have h' : View.Ok { v with asking := data } stage :=
    ⟨h.log, by rw [hpc]; trivial, h.ask, h.reply⟩
  rcases send_spec hd v.client with he | ⟨m, n, he, hn, hread⟩
  · rw [he]; exact h'
  · rw [he]
    exact h'.client rfl rfl rfl ⟨hturn, hn, hread⟩

theorem View.Ok.sendStep (h : v.Ok stage) {cl : Client}
    (hs : MulticlientRDMARecvTransportClient.sendStep v.asking v.client = some cl) :
    ∃ stage', View.Ok { v with client := cl } stage' := by
  unfold MulticlientRDMARecvTransportClient.sendStep at hs
  cases hpc : v.client.pc with
  | idle | ring => rw [hpc] at hs; cases hs
  | poll n =>
    simp only [hpc, Client.poll] at hs
    split_ifs at hs
    cases hs
    refine ⟨stage, h.client rfl rfl rfl ?_⟩
    cases n with
    | zero | succ => trivial
  | post n =>
    have hpost := h.post
    rw [hpc] at hpost
    obtain ⟨hturn, hn, hread⟩ := hpost
    simp only [hpc, Client.post] at hs
    by_cases hmax : n > maxInlineSize
    · -- the queue pair refuses it
      rw [if_pos hmax, if_pos hmax] at hs
      cases hs
      exact ⟨stage, h.client rfl rfl rfl trivial⟩
    · rw [if_neg hmax, if_neg hmax] at hs
      cases hs
      obtain rfl := h.log.quiet hturn
      obtain ⟨hqueued, hheld, hsq⟩ := h.ask
      have hsmall : v.asking.length + 8 ≤ 512 := by
        rw [← hn]
        exact UInt64.le_iff_toNat_le.1 (UInt64.not_lt.1 hmax)
      refine ⟨.asked v.asking, h.log.ask v.asking, trivial, ⟨hsmall, Or.inl ⟨hqueued, hheld, 0,
        by omega, ?_, ?_⟩⟩, h.reply⟩
      · dsimp only
        rw [hsq, hread, List.nil_append, List.drop_zero]
      · intro i hi; exact absurd hi (Nat.not_lt_zero i)

theorem View.Ok.receive (h : v.Ok stage) (hpc : v.client.pc = .idle) (maxSize : UInt64) :
    View.Ok
      { v with client :=
        { v.client with receiver := { v.client.receiver with pc := .size maxSize } } } stage := by
  refine ⟨h.log, by dsimp only; rw [hpc]; trivial, h.ask, ?_⟩
  have hreply := h.reply
  cases hs : stage.answer with
  | none => rw [hs] at hreply; exact ⟨hreply.1, hreply.2.1, Or.inr ⟨maxSize, rfl⟩⟩
  | some data =>
    rw [hs] at hreply
    obtain ⟨hd, ⟨hf, hu⟩ | ⟨hf, ha⟩⟩ := hreply
    · exact ⟨hd, Or.inl ⟨hf, hu.1, Or.inr ⟨maxSize, rfl⟩⟩⟩
    · exact ⟨hd, Or.inr ⟨hf, ha.1, trivial⟩⟩

theorem View.Ok.receiveStep (h : v.Ok stage) (hpc : v.client.pc = .idle) {receiver : Receiver}
    (hs : MulticlientRDMARecvTransportClient.receiveStep v.client.receiver = some receiver) :
    ∃ stage', View.Ok { v with client := { v.client with receiver := receiver } } stage' := by
  have hs' : Multiclient.receiveStep Transport.recv.rereads v.client.receiver = some receiver := hs
  have hpost : ∀ cl : Client, cl.pc = v.client.pc → PostOk { v with client := cl } cl.pc := by
    intro cl he
    rw [he, hpc]
    trivial
  have hreply := h.reply
  cases stage with
  | quiet | asked | served =>
    obtain rfl := hreply.2.step hs'
    exact ⟨_, h.log, hpost _ rfl, h.ask, h.reply⟩
  | answered data =>
    obtain ⟨hd, ⟨hf, hu⟩ | ⟨hf, ha⟩⟩ := hreply
    · obtain rfl := hu.step hs'
      exact ⟨.answered data, h.log, hpost _ rfl, h.ask, h.reply⟩
    · rcases ha.step hd hs' with ⟨ha', hgot⟩ | ⟨hu', hgot⟩
      · refine ⟨.answered data, ?_, hpost _ rfl, h.ask, hd, Or.inr ⟨hf, ha'⟩⟩
        show Log.At ⟨v.client.sent, v.delivered, v.answers, receiver.got⟩ _
        rw [hgot]
        exact h.log
      · refine ⟨.quiet, ?_, hpost _ rfl, h.ask, hf, hu'⟩
        show Log.At ⟨v.client.sent, v.delivered, v.answers, receiver.got⟩ _
        rw [hgot]
        exact h.log.take

end

/-! ## The request -/

section
variable {v : View} {stage : Stage (List UInt8)} {data : List UInt8} {held : TakePc}

theorem View.Ok.travelling (h : v.Ok stage) (hsq : v.client.sq ≠ []) :
    ∃ data, stage = .asked data ∧ data.length + 8 ≤ 512 ∧ Travelling v data := by
  have hask := h.ask
  cases hr : stage.request with
  | none => rw [hr] at hask; exact absurd hask.2.2 hsq
  | some data =>
    rw [hr] at hask
    obtain ⟨hle, ht | ⟨-, -, h', -⟩ | ⟨-, -, h', -⟩ | ⟨-, -, h', -⟩⟩ := hask
    · exact ⟨data, stage.eq_asked hr, hle, ht⟩
    · exact absurd h' hsq
    · exact absurd h' hsq
    · exact absurd h' hsq

theorem View.Ok.taken (h : v.Ok stage) (hheld : v.held ≠ .idle) :
    ∃ data, stage = .asked data ∧ data.length + 8 ≤ 512 ∧ Taken v data := by
  have hask := h.ask
  cases hr : stage.request with
  | none => rw [hr] at hask; exact absurd hask.2.1 hheld
  | some data =>
    rw [hr] at hask
    obtain ⟨hle, ⟨-, h', -⟩ | ⟨-, h', -⟩ | ht | ⟨-, h', -⟩⟩ := hask
    · exact absurd h' hheld
    · exact absurd h' hheld
    · exact ⟨data, stage.eq_asked hr, hle, ht⟩
    · exact absurd h' hheld

theorem View.Ok.waiting (h : v.Ok stage) (hqueued : v.queued) :
    ∃ data, stage = .asked data ∧ data.length + 8 ≤ 512 ∧ Queued v data := by
  have hask := h.ask
  cases hr : stage.request with
  | none => rw [hr] at hask; exact absurd hqueued hask.1
  | some data =>
    rw [hr] at hask
    obtain ⟨hle, ⟨h', -⟩ | hq | ⟨h', -⟩ | ⟨h', -⟩⟩ := hask
    · exact absurd hqueued h'
    · exact ⟨data, stage.eq_asked hr, hle, hq⟩
    · exact absurd hqueued h'
    · exact absurd hqueued h'

/-- The next words of a request arrive, and with the last of them its completion. -/
theorem View.Ok.land (h : v.Ok stage) {off words : ℕ} {bytes : List UInt8}
    {sq : List RequestWr} (hsq : v.client.sq = .data off bytes :: sq) {queued : Prop} {n : ℕ}
    (hqueued : queued ↔ bytes.length ≤ 8 * words) :
    View.Ok
      { v with
        slot := Mem.write id v.slot off (bytes.take (8 * words))
        queued := queued
        client :=
          { v.client with
            acks := n
            sq :=
              if bytes.length ≤ 8 * words then sq
              else .data (off + 8 * words) (bytes.drop (8 * words)) :: sq } } stage := by
  obtain ⟨data, rfl, hle, -, hheld, off', hoff, hscript, hslot⟩ :=
    h.travelling (by rw [hsq]; exact List.cons_ne_nil _ _)
  rw [hsq] at hscript
  cases hscript
  refine ⟨h.log, h.post, ⟨hle, ?_⟩, h.reply⟩
  have hlen : ((requestFrame data).drop off).length = data.length + 8 - off := by
    rw [List.length_drop, Exchanges.length_requestFrame]
  have hnew := Exchanges.write_arrived (k := 8 * words) hslot
  by_cases hall : ((requestFrame data).drop off).length ≤ 8 * words
  · right; left
    refine ⟨hqueued.2 hall, hheld, if_pos hall, ?_⟩
    intro i b hb
    have hi := (List.getElem?_eq_some_iff.1 hb).1
    rw [Exchanges.length_requestFrame] at hi
    exact hnew i (by omega) b hb
  · left
    refine ⟨fun hq => hall (hqueued.1 hq), hheld, off + 8 * words, by omega, ?_, hnew⟩
    dsimp only
    rw [if_neg hall, List.drop_drop]

theorem View.Ok.take (h : v.Ok stage) (hqueued : v.queued) {queued : Prop} (hnot : ¬ queued)
    {maxSize : UInt64} {c : ℕ} :
    View.Ok { v with queued := queued, held := .post maxSize c } stage := by
  obtain ⟨data, rfl, hle, -, -, hsq, hslot⟩ := h.waiting hqueued
  exact ⟨h.log, h.post, ⟨hle, Or.inr (Or.inr (Or.inl ⟨hnot, trivial, hsq, hslot⟩))⟩, h.reply⟩

theorem View.Ok.hold (h : v.Ok stage) (hne : v.held ≠ .idle)
    (hheld : ∀ data, data.length + 8 ≤ 512 → Taken v data → HeldOk data held) :
    View.Ok { v with held := held } stage := by
  obtain ⟨data, rfl, hle, ht⟩ := h.taken hne
  have hok := hheld data hle ht
  obtain ⟨hnot, -, hsq, hslot⟩ := ht
  exact ⟨h.log, h.post, ⟨hle, Or.inr (Or.inr (Or.inl ⟨hnot, hok, hsq, hslot⟩))⟩, h.reply⟩

theorem toNat_lengthOf (h : data.length + 8 ≤ 512) : (lengthOf data).toNat = data.length :=
  Exchanges.toNat_lengthOf_of_le (n := 512) (by omega) (by decide)

theorem View.Ok.deliver (h : v.Ok stage) {maxSize size : UInt64} {c : ℕ}
    (hheld : v.held = .copy maxSize c size) :
    View.Ok
      { v with
        held := .idle, delivered := v.delivered ++ [Mem.read id v.slot 8 size.toNat] }
      .served := by
  obtain ⟨data, rfl, hle, hnot, hok, hsq, hslot⟩ :=
    h.taken (by rw [hheld]; exact TakePc.noConfusion)
  rw [hheld] at hok
  obtain rfl : size = lengthOf data := hok
  refine ⟨?_, h.post, ⟨hnot, rfl, hsq⟩, h.reply⟩
  show Log.At ⟨v.client.sent, _, v.answers, v.client.receiver.got⟩ .served
  rw [toNat_lengthOf hle, hslot.bytes]
  exact h.log.deliver

theorem View.Ok.refuse (h : v.Ok stage) (hne : v.held ≠ .idle) :
    View.Ok { v with held := .idle, refused := True } stage := by
  obtain ⟨data, rfl, hle, hnot, -, hsq, -⟩ := h.taken hne
  exact ⟨h.log, h.post, ⟨hle, Or.inr (Or.inr (Or.inr ⟨hnot, rfl, hsq, trivial⟩))⟩, h.reply⟩

/-! ## The answer -/

theorem View.Ok.answer (h : v.Ok stage) (hd : AnswerOk data)
    (hlen : v.answers.length < v.delivered.length) :
    View.Ok
      { v with answers := v.answers ++ [data], frames := v.frames ++ [answerFrame data] }
      (.answered data) := by
  obtain rfl := h.log.served hlen
  obtain ⟨hf, hu⟩ := h.reply
  refine ⟨h.log.answer_served data, h.post, h.ask, hd, Or.inl ⟨?_, hu⟩⟩
  dsimp only
  rw [hf, List.nil_append]

theorem View.Ok.landAnswer (h : v.Ok stage) {frame : List UInt8} {rest : List (List UInt8)}
    (hf : v.frames = frame :: rest) :
    View.Ok
      { v with
        frames := rest
        client := { v.client with
          receiver := { v.client.receiver with
            receiveBuffer := Mem.write id v.client.receiver.receiveBuffer 0 frame } } }
      stage := by
  have hpost : PostOk v v.client.pc := h.post
  have hreply := h.reply
  cases stage with
  | quiet | asked | served => have := hreply.1; rw [hf] at this; cases this
  | answered data =>
    obtain ⟨hd, ⟨hf', hu⟩ | ⟨hf', -⟩⟩ := hreply
    · rw [hf] at hf'
      cases hf'
      refine ⟨h.log, ?_, h.ask, hd, Or.inr ⟨rfl, hu.land⟩⟩
      cases hpc : v.client.pc with
      | idle | ring | poll => dsimp only; rw [hpc]; trivial
      | post n => rw [hpc] at hpost; dsimp only; rw [hpc]; exact hpost
    · rw [hf] at hf'; cases hf'

end

end Recv

end Multiclient

end L5RDMA
