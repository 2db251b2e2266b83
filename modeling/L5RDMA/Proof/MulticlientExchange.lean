/-
  One client's exchange with a polling server.

  `view` is what concerns one client: its log, the writes of its request that
  have not arrived (`requestScript`), its slot and bell, what the server does
  with its request, the answers that have not arrived (`frames`) and its
  `receive`.  `Move` lists what a step can do to it.

  `Move.ok`: the moves keep `View.Ok`, the invariant of an exchange, as long as
  the server finds only requests that have arrived and were not returned.
-/
import L5RDMA.Lib.Exchange
import L5RDMA.MulticlientExchange
import L5RDMA.Proof.MulticlientClient
import L5RDMA.Proof.MulticlientPolling

namespace L5RDMA

namespace Multiclient

open Run Verbs Exchange
open Pos (lengthOf)

namespace Exchanges

/-! ## The view of one client -/

/-- A request in memory. -/
def requestFrame (data : List UInt8) : List UInt8 := bytesOf (lengthOf data) ++ data

/-- The writes that follow the data of a request. -/
def bells : Polling → List RequestWr
  | .doorbell => [.bell]
  | .distinctMr => []

/-- The writes that a `send` in progress has yet to post. -/
def unposted (k : Polling) (cl : Client) : List RequestWr :=
  match cl.pc with
  | .idle | .poll _ => []
  | .ring => [.bell]
  | .post dataWrSize => .data 0 (Mem.read id cl.sendBuffer 0 dataWrSize.toNat) :: bells k

/-- The writes of a client that have yet to arrive. -/
def requestScript (k : Polling) (cl : Client) : List RequestWr := cl.sq ++ unposted k cl

/-- The answer to client `c` that a `send` in progress has yet to post. -/
def posting (pc : SendPc) (c : ℕ) : List (List UInt8) :=
  match pc with
  | .post receiverId _ frame => if receiverId = c then [frame] else []
  | _ => []

theorem posting_post (receiverId : ℕ) (totalLength : UInt64) (frame : List UInt8) (c : ℕ) :
    posting (.post receiverId totalLength frame) c = if receiverId = c then [frame] else [] := rfl

/-- The answers to client `c` that have yet to arrive. -/
def frames (srv : Server) (c : ℕ) : List (List UInt8) :=
  (srv.connections c).sq.map (fun p => p.frame) ++ posting srv.pc c

end Exchanges

/-- The client whose request the server has found. -/
def ServePc.sender : ServePc → Option ℕ
  | .idle | .poll _ _ => none
  | .clear _ sender | .size _ sender | .copy _ sender _ | .reset sender _ => some sender

namespace Exchanges

/-- What the server does with the request of client `c`. -/
def held (pc : ServePc) (c : ℕ) : ServePc := if pc.sender = some c then pc else .idle

structure View where
  log : Log (List UInt8)
  script : List RequestWr
  slot : Mem
  bell : UInt8
  held : ServePc
  frames : List (List UInt8)
  receiver : Receiver

def State.log (s : State) (c : ℕ) : Log (List UInt8) where
  sent := (s.clients c).sent
  delivered := s.delivered c
  answers := s.answers c
  got := (s.clients c).receiver.got

def view (k : Polling) (s : State) (c : ℕ) : View where
  log := s.log c
  script := requestScript k (s.clients c)
  slot := s.slots.receives c
  bell := s.slots.doorBells c
  held := held s.slots.pc c
  frames := frames s.server c
  receiver := (s.clients c).receiver

/-- The answer is posted INLINE, and a client sees that it is there. -/
def AnswerOk (data : List UInt8) : Prop := 1 ≤ data.length ∧ data.length + 9 < 512

/-- What a step can do to the view of client `c`, when the server finds the request of
    client `looked`; what arrives of an answer is known if all of them are `inlined`. -/
inductive Move (inlined : Prop) (k : Polling) (looked : Option ℕ) (c : ℕ) :
    Act → View → View → Prop where
  | ask {v : View} {data : List UInt8} (h : v.log.sent.length = v.log.got.length) :
    Move inlined k looked c (.send c data) v
      { v with
        log := { v.log with sent := v.log.sent ++ [data] }
        script := v.script ++ .data 0 (requestFrame data) :: bells k }
  | land {v : View} {off words : ℕ} {bytes : List UInt8} {rest : List RequestWr}
      (h : v.script = .data off bytes :: rest) :
    Move inlined k looked c (.land c words) v
      { v with
        slot := Mem.write id v.slot off (bytes.take (8 * words))
        script :=
          if bytes.length ≤ 8 * words then rest
          else .data (off + 8 * words) (bytes.drop (8 * words)) :: rest }
  | ring {v : View} {words : ℕ} {rest : List RequestWr} (h : v.script = .bell :: rest) :
    Move inlined k looked c (.land c words) v { v with bell := 0x58, script := rest }
  | receive {v : View} {maxSize : UInt64} (h : v.receiver.pc = .idle) :
    Move inlined k looked c (.receive c maxSize) v
      { v with receiver := { v.receiver with pc := .size maxSize } }
  | client {v : View} {receiver : Receiver}
      (h : receiveStep k.transport.rereads v.receiver = some receiver) :
    Move inlined k looked c (.client c) v
      { v with receiver := receiver, log := { v.log with got := receiver.got } }
  | find {v : View} {maxSize : UInt64} (h : looked = some c) :
    Move inlined k looked c .server v { v with held := k.found maxSize c }
  | clear {v : View} {maxSize : UInt64} (hk : k = .doorbell) (h : v.held = .clear maxSize c) :
    Move inlined k looked c .server v { v with held := .size maxSize c, bell := 0 }
  | load {v : View} {maxSize : UInt64} (h : v.held = .size maxSize c) :
    Move inlined k looked c .server v { v with held := .copy maxSize c (sizeWord v.slot) }
  | throw {v : View} {maxSize size : UInt64} (h : v.held = .copy maxSize c size)
      (hmax : maxSize < size) :
    Move inlined k looked c .server v { v with held := .idle }
  | deliver {v : View} {maxSize size : UInt64} (hk : k = .doorbell)
      (h : v.held = .copy maxSize c size) :
    Move inlined k looked c .server v
      { v with
        held := .idle
        log :=
          { v.log with delivered := v.log.delivered ++ [Mem.read id v.slot 8 size.toNat] } }
  | copy {v : View} {maxSize size : UInt64} (hk : k = .distinctMr)
      (h : v.held = .copy maxSize c size) :
    Move inlined k looked c .server v { v with held := .reset c (Mem.read id v.slot 8 size.toNat) }
  | reset {v : View} {bytes : List UInt8} (hk : k = .distinctMr) (h : v.held = .reset c bytes) :
    Move inlined k looked c .server v
      { v with
        held := .idle
        slot := Mem.write id v.slot 0 [0]
        log := { v.log with delivered := v.log.delivered ++ [bytes] } }
  | answer {v : View} {data : List UInt8} {frames : List (List UInt8)}
      (h : v.log.answers.length < v.log.delivered.length) (hlen : frames.length ≤ 1)
      (hframes : AnswerOk data → frames = [answerFrame data]) :
    Move inlined k looked c (.answer c data) v
      { v with
        log := { v.log with answers := v.log.answers ++ [data] }, frames := v.frames ++ frames }
  | landAnswer {v : View} {frame bytes : List UInt8} {off : ℕ} {rest : List (List UInt8)}
      (h : v.frames = frame :: rest) (hbytes : inlined → off = 0 ∧ bytes = frame) :
    Move inlined k looked c (.landAnswer c) v
      { v with
        frames := rest
        receiver :=
          { v.receiver with receiveBuffer := Mem.write id v.receiver.receiveBuffer off bytes } }

/-! ## The invariant of an exchange -/

/-- The queue pair takes the request INLINE; a slot is empty while its size is zero. -/
def RequestOk (k : Polling) (data : List UInt8) : Prop :=
  data.length + 8 ≤ 512 ∧ (k = .distinctMr → 1 ≤ data.length)

def Holds (m : Mem) (frame : List UInt8) : Prop := ∀ (i : ℕ) b, frame[i]? = some b → m i = b

/-- What the server knows of the request `data` that it has found. -/
def HeldOk (k : Polling) (data : List UInt8) : ServePc → Prop
  | .idle | .size _ _ => True
  | .poll _ _ => False
  | .clear _ _ => k = .doorbell
  | .copy _ _ size => size = lengthOf data
  | .reset _ bytes => k = .distinctMr ∧ bytes = data

/-- The request has not arrived completely, -/
def Travelling (k : Polling) (v : View) (data : List UInt8) : Prop :=
  v.held = .idle ∧ ∃ off < data.length + 8,
    v.script = .data off ((requestFrame data).drop off) :: bells k ∧
    ∀ i < off, ∀ b, (requestFrame data)[i]? = some b → v.slot i = b

/-- it has, but the bell does not ring yet, -/
def Silent (k : Polling) (v : View) (data : List UInt8) : Prop :=
  v.held = .idle ∧ k = .doorbell ∧ v.script = [.bell] ∧ Holds v.slot (requestFrame data)

/-- or all that `send` does has been done. -/
def Arrived (k : Polling) (v : View) (data : List UInt8) : Prop :=
  HeldOk k data v.held ∧ v.script = [] ∧ Holds v.slot (requestFrame data)

/-- Where the request of a client is. -/
def AskOk (k : Polling) (v : View) : Option (List UInt8) → Prop
  | none => v.held = .idle ∧ v.script = []
  | some data => RequestOk k data ∧ (Travelling k v data ∨ Silent k v data ∨ Arrived k v data)

/-- No answer is there. -/
def Unanswered (receiver : Receiver) : Prop :=
  (∀ i < 8, receiver.receiveBuffer i = 0) ∧
    (receiver.pc = .idle ∨ ∃ maxSize, receiver.pc = .size maxSize)

/-- The answer `data` is there. -/
def Answered (receiver : Receiver) (data : List UInt8) : Prop :=
  Holds receiver.receiveBuffer (answerFrame data) ∧
    Answers.PcOk data (data.length + 9) receiver.pc

/-- Where the answer to a client is. -/
def ReplyOk (v : View) : Option (List UInt8) → Prop
  | none => v.frames = [] ∧ Unanswered v.receiver
  | some data => AnswerOk data ∧
      ((v.frames = [answerFrame data] ∧ Unanswered v.receiver) ∨
        (v.frames = [] ∧ Answered v.receiver data))

structure View.Ok (k : Polling) (v : View) (stage : Stage (List UInt8)) : Prop where
  log : v.log.At stage
  got : v.log.got = v.receiver.got
  ask : AskOk k v stage.request
  reply : ReplyOk v stage.answer

/-- A request has arrived and was not returned. -/
def View.Waiting (v : View) : Prop :=
  v.script = [] ∧ v.log.delivered.length < v.log.sent.length

/-- Requests that can be posted and seen. -/
def Requested (k : Polling) : Act → Prop
  | .send _ data => RequestOk k data
  | _ => True

/-- Requests and answers that can be posted INLINE and seen. -/
def Admitted (k : Polling) : Act → Prop
  | .send _ data => RequestOk k data
  | .answer _ data => AnswerOk data
  | _ => True

instance (k : Polling) (data : List UInt8) : Decidable (RequestOk k data) :=
  match k with
  | .doorbell => decidable_of_iff (data.length + 8 ≤ 512)
      ⟨fun h => ⟨h, fun hk => by cases hk⟩, And.left⟩
  | .distinctMr => decidable_of_iff (data.length + 8 ≤ 512 ∧ 1 ≤ data.length)
      ⟨fun h => ⟨h.1, fun _ => h.2⟩, fun h => ⟨h.1, h.2 rfl⟩⟩

instance (data : List UInt8) : Decidable (AnswerOk data) :=
  inferInstanceAs (Decidable (1 ≤ data.length ∧ data.length + 9 < 512))

instance (k : Polling) : ∀ a, Decidable (Admitted k a)
  | .send _ data => inferInstanceAs (Decidable (RequestOk k data))
  | .answer _ data => inferInstanceAs (Decidable (AnswerOk data))
  | .receive _ _ | .client _ | .land _ _ | .complete _ | .serve _ | .server | .landAnswer _
  | .completeAnswer => isTrue trivial

instance (k : Polling) : ∀ a, Decidable (Requested k a)
  | .send _ data => inferInstanceAs (Decidable (RequestOk k data))
  | .answer _ _ | .receive _ _ | .client _ | .land _ _ | .complete _ | .serve _ | .server
  | .landAnswer _ | .completeAnswer => isTrue trivial

theorem Admitted.requested {k : Polling} {a : Act} (h : Admitted k a) : Requested k a := by
  cases a with
  | send c data => exact h
  | _ => trivial

/-! ## The request -/

section
variable {k : Polling} {v : View} {data : List UInt8}

theorem length_requestFrame : (requestFrame data).length = data.length + 8 := by
  rw [requestFrame, bytesOf, List.length_append, Bytes.length_le64, Nat.add_comm]

theorem toNat_lengthOf_of_le {n : ℕ} (h : data.length ≤ n) (hn : n < 2 ^ 64) :
    (lengthOf data).toNat = data.length := by
  rw [lengthOf, Pos.ofNat_toNat, Nat.mod_eq_of_lt (by omega)]

theorem RequestOk.toNat (h : RequestOk k data) : (lengthOf data).toNat = data.length :=
  toNat_lengthOf_of_le (n := 512) (by have := h.1; omega) (by decide)

/-- The size and the bytes of a request in memory. -/
theorem Holds.size {m : Mem} (h : Holds m (requestFrame data)) : sizeWord m = lengthOf data :=
  sizeWord_eq fun i b hb => h i b <| by
    rw [requestFrame, List.getElem?_append_left (List.getElem?_eq_some_iff.1 hb).1, hb]

theorem Holds.bytes {m : Mem} (h : Holds m (requestFrame data)) :
    Mem.read id m 8 data.length = data := by
  have hl : (bytesOf (lengthOf data)).length = 8 := Bytes.length_le64 _
  ext i : 1
  rcases Nat.lt_or_ge i data.length with hi | hi
  · rw [Mem.read_get hi, List.getElem?_eq_getElem hi]
    refine congrArg some (h _ _ ?_)
    rw [requestFrame, List.getElem?_append_right (by simp [hl]), hl]
    simp [List.getElem?_eq_getElem hi]
  · rw [List.getElem?_eq_none (by simpa using hi), List.getElem?_eq_none hi]

/-- Where a request is whose next write is known: on its way, -/
theorem AskOk.travelling {off : ℕ} {bytes : List UInt8} {rest : List RequestWr}
    {request : Option (List UInt8)} (h : AskOk k v request)
    (hs : v.script = .data off bytes :: rest) :
    ∃ data, request = some data ∧ RequestOk k data ∧ Travelling k v data := by
  cases request with
  | none => have := h.2; rw [hs] at this; cases this
  | some data =>
    obtain ⟨hok, ht | ⟨-, -, hs', -⟩ | ⟨-, hs', -⟩⟩ := h
    · exact ⟨data, rfl, hok, ht⟩
    · rw [hs] at hs'; cases hs'
    · rw [hs] at hs'; cases hs'

/-- about to be announced, -/
theorem AskOk.silent {rest : List RequestWr} {request : Option (List UInt8)}
    (h : AskOk k v request) (hs : v.script = .bell :: rest) :
    ∃ data, request = some data ∧ RequestOk k data ∧ Silent k v data := by
  cases request with
  | none => have := h.2; rw [hs] at this; cases this
  | some data =>
    obtain ⟨hok, ⟨-, _, -, hs', -⟩ | hsil | ⟨-, hs', -⟩⟩ := h
    · rw [hs] at hs'; cases hs'
    · exact ⟨data, rfl, hok, hsil⟩
    · rw [hs] at hs'; cases hs'

/-- or there. -/
theorem AskOk.arrived_of_nil (h : AskOk k v (some data)) (hs : v.script = []) :
    RequestOk k data ∧ Arrived k v data := by
  obtain ⟨hok, ⟨-, _, -, hs', -⟩ | ⟨-, -, hs', -⟩ | ha⟩ := h
  · rw [hs] at hs'; cases hs'
  · rw [hs] at hs'; cases hs'
  · exact ⟨hok, ha⟩

/-- A slot holds what has arrived before, and the new bytes. -/
theorem write_arrived {m : Mem} {frame : List UInt8} {off k : ℕ}
    (h : ∀ i < off, ∀ b, frame[i]? = some b → m i = b) :
    ∀ i < off + k, ∀ b, frame[i]? = some b →
      Mem.write id m off ((frame.drop off).take k) i = b := by
  intro i hi b hb
  rcases Nat.lt_or_ge i off with hlt | hge
  · rw [Mem.write_id_of_ne (Or.inl hlt), h i hlt b hb]
  · obtain ⟨j, rfl⟩ := Nat.exists_eq_add_of_le hge
    refine Mem.write_id_of_get ?_
    rw [List.getElem?_take_of_lt (by omega), List.getElem?_drop, hb]

/-- Words of the data arrive. -/
theorem AskOk.land {off words : ℕ} {bytes : List UInt8} {rest : List RequestWr}
    {request : Option (List UInt8)} (h : AskOk k v request)
    (hs : v.script = .data off bytes :: rest) :
    AskOk k
      { v with
        slot := Mem.write id v.slot off (bytes.take (8 * words))
        script :=
          if bytes.length ≤ 8 * words then rest
          else .data (off + 8 * words) (bytes.drop (8 * words)) :: rest } request := by
  obtain ⟨data, rfl, hok, hheld, off', hoff, hscript, hslot⟩ := h.travelling hs
  rw [hs] at hscript
  cases hscript
  refine ⟨hok, ?_⟩
  have hlen : ((requestFrame data).drop off).length = data.length + 8 - off := by
    rw [List.length_drop, length_requestFrame]
  have hnew := write_arrived (k := 8 * words) hslot
  by_cases hall : ((requestFrame data).drop off).length ≤ 8 * words
  · have hholds : Holds
        (Mem.write id v.slot off (((requestFrame data).drop off).take (8 * words)))
        (requestFrame data) := by
      intro i b hb
      have hi := (List.getElem?_eq_some_iff.1 hb).1
      rw [length_requestFrame] at hi
      exact hnew i (by omega) b hb
    right
    cases k with
    | doorbell => exact Or.inl ⟨hheld, rfl, if_pos hall, hholds⟩
    | distinctMr => exact Or.inr ⟨by dsimp only; rw [hheld]; trivial, if_pos hall, hholds⟩
  · left
    refine ⟨hheld, off + 8 * words, by omega, ?_, hnew⟩
    dsimp only
    rw [if_neg hall, List.drop_drop]

/-- The bell rings. -/
theorem AskOk.ring {rest : List RequestWr} {request : Option (List UInt8)} {bell : UInt8}
    (h : AskOk k v request) (hs : v.script = .bell :: rest) :
    AskOk k { v with bell := bell, script := rest } request := by
  obtain ⟨data, rfl, hok, hheld, -, hscript, hslot⟩ := h.silent hs
  rw [hs] at hscript
  cases hscript
  exact ⟨hok, Or.inr (Or.inr ⟨by dsimp only; rw [hheld]; trivial, rfl, hslot⟩)⟩

/-- A request that the server has found has arrived. -/
theorem AskOk.arrived {request : Option (List UInt8)} (h : AskOk k v request)
    (hheld : v.held ≠ .idle) :
    ∃ data, request = some data ∧ RequestOk k data ∧ Arrived k v data := by
  cases request with
  | none => exact absurd h.1 hheld
  | some data =>
    obtain ⟨hok, ht | hs | ha⟩ := h
    · exact absurd ht.1 hheld
    · exact absurd hs.1 hheld
    · exact ⟨data, rfl, hok, ha⟩

/-- What the server has of a request becomes known to it. -/
theorem Arrived.hold {pc : ServePc} {bell : UInt8} (h : Arrived k v data) (hpc : HeldOk k data pc) :
    Arrived k { v with held := pc, bell := bell } data :=
  ⟨hpc, h.2⟩

/-- A client asks that has nothing under way. -/
theorem AskOk.ask (h : AskOk k v none) (hd : RequestOk k data) :
    AskOk k { v with script := v.script ++ .data 0 (requestFrame data) :: bells k }
      (some data) := by
  refine ⟨hd, Or.inl ⟨h.1, 0, by omega, ?_, fun i hi => absurd hi (Nat.not_lt_zero i)⟩⟩
  dsimp only
  rw [h.2, List.nil_append, List.drop_zero]

/-- The server finds a request that has arrived, -/
theorem AskOk.find (h : AskOk k v (some data)) (hs : v.script = []) (maxSize : UInt64) (c : ℕ) :
    AskOk k { v with held := k.found maxSize c } (some data) := by
  obtain ⟨hok, ha⟩ := h.arrived_of_nil hs
  refine ⟨hok, Or.inr (Or.inr (ha.hold ?_))⟩
  cases k with
  | doorbell => rfl
  | distinctMr => trivial

/-- goes on with it, -/
theorem AskOk.hold {request : Option (List UInt8)} (h : AskOk k v request) (hheld : v.held ≠ .idle)
    {pc : ServePc} {bell : UInt8} (hpc : ∀ data, request = some data → Arrived k v data →
      HeldOk k data pc) : AskOk k { v with held := pc, bell := bell } request := by
  obtain ⟨data, rfl, hok, ha⟩ := h.arrived hheld
  exact ⟨hok, Or.inr (Or.inr (ha.hold (hpc data rfl ha)))⟩

/-- and is done with it. -/
theorem AskOk.done {request : Option (List UInt8)} (h : AskOk k v request)
    (hheld : v.held ≠ .idle) : AskOk k { v with held := .idle } none := by
  obtain ⟨data, rfl, -, ha⟩ := h.arrived hheld
  exact ⟨rfl, ha.2.1⟩

/-- What it copies is the request. -/
theorem AskOk.copied {request : Option (List UInt8)} (h : AskOk k v request) {maxSize size : UInt64}
    {c : ℕ} (hheld : v.held = .copy maxSize c size) :
    request = some (Mem.read id v.slot 8 size.toNat) := by
  obtain ⟨data, rfl, hok, hsize, -, hslot⟩ := h.arrived (by rw [hheld]; exact ServePc.noConfusion)
  rw [hheld] at hsize
  obtain rfl : size = lengthOf data := hsize
  rw [hok.toNat, hslot.bytes]

theorem AskOk.resets {request : Option (List UInt8)} (h : AskOk k v request) {bytes : List UInt8}
    {c : ℕ} (hheld : v.held = .reset c bytes) :
    request = some bytes ∧ v.script = [] ∧ RequestOk k bytes ∧
      Holds v.slot (requestFrame bytes) := by
  obtain ⟨data, rfl, hok, hbytes, hscript, hslot⟩ :=
    h.arrived (by rw [hheld]; exact ServePc.noConfusion)
  rw [hheld] at hbytes
  obtain ⟨-, rfl⟩ := hbytes
  exact ⟨rfl, hscript, hok, hslot⟩

end

/-! ## The answer -/

section
variable {t : Transport} {receiver receiver' : Receiver} {data : List UInt8}

theorem AnswerOk.sized (h : AnswerOk data) : Answers.Sized data :=
  ⟨h.1, h.2.trans (by decide)⟩

/-- A client without an answer goes on polling. -/
theorem Unanswered.step (h : Unanswered receiver)
    (hs : receiveStep t.rereads receiver = some receiver') : receiver' = receiver := by
  obtain ⟨hsize, hpc | ⟨maxSize, hpc⟩⟩ := h
  · simp [receiveStep, hpc] at hs
  · simp only [receiveStep, hpc, sizeWord_zero hsize, if_true] at hs
    exact (Option.some.inj hs).symm

/-- A client with an answer returns it unchanged, if it returns. -/
theorem Answered.step (h : Answered receiver data) (hd : AnswerOk data)
    (hs : receiveStep t.rereads receiver = some receiver') :
    (Answered receiver' data ∧ receiver'.got = receiver.got) ∨
      (Unanswered receiver' ∧ receiver'.got = receiver.got ++ [data]) := by
  obtain ⟨hholds, hpc⟩ := h
  have hsize : sizeWord receiver.receiveBuffer =
      if data.length + 9 = 0 then 0 else lengthOf data := by
    rw [if_neg (Nat.succ_ne_zero _)]
    exact sizeWord_eq fun i b hb => hholds i b (get_size hb)
  rcases Answers.receiveStep_spec hd.sized hsize (Or.inr (by omega)) (fun _ => rfl)
    (fun _ => read_payload hholds) hpc hs with ⟨pc, rfl, hpc'⟩ | ⟨-, rfl⟩
  · exact Or.inl ⟨⟨hholds, hpc'⟩, rfl⟩
  · exact Or.inr ⟨⟨fun i hi => write_zero hi, Or.inl rfl⟩, rfl⟩

/-- The size of an answer is not that of an empty buffer. -/
theorem Answered.size_ne (h : Answered receiver data) (hd : AnswerOk data) :
    sizeWord receiver.receiveBuffer ≠ 0 := by
  have hsize : sizeWord receiver.receiveBuffer = lengthOf data :=
    sizeWord_eq fun i b hb => h.1 i b (get_size hb)
  rw [hsize]
  exact Answers.lengthOf_ne_zero hd.sized

/-- A client with an answer returns it in one iteration of its loop. -/
theorem Answered.run (h : Answered receiver data) (hd : AnswerOk data) (rereads : Bool)
    {maxSize : UInt64} (hpc : receiver.pc = .size maxSize) (hmax : data.length ≤ maxSize.toNat) :
    ∃ receiver', run (Receiver.step rereads) receiver (List.replicate 4 ()) = some receiver' ∧
      receiver'.got = receiver.got ++ [data] := by
  have hlen := Answers.toNat_lengthOf hd.sized
  have hsize : sizeWord receiver.receiveBuffer = lengthOf data :=
    sizeWord_eq fun i b hb => h.1 i b (get_size hb)
  have hv : receiver.receiveBuffer (8 + (lengthOf data).toNat) = validity := by
    rw [hlen]
    exact h.1 _ _ (get_validity data)
  have hle : lengthOf data ≤ maxSize := by rwa [UInt64.le_iff_toNat_le, hlen]
  refine ⟨_, Receiver.run_receive rereads hpc hsize (Answers.lengthOf_ne_zero hd.sized) hv hle, ?_⟩
  dsimp only
  rw [hlen, read_payload h.1]

/-- An answer arrives. -/
theorem Unanswered.land (h : Unanswered receiver) :
    Answered
      { receiver with
        receiveBuffer := Mem.write id receiver.receiveBuffer 0 (answerFrame data) } data := by
  constructor
  · intro i b hb
    have hw : Mem.write id receiver.receiveBuffer 0 (answerFrame data) (0 + i) = b :=
      Mem.write_id_of_get hb
    rwa [Nat.zero_add] at hw
  · obtain ⟨-, hpc | ⟨maxSize, hpc⟩⟩ := h <;> (dsimp only; rw [hpc]; trivial)

/-- A client calls `receive`. -/
theorem ReplyOk.receive {v : View} {answer : Option (List UInt8)} (h : ReplyOk v answer)
    (maxSize : UInt64) :
    ReplyOk { v with receiver := { v.receiver with pc := .size maxSize } } answer := by
  cases answer with
  | none => exact ⟨h.1, h.2.1, Or.inr ⟨maxSize, rfl⟩⟩
  | some data =>
    obtain ⟨hd, ⟨hf, hu⟩ | ⟨hf, ha⟩⟩ := h
    · exact ⟨hd, Or.inl ⟨hf, hu.1, Or.inr ⟨maxSize, rfl⟩⟩⟩
    · exact ⟨hd, Or.inr ⟨hf, ha.1, trivial⟩⟩

end

/-! ## The moves keep the invariant -/

section
variable {k : Polling} {looked : Option ℕ} {c : ℕ} {a : Act} {v v' : View}
  {stage : Stage (List UInt8)}

/-- A client that looks in vain. -/
theorem View.Ok.look (h : v.Ok k stage) :
    View.Ok k
      { v with receiver := v.receiver, log := { v.log with got := v.receiver.got } } stage :=
  ⟨by dsimp only; rw [← h.got]; exact h.log, rfl, h.ask, h.reply⟩

/-- While data is to arrive, so are the writes that follow it, and nothing else. -/
theorem View.Ok.rest_eq (h : v.Ok k stage) {off : ℕ} {bytes : List UInt8} {rest : List RequestWr}
    (hs : v.script = .data off bytes :: rest) : rest = bells k ∧ ∃ data, stage = .asked data := by
  obtain ⟨data, hreq, -, -, off', -, hs', -⟩ := h.ask.travelling hs
  rw [hs] at hs'
  cases hs'
  exact ⟨rfl, data, stage.eq_asked hreq⟩

/-- **A move keeps the invariant** if the request that the server finds has arrived and
    was not returned. -/
theorem Move.ok (hm : Move True k looked c a v v') (h : v.Ok k stage) (hadm : Admitted k a)
    (hfind : a = .server → looked = some c → v.Waiting) : ∃ stage', v'.Ok k stage' := by
  cases hm with
  | @ask _ data hlen =>
    obtain rfl := h.log.quiet hlen
    exact ⟨.asked data, h.log.ask data, h.got, h.ask.ask hadm, h.reply⟩
  | land hs => exact ⟨stage, h.log, h.got, h.ask.land hs, h.reply⟩
  | ring hs => exact ⟨stage, h.log, h.got, h.ask.ring hs, h.reply⟩
  | @receive _ maxSize _ => exact ⟨stage, h.log, h.got, h.ask, h.reply.receive maxSize⟩
  | @client _ receiver hs =>
    have hreply := h.reply
    cases stage with
    | quiet | asked | served =>
      obtain rfl := hreply.2.step hs
      exact ⟨_, h.look⟩
    | answered data =>
      obtain ⟨hd, ⟨hf, hu⟩ | ⟨hf, ha⟩⟩ := hreply
      · obtain rfl := hu.step hs
        exact ⟨.answered data, h.look⟩
      · rcases ha.step hd hs with ⟨ha', hgot⟩ | ⟨hu', hgot⟩
        · exact ⟨.answered data, by rw [hgot, ← h.got]; exact h.log, rfl, h.ask, hd,
            Or.inr ⟨hf, ha'⟩⟩
        · exact ⟨.quiet, by rw [hgot, ← h.got]; exact h.log.take, rfl, h.ask, hf, hu'⟩
  | @find _ maxSize hc =>
    obtain ⟨hscript, hlen⟩ := hfind rfl hc
    obtain ⟨data, rfl⟩ := h.log.asked hlen
    exact ⟨.asked data, h.log, h.got, h.ask.find hscript maxSize c, h.reply⟩
  | clear _ hheld | throw hheld =>
    have hne : v.held ≠ .idle := by rw [hheld]; exact ServePc.noConfusion
    exact ⟨stage, h.log, h.got, h.ask.hold hne fun _ _ _ => trivial, h.reply⟩
  | load hheld =>
    have hne : v.held ≠ .idle := by rw [hheld]; exact ServePc.noConfusion
    exact ⟨stage, h.log, h.got, h.ask.hold hne fun _ _ ha => ha.2.2.size, h.reply⟩
  | deliver hk hheld =>
    have hne : v.held ≠ .idle := by rw [hheld]; exact ServePc.noConfusion
    obtain rfl := stage.eq_asked (h.ask.copied hheld)
    exact ⟨.served, h.log.deliver, h.got, h.ask.done hne, h.reply⟩
  | copy hk hheld =>
    have hne : v.held ≠ .idle := by rw [hheld]; exact ServePc.noConfusion
    have hcopied := h.ask.copied hheld
    refine ⟨stage, h.log, h.got, h.ask.hold hne fun data hreq _ => ⟨hk, ?_⟩, h.reply⟩
    exact Option.some.inj (hcopied.symm.trans hreq)
  | reset hk hheld =>
    have hne : v.held ≠ .idle := by rw [hheld]; exact ServePc.noConfusion
    obtain rfl := stage.eq_asked (h.ask.resets hheld).1
    exact ⟨.served, h.log.deliver, h.got, h.ask.done hne, h.reply⟩
  | @answer _ data frames hlen _ hframes =>
    obtain rfl := h.log.served hlen
    obtain ⟨hf, hu⟩ := h.reply
    refine ⟨.answered data, h.log.answer_served data, h.got, h.ask, hadm, Or.inl ⟨?_, hu⟩⟩
    dsimp only; rw [hf, hframes hadm, List.nil_append]
  | landAnswer hf hbytes =>
    obtain ⟨rfl, rfl⟩ := hbytes trivial
    cases stage with
    | quiet | asked | served => have := h.reply.1; rw [hf] at this; cases this
    | answered data =>
      obtain ⟨hd, ⟨hf', hu⟩ | ⟨hf', -⟩⟩ := h.reply
      · rw [hf] at hf'
        cases hf'
        exact ⟨.answered data, h.log, h.got, h.ask, hd, Or.inr ⟨rfl, hu.land⟩⟩
      · rw [hf] at hf'; cases hf'

end

end Exchanges

end Multiclient

end L5RDMA
