/-
  What the DistinctMr transport delivers.

  The size of a request is also the sign that its slot is full.  It arrives
  before the rest of the request, and the server resets only its lowest byte.

  `SlotInv`: while no request of more than 255 bytes is taken, a slot is empty
  unless a request, or a part of one, waits in it, whatever the answers are.

  `exactlyOnce_iff`: where requests arrive in one piece, each is delivered
  exactly once, and its slot is empty afterwards, iff none that the server takes
  has more than 255 bytes.

  `copiedWhole_of_polls`: where they arrive in words, none is copied before all
  of it has arrived as long as the server looks into no slot with a part of one;
  of every request some schedule copies what has not arrived.
-/
import L5RDMA.Proof.MulticlientDelivery

namespace L5RDMA

namespace Multiclient

open Run Exchange
open Pos (lengthOf)

namespace Exchanges

/-! ## The size word after a reset -/

section
variable {m : Mem} {data : List UInt8}

/-- The reset leaves all but the lowest byte of the size. -/
theorem sizeWord_reset (h : Holds m (requestFrame data)) (hd : RequestOk .distinctMr data) :
    sizeWord (Mem.write id m 0 [0]) = UInt64.ofNat (256 * (data.length / 256)) := by
  have hl : (bytesOf (lengthOf data)).length = 8 := Bytes.length_le64 _
  have hread : Mem.read id (Mem.write id m 0 [0]) 0 8 = 0 :: Bytes.le (data.length / 256) 7 := by
    have hsize : bytesOf (lengthOf data) =
        UInt8.ofNat data.length :: Bytes.le (data.length / 256) 7 := by
      rw [bytesOf, hd.toNat]; rfl
    ext i : 1
    rcases Nat.lt_or_ge i 8 with hi | hi
    · rw [Mem.read_get hi, Nat.zero_add]
      cases i with
      | zero => rfl
      | succ i =>
        obtain ⟨b, hb⟩ : ∃ b, (bytesOf (lengthOf data))[i + 1]? = some b :=
          ⟨_, List.getElem?_eq_getElem (by omega)⟩
        have hm : m (i + 1) = b := by
          refine h _ _ ?_
          rw [requestFrame, List.getElem?_append_left (by omega), hb]
        have hw : Mem.write id m 0 [0] (i + 1) = m (i + 1) :=
          Mem.write_id_of_ne (Or.inr (by simp))
        rw [id, hw, hm, ← hb, hsize]
        rfl
    · rw [List.getElem?_eq_none (by simpa using hi), List.getElem?_eq_none (by simpa using hi)]
  have hsmall := hd.1
  have hmod : data.length / 256 % 256 ^ 7 = data.length / 256 :=
    Nat.mod_eq_of_lt (by norm_num; omega)
  rw [sizeWord, hread, Bytes.ofLE, Bytes.ofLE_le, hmod]
  simp

theorem sizeWord_reset_eq_zero (h : Holds m (requestFrame data)) (hd : RequestOk .distinctMr data) :
    sizeWord (Mem.write id m 0 [0]) = 0 ↔ data.length ≤ 255 := by
  have hsmall := hd.1
  rw [sizeWord_reset h hd, ← UInt64.toNat_inj, Pos.ofNat_toNat, Nat.mod_eq_of_lt (by omega)]
  change 256 * (data.length / 256) = 0 ↔ data.length ≤ 255
  omega

end

/-! ## Requests, whatever the answers are -/

/-- How many answers a client may have in its buffer. -/
def unread (r : Receiver) : ℕ :=
  match r.pc with
  | .idle | .size _ => if sizeWord r.receiveBuffer = 0 then 0 else 1
  | .check _ _ | .copy _ _ | .reset _ => 1

/-- Where the request of a client is, and that it gets no more answers than it is owed. -/
structure View.Asks (k : Polling) (v : View) (request : Option (List UInt8)) : Prop where
  log : v.log.sent = v.log.delivered ++ request.toList
  ask : AskOk k v request
  got : v.log.got = v.receiver.got
  owed : v.receiver.got.length + v.frames.length + unread v.receiver ≤ v.log.answers.length
  served : v.log.answers.length ≤ v.log.delivered.length

section
variable {inlined : Prop} {k : Polling} {looked : Option ℕ} {c : ℕ} {a : Act} {v v' : View}
  {request : Option (List UInt8)}

theorem unread_le (r : Receiver) : unread r ≤ 1 := by
  cases hpc : r.pc with
  | idle | size => rw [unread, hpc]; dsimp only; split_ifs <;> omega
  | check | copy | reset => simp only [unread, hpc, le_refl]

/-- A client returns what is in its buffer at most once. -/
theorem receiveStep_owed {rereads : Bool} {r r' : Receiver} (hs : receiveStep rereads r = some r') :
    r'.got.length + unread r' ≤ r.got.length + unread r := by
  unfold receiveStep at hs
  cases hpc : r.pc with
  | idle => rw [hpc] at hs; cases hs
  | size maxSize =>
    simp only [hpc] at hs
    split_ifs at hs with hzero
    · cases hs; exact le_rfl
    · cases hs; simp [unread, hpc, hzero]
  | check maxSize size =>
    have hle := unread_le r'
    have hone : unread r = 1 := by rw [unread, hpc]
    simp only [hpc] at hs
    split_ifs at hs <;> (cases hs; exact (Nat.add_le_add_left hle _).trans_eq (by rw [hone]))
  | copy maxSize size =>
    have hle := unread_le r'
    have hone : unread r = 1 := by rw [unread, hpc]
    simp only [hpc] at hs
    split_ifs at hs <;> (cases hs; exact (Nat.add_le_add_left hle _).trans_eq (by rw [hone]))
  | reset bytes =>
    simp only [hpc] at hs
    cases hs
    have hzero : sizeWord (Mem.write id r.receiveBuffer 0 (bytesOf 0)) = 0 :=
      sizeWord_zero fun i hi => write_zero hi
    simp [unread, hpc, hzero]

/-- A client that has all its answers has no request under way. -/
theorem View.Asks.quiet (h : v.Asks k request) (hlen : v.log.sent.length = v.log.got.length) :
    request = none := by
  have howed := h.owed
  have hserved := h.served
  rw [h.log, h.got, List.length_append] at hlen
  cases request with
  | none => rfl
  | some data =>
    rw [Option.toList_some, List.length_singleton] at hlen
    omega

theorem View.Asks.asked (h : v.Asks k request) (hlen : v.log.delivered.length < v.log.sent.length) :
    ∃ data, request = some data := by
  rw [h.log, List.length_append] at hlen
  cases request with
  | none => rw [Option.toList_none, List.length_nil] at hlen; omega
  | some data => exact ⟨data, rfl⟩

/-- **A move keeps track of the request** if the one that the server finds has arrived and was not
    returned. -/
theorem Move.asks (hm : Move inlined k looked c a v v') (h : v.Asks k request)
    (hreq : Requested k a) (hfind : a = .server → looked = some c → v.Waiting) :
    ∃ request', v'.Asks k request' := by
  obtain ⟨hlog, hask, hgot, howed, hserved⟩ := id h
  cases hm with
  | @ask _ data hlen =>
    obtain rfl := h.quiet hlen
    refine ⟨some data, ?_, hask.ask hreq, hgot, howed, hserved⟩
    dsimp only
    rw [hlog, Option.toList_none, List.append_nil]
    rfl
  | land hs => exact ⟨request, hlog, hask.land hs, hgot, howed, hserved⟩
  | ring hs => exact ⟨request, hlog, hask.ring hs, hgot, howed, hserved⟩
  | receive hpc =>
    refine ⟨request, hlog, hask, hgot, ?_, hserved⟩
    simpa only [unread, hpc] using howed
  | client hs =>
    have hle := receiveStep_owed hs
    exact ⟨request, hlog, hask, rfl, by dsimp only; omega, hserved⟩
  | @find _ maxSize hc =>
    obtain ⟨hscript, hlen⟩ := hfind rfl hc
    obtain ⟨data, rfl⟩ := h.asked hlen
    exact ⟨some data, hlog, hask.find hscript maxSize c, hgot, howed, hserved⟩
  | clear _ hheld | throw hheld =>
    have hne : v.held ≠ .idle := by rw [hheld]; exact ServePc.noConfusion
    exact ⟨request, hlog, hask.hold hne fun _ _ _ => trivial, hgot, howed, hserved⟩
  | load hheld =>
    have hne : v.held ≠ .idle := by rw [hheld]; exact ServePc.noConfusion
    exact ⟨request, hlog, hask.hold hne fun _ _ ha => ha.2.2.size, hgot, howed, hserved⟩
  | copy hk hheld =>
    have hne : v.held ≠ .idle := by rw [hheld]; exact ServePc.noConfusion
    have hcopied := hask.copied hheld
    refine ⟨request, hlog, hask.hold hne fun data hreq _ => ⟨hk, ?_⟩, hgot, howed, hserved⟩
    exact Option.some.inj (hcopied.symm.trans hreq)
  | deliver hk hheld =>
    have hne : v.held ≠ .idle := by rw [hheld]; exact ServePc.noConfusion
    obtain rfl := hask.copied hheld
    refine ⟨none, ?_, hask.done hne, hgot, howed, ?_⟩
    · dsimp only
      rw [hlog, Option.toList_none, List.append_nil]
      rfl
    · dsimp only
      rw [List.length_append]
      omega
  | reset hk hheld =>
    have hne : v.held ≠ .idle := by rw [hheld]; exact ServePc.noConfusion
    obtain rfl := (hask.resets hheld).1
    refine ⟨none, ?_, hask.done hne, hgot, howed, ?_⟩
    · dsimp only
      rw [hlog, Option.toList_none, List.append_nil]
      rfl
    · dsimp only
      rw [List.length_append]
      omega
  | @answer _ data frames hlen hone _ =>
    refine ⟨request, hlog, hask, hgot, ?_, ?_⟩
    · dsimp only
      rw [List.length_append, List.length_append, List.length_singleton]
      omega
    · dsimp only
      rw [List.length_append, List.length_singleton]
      omega
  | @landAnswer _ frame bytes off rest hf _ =>
    refine ⟨request, hlog, hask, hgot, ?_, hserved⟩
    rw [hf, List.length_cons] at howed
    refine (Nat.add_le_add_left (unread_le _) _).trans ?_
    dsimp only
    omega

end

/-! ## When a slot is empty -/

/-- A part of a write has arrived. -/
def InPart : List RequestWr → Prop
  | .data off _ :: _ => off ≠ 0
  | _ => False

/-- The slot of a client is empty unless a request has arrived, in part or all of it, and was not
    returned. -/
def Cleared (v : View) : Prop := ¬ v.Waiting → ¬ InPart v.script → sizeWord v.slot = 0

/-- The request that the server takes out of its slot has at most 255 bytes. -/
def ResetsSmall : ServePc → Prop
  | .reset _ bytes => bytes.length ≤ 255
  | _ => True

def TakesSmall (s : State) : Act → Prop
  | .server => ResetsSmall s.slots.pc
  | _ => True

instance : DecidablePred InPart
  | [] | .bell :: _ => isFalse id
  | .data off _ :: _ => inferInstanceAs (Decidable (off ≠ 0))

instance : ∀ pc, Decidable (ResetsSmall pc)
  | .reset _ bytes => inferInstanceAs (Decidable (bytes.length ≤ 255))
  | .idle | .poll _ _ | .clear _ _ | .size _ _ | .copy _ _ _ => isTrue trivial

instance (s : State) : ∀ a, Decidable (TakesSmall s a)
  | .server => inferInstanceAs (Decidable (ResetsSmall s.slots.pc))
  | .send _ _ | .receive _ _ | .client _ | .land _ _ | .complete _ | .serve _ | .answer _ _
  | .landAnswer _ | .completeAnswer => isTrue trivial

section
variable {inlined : Prop} {looked : Option ℕ} {c : ℕ} {a : Act} {v v' : View}
  {request : Option (List UInt8)}

theorem Move.cleared (hm : Move inlined .distinctMr looked c a v v')
    (h : v.Asks .distinctMr request) (he : Cleared v)
    (hsmall : ∀ bytes, a = .server → v.held = .reset c bytes → bytes.length ≤ 255) :
    Cleared v' := by
  cases hm with
  | ask hlen =>
    obtain rfl := h.quiet hlen
    intro _ _
    refine he ?_ (by rw [h.ask.2]; exact id)
    rintro ⟨-, hlt⟩
    rw [h.log, Option.toList_none, List.append_nil] at hlt
    exact Nat.lt_irrefl _ hlt
  | @land _ off words bytes rest hs =>
    obtain ⟨data, rfl, -, -, off', -, hscript, -⟩ := h.ask.travelling hs
    rw [hs] at hscript
    cases hscript
    intro hw hp
    by_cases hall : ((requestFrame data).drop off).length ≤ 8 * words
    · -- all of it has arrived now
      refine absurd ⟨if_pos hall, ?_⟩ hw
      dsimp only
      rw [h.log, List.length_append]
      exact Nat.lt_succ_self _
    · -- nothing has arrived, before and now
      dsimp only at hp
      rw [if_neg hall] at hp
      have hzero : off + 8 * words = 0 := not_not.1 hp
      obtain ⟨rfl, rfl⟩ : off = 0 ∧ words = 0 := by omega
      refine he ?_ (by rw [hs]; exact fun h => h rfl)
      rintro ⟨hnil, -⟩
      rw [hs] at hnil
      cases hnil
  | ring hs =>
    obtain ⟨data, -, -, -, hk, -⟩ := h.ask.silent hs
    cases hk
  | receive | client | find | load | throw | copy | answer | landAnswer => exact he
  | clear hk => cases hk
  | deliver hk => cases hk
  | reset _ hheld =>
    obtain ⟨-, -, hok, hslot⟩ := h.ask.resets hheld
    exact fun _ _ => (sizeWord_reset_eq_zero hslot hok).2 (hsmall _ rfl hheld)

/-- Only the arrival of a part leaves one. -/
theorem Move.inPart (hm : Move inlined .distinctMr looked c a v v')
    (h : v.Asks .distinctMr request) (hp : InPart v'.script) :
    InPart v.script ∨ ∃ words off bytes rest, a = .land c words ∧
      v.script = .data off bytes :: rest ∧ ¬ bytes.length ≤ 8 * words := by
  cases hm with
  | ask hlen =>
    obtain rfl := h.quiet hlen
    dsimp only at hp
    rw [h.ask.2] at hp
    exact absurd rfl hp
  | @land _ off words bytes rest hs =>
    by_cases hall : bytes.length ≤ 8 * words
    · obtain ⟨data, rfl, -, -, off', -, hscript, -⟩ := h.ask.travelling hs
      rw [hs] at hscript
      cases hscript
      dsimp only at hp
      rw [if_pos hall] at hp
      exact hp.elim
    · exact Or.inr ⟨words, off, bytes, rest, rfl, hs, hall⟩
  | ring hs =>
    obtain ⟨data, -, -, -, hk, -⟩ := h.ask.silent hs
    cases hk
  | receive | client | find | clear | load | throw | deliver | copy | reset | answer
  | landAnswer => exact Or.inl hp

end

/-- Where the requests are, and what is in their slots. -/
structure SlotInv (s : State) : Prop where
  base : Base s
  asks : ∀ c, ∃ request, (view .distinctMr s c).Asks .distinctMr request
  cleared : ∀ c, Cleared (view .distinctMr s c)

section
variable {s s' : State} {a : Act} {c : ℕ}

theorem unread_init : unread .init = 0 := by
  rw [unread, Receiver.init]
  exact if_pos (sizeWord_zero fun _ _ => rfl)

theorem SlotInv.init (maxClients count : ℕ) : SlotInv (init maxClients count) where
  base := ⟨fun c n he => (by cases he), rfl, fun c _ => rfl⟩
  asks c := by
    have howed : 0 + 0 + unread .init ≤ 0 := by rw [unread_init]
    exact ⟨none, rfl, ⟨rfl, rfl⟩, rfl, howed, Nat.zero_le _⟩
  cleared _ _ _ := sizeWord_zero fun _ _ => rfl

theorem SlotInv.delivered_nil (h : SlotInv s) (hc : s.server.count ≤ c) : s.delivered c = [] := by
  obtain ⟨request, hasks⟩ := h.asks c
  have hsent : (view .distinctMr s c).log.sent = [] := h.base.accepted c hc
  rw [hasks.log] at hsent
  exact (List.append_eq_nil_iff.1 hsent).1

theorem TakesSmall.held (h : TakesSmall s .server) {bytes : List UInt8}
    (hheld : (view .distinctMr s c).held = .reset c bytes) : bytes.length ≤ 255 := by
  have hpc := pc_of_held hheld ServePc.noConfusion
  have h : ResetsSmall s.slots.pc := h
  rwa [hpc] at h

/-- A request whose size is seen waits, unless only a part of it has arrived. -/
theorem SlotInv.waiting (h : SlotInv s) (hc : Announced .distinctMr s.slots c)
    (hpart : ¬ InPart (view .distinctMr s c).script) : (view .distinctMr s c).Waiting := by
  by_contra hw
  exact hc (h.cleared c hw hpart)

theorem SlotInv.step (h : SlotInv s) (hreq : Requested .distinctMr a)
    (hfind : ∀ c, a = .server → looked .distinctMr s.slots = some c →
      (view .distinctMr s c).Waiting)
    (hsmall : TakesSmall s a) (hs : Exchanges.step .distinctMr s a = some s') : SlotInv s' := by
  obtain ⟨hbase, hview⟩ := step_view h.base False.elim
    (fun _ hc => h.delivered_nil hc) hreq hs
  refine ⟨hbase, fun c => ?_, fun c => ?_⟩
  · obtain ⟨request, hasks⟩ := h.asks c
    rcases hview c with heq | hm
    · rw [heq]; exact ⟨request, hasks⟩
    · exact hm.asks hasks hreq (hfind c)
  · obtain ⟨request, hasks⟩ := h.asks c
    rcases hview c with heq | hm
    · rw [heq]; exact h.cleared c
    · exact hm.cleared hasks (h.cleared c)
        fun bytes ha hheld => (ha ▸ hsmall : TakesSmall s .server).held hheld

end

/-! ## Requests that arrive in one piece -/

/-- The slot of a client is empty unless a request has arrived and was not returned. -/
def Emptied (v : View) : Prop := ¬ v.Waiting → sizeWord v.slot = 0

/-- The next `words` words are all of a write. -/
def Within (words : ℕ) : RequestWr → Prop
  | .data _ bytes => bytes.length ≤ 8 * words
  | .bell => True

/-- A write arrives in one piece. -/
def Atomic (s : State) : Act → Prop
  | .land c words => ∀ wr ∈ (s.clients c).sq.head?, Within words wr
  | _ => True

instance (words : ℕ) : ∀ wr, Decidable (Within words wr)
  | .data _ bytes => inferInstanceAs (Decidable (bytes.length ≤ 8 * words))
  | .bell => isTrue trivial

instance (s : State) : ∀ a, Decidable (Atomic s a)
  | .land c words => inferInstanceAs (Decidable (∀ wr ∈ (s.clients c).sq.head?, Within words wr))
  | .send _ _ | .receive _ _ | .client _ | .complete _ | .serve _ | .answer _ _ | .server
  | .landAnswer _ | .completeAnswer => isTrue trivial

/-- The invariant where requests arrive in one piece. -/
structure AtomicInv (s : State) : Prop where
  ok : s.Ok .distinctMr
  slots : SlotInv s
  whole : ∀ c, ¬ InPart (view .distinctMr s c).script

section
variable {s s' : State} {a : Act} {c : ℕ}

theorem AtomicInv.emptied (h : AtomicInv s) (c : ℕ) : Emptied (view .distinctMr s c) :=
  fun hw => h.slots.cleared c hw (h.whole c)

theorem AtomicInv.waiting (h : AtomicInv s) (hc : Announced .distinctMr s.slots c) :
    (view .distinctMr s c).Waiting := h.slots.waiting hc (h.whole c)

/-- Each request is delivered exactly once, and its slot is empty then. -/
def ExactlyOnce (s : State) : Prop :=
  Right .distinctMr s ∧ ∀ c, Emptied (view .distinctMr s c)

/-- A request that waits has a size. -/
theorem announced_of_waiting (h : s.Ok .distinctMr) (hw : (view .distinctMr s c).Waiting) :
    Announced .distinctMr s.slots c := by
  obtain ⟨r, hr, -, hslot⟩ := h.waiting hw
  change sizeWord (s.slots.receives c) ≠ 0
  rw [hslot.size]
  exact Answers.lengthOf_ne_zero ⟨hr.2 rfl, by have := hr.1; omega⟩

theorem AtomicInv.exactlyOnce (h : AtomicInv s) : ExactlyOnce s :=
  ⟨h.ok.right le_rfl (fun _ => h.waiting) fun _ hw _ => announced_of_waiting h.ok hw, h.emptied⟩

/-- The write that arrives is the oldest that was posted. -/
theorem Atomic.script {words : ℕ} (h : Atomic s (.land c words))
    (hs : step .distinctMr s (.land c words) = some s') {off : ℕ} {bytes : List UInt8}
    {rest : List RequestWr} (hscript : (view .distinctMr s c).script = .data off bytes :: rest) :
    bytes.length ≤ 8 * words := by
  simp only [step, land] at hs
  cases hsq : (s.clients c).sq with
  | nil => simp only [hsq] at hs; cases hs
  | cons wr sq =>
    have hwr : wr = .data off bytes := by
      simp only [view, requestScript, hsq, List.cons_append] at hscript
      exact (List.cons.inj hscript).1
    have hwithin : Within words wr := h wr (by simp [hsq])
    rw [hwr] at hwithin
    exact hwithin

theorem AtomicInv.step (h : AtomicInv s) (hadm : Admitted .distinctMr a) (hatomic : Atomic s a)
    (hsmall : TakesSmall s a) (hs : Exchanges.step .distinctMr s a = some s') : AtomicInv s' := by
  have hfind : ∀ c, a = .server → looked .distinctMr s.slots = some c →
      (view .distinctMr s c).Waiting := fun c _ hl => h.waiting (looked_eq_some hl)
  refine ⟨h.ok.step hadm hfind hs, h.slots.step hadm.requested hfind hsmall hs, fun c hp => ?_⟩
  obtain ⟨request, hasks⟩ := h.slots.asks c
  rcases (h.ok.step_view hadm hs).2 c with heq | hm
  · rw [heq] at hp; exact h.whole c hp
  · rcases hm.inPart hasks hp with hp | ⟨words, off, bytes, rest, rfl, hscript, hlong⟩
    · exact h.whole c hp
    · exact hlong (hatomic.script hs hscript)

/-- A larger request is left in its slot. -/
theorem AtomicInv.not_emptied (h : AtomicInv s) (hsmall : ¬ TakesSmall s a)
    (hs : Exchanges.step .distinctMr s a = some s') :
    ¬ ExactlyOnce s' := by
  rintro ⟨-, he⟩
  obtain ⟨c, bytes, rfl, hpc, hlarge⟩ : ∃ c bytes, a = .server ∧ s.slots.pc = .reset c bytes ∧
      ¬ bytes.length ≤ 255 := by
    cases a with
    | server =>
      have hsmall : ¬ ResetsSmall s.slots.pc := hsmall
      cases hpc : s.slots.pc with
      | reset c bytes => rw [hpc] at hsmall; exact ⟨c, bytes, rfl, rfl, hsmall⟩
      | _ => rw [hpc] at hsmall; exact absurd trivial hsmall
    | _ => exact absurd trivial hsmall
  obtain ⟨stage, hok⟩ := h.ok.ok c
  have hheld : (view .distinctMr s c).held = .reset c bytes := held_self hpc rfl
  obtain ⟨hreq, -, hd, hslot⟩ := hok.ask.resets hheld
  obtain rfl := stage.eq_asked hreq
  have hs' : s' = { s with slots := { s.slots with
      receives := Function.update s.slots.receives c (Mem.write id (s.slots.receives c) 0 [0])
      pc := .idle, returned := s.slots.returned ++ [(c, bytes)] } } := by
    simp only [Exchanges.step, hpc, Polling.receiveStep,
      MulticlientRDMADistinctMrTransportServer.receiveStep, Option.map_some] at hs
    exact (Option.some.inj hs).symm
  have hslot' : (view .distinctMr s' c).slot = Mem.write id (s.slots.receives c) 0 [0] := by
    rw [hs']; exact Function.update_self _ _ _
  have hdel : (view .distinctMr s' c).log.delivered = s.delivered c ++ [bytes] := by
    rw [hs']; exact delivered_append _ _ _
  have hsent : (view .distinctMr s' c).log.sent = s.delivered c ++ [bytes] := by
    rw [hs']; exact hok.log.1
  -- the request was returned, but its slot does not look empty
  have hnone : ¬ (view .distinctMr s' c).Waiting := by
    rintro ⟨-, hlt⟩
    rw [hdel, hsent] at hlt
    exact Nat.lt_irrefl _ hlt
  have hzero := he c hnone
  rw [hslot'] at hzero
  exact hlarge ((sizeWord_reset_eq_zero hslot hd).1 hzero)

end

/-- **Each request is delivered exactly once and leaves its slot empty** iff none that the
    server takes has more than 255 bytes. -/
theorem exactlyOnce_iff (maxClients count : ℕ) {acts : List Act}
    (h : Along (step .distinctMr) (fun s a => Admitted .distinctMr a ∧ Atomic s a)
      (init maxClients count) acts) :
    AllStates (step .distinctMr) ExactlyOnce (init maxClients count) acts ↔
      Along (step .distinctMr) TakesSmall (init maxClients count) acts := by
  have h₀ : AtomicInv (init maxClients count) :=
    ⟨.init .distinctMr maxClients count, .init maxClients count, fun _ => id⟩
  exact allStates_iff_along_of_along (I := AtomicInv) (fun _ hi => hi.exactlyOnce)
    (fun _ _ _ hi hD hC hs => hi.step hD.1 hD.2 hC hs)
    (fun _ _ _ hi _ hC hs => hi.not_emptied hC hs) h₀ h

/-- Two clients ask and are answered, one of them twice. -/
def smallRequests : List Act :=
  [.serve 8, .send 0 [1, 2], .send 1 [3], .client 1, .land 1 2, .server, .client 0, .server,
    .land 0 2, .server, .server, .server, .complete 1, .client 1, .receive 1 8, .answer 1 [4],
    .server, .landAnswer 1, .client 1, .client 1, .client 1, .client 1, .serve 8, .server, .server,
    .server, .server, .send 1 [5], .answer 0 [6], .server]

theorem exactlyOnce_small :
    Along (step .distinctMr) (fun s a => Admitted .distinctMr a ∧ Atomic s a) (init 2 2)
        smallRequests ∧
      (run (step .distinctMr) (init 2 2) smallRequests).map (fun s => s.slots.returned) =
        some [(1, [3]), (0, [1, 2])] ∧
      AllStates (step .distinctMr) ExactlyOnce (init 2 2) smallRequests := by
  have h : Along (step .distinctMr) (fun s a => Admitted .distinctMr a ∧ Atomic s a) (init 2 2)
      smallRequests := by decide +kernel
  exact ⟨h, by decide +kernel, (exactlyOnce_iff 2 2 h).2 (by decide +kernel)⟩

def largeRequest : List UInt8 := List.replicate 256 1

/-- A client asks once and the server calls `receive` twice. -/
def receiveTwice : List Act :=
  [.serve 256, .send 0 largeRequest, .client 0, .land 0 33, .server, .server, .server, .server,
    .serve 256, .server, .server, .server, .server]

/-- A request of 256 bytes is returned a second time. -/
theorem largeRequest_returned_twice :
    Along (step .distinctMr) (fun s a => Admitted .distinctMr a ∧ Atomic s a) (init 1 1)
        receiveTwice ∧
      ¬ AllStates (step .distinctMr) ExactlyOnce (init 1 1) receiveTwice := by
  have hlen : (run (step .distinctMr) (init 1 1) receiveTwice).map (fun s =>
      ((s.log 0).delivered.length, (s.log 0).sent.length)) = some (2, 1) := by decide +kernel
  refine ⟨by decide +kernel, ?_⟩
  intro hall
  obtain ⟨s, hs, hlog⟩ := Option.map_eq_some_iff.1 hlen
  have hle := ((hall.last hs).1.exact 0).delivered.length_le
  rw [Prod.mk.injEq] at hlog
  omega

/-! ## Requests that arrive in words -/

/-- What the server has copied is the request, and all of it has arrived. -/
def CopiedWhole (s : State) : Prop :=
  ∀ c bytes, s.slots.pc = .reset c bytes →
    (view .distinctMr s c).script = [] ∧ (s.clients c).sent.getLast? = some bytes

/-- The slot that the server is about to look into. -/
def polled : ServePc → Option ℕ
  | .poll _ i => some i
  | _ => none

/-- The server does not look into a slot with a part of a request. -/
def LooksWhole (s : State) : Act → Prop
  | .server => ∀ i ∈ polled s.slots.pc, ¬ InPart (s.clients i).sq
  | _ => True

instance (s : State) : ∀ a, Decidable (LooksWhole s a)
  | .server => inferInstanceAs (Decidable (∀ i ∈ polled s.slots.pc, ¬ InPart (s.clients i).sq))
  | .send _ _ | .receive _ _ | .client _ | .land _ _ | .complete _ | .serve _ | .answer _ _
  | .landAnswer _ | .completeAnswer => isTrue trivial

section
variable {s s' : State} {a : Act} {c : ℕ}

theorem polled_of_looked (h : looked .distinctMr s.slots = some c) :
    polled s.slots.pc = some c := by
  unfold looked at h
  split at h
  case h_1 maxSize i hpc =>
    rw [hpc, polled]
    simp only [Polling.look] at h
    split_ifs at h
    exact h
  case h_2 => cases h

/-- A write that is not posted yet has not arrived in part. -/
theorem inPart_sq (hp : InPart (view .distinctMr s c).script) : InPart (s.clients c).sq := by
  cases hsq : (s.clients c).sq with
  | cons wr sq =>
    have hscript : (view .distinctMr s c).script =
        wr :: (sq ++ unposted .distinctMr (s.clients c)) := by
      simp [view, requestScript, hsq]
    rw [hscript] at hp
    cases wr <;> exact hp
  | nil =>
    have hscript : (view .distinctMr s c).script = unposted .distinctMr (s.clients c) := by
      simp [view, requestScript, hsq]
    rw [hscript] at hp
    cases hpc : (s.clients c).pc <;> simp [unposted, hpc, InPart] at hp

theorem SlotInv.copiedWhole (h : SlotInv s) : CopiedWhole s := by
  intro c bytes hpc
  obtain ⟨request, hasks⟩ := h.asks c
  obtain ⟨rfl, hscript, -, -⟩ := hasks.ask.resets (held_self hpc rfl)
  have hsent : (s.clients c).sent = s.delivered c ++ [bytes] := hasks.log
  exact ⟨hscript, by rw [hsent, List.getLast?_concat]⟩

theorem SlotInv.step_of_looksWhole (h : SlotInv s) (hreq : Requested .distinctMr a)
    (hlooks : LooksWhole s a) (hsmall : TakesSmall s a)
    (hs : Exchanges.step .distinctMr s a = some s') : SlotInv s' := by
  refine h.step hreq (fun c ha hl => ?_) hsmall hs
  subst ha
  have hwhole : ¬ InPart (s.clients c).sq := hlooks c (polled_of_looked hl)
  exact h.waiting (looked_eq_some hl) fun hp => hwhole (inPart_sq hp)

end

/-- One word has arrived when the server looks. -/
def earlyLook (data : List UInt8) : List Act :=
  [.serve 512, .send 0 data, .client 0, .land 0 1, .server, .server, .server]

/-- The server copies the slot when only the size of the request has arrived. -/
theorem exists_partial {maxClients count : ℕ} (hcount : 0 < count) {data : List UInt8}
    (hd : RequestOk .distinctMr data) :
    ∃ s bytes, run (step .distinctMr) (init maxClients count) (earlyLook data) = some s ∧
      (s.clients 0).sent = [data] ∧ s.slots.pc = .reset 0 bytes ∧ bytes.length = data.length ∧
      (view .distinctMr s 0).script ≠ [] := by
  obtain ⟨m, n, hsend, hn, hread⟩ := send_spec hd .init
  have hinline : ¬ n > maxInlineSize := by
    refine UInt64.not_lt.2 (UInt64.le_iff_toNat_le.2 ?_)
    rw [hn]; exact hd.1
  have hpos := hd.2 rfl
  have hlong : ¬ (requestFrame data).length ≤ 8 := by rw [length_requestFrame]; omega
  -- the first word is the size
  have hsize : sizeWord (Mem.write id (fun _ => 0) 0 ((requestFrame data).take 8)) =
      lengthOf data := by
    refine sizeWord_eq ?_
    intro i b hb
    have hi := (List.getElem?_eq_some_iff.1 hb).1
    have hl : (bytesOf (lengthOf data)).length = 8 := Bytes.length_le64 _
    rw [← Nat.zero_add i]
    refine Mem.write_id_of_get ?_
    rw [List.getElem?_take_of_lt (by omega), requestFrame, List.getElem?_append_left hi, hb]
  have hne : lengthOf data ≠ 0 := Answers.lengthOf_ne_zero ⟨hpos, by have := hd.1; omega⟩
  have hmax : ¬ 512 < lengthOf data := by
    rw [UInt64.lt_iff_toNat_lt, hd.toNat]
    have := hd.1
    change ¬ 512 < data.length
    omega
  simp only [Client.init, Receiver.init] at hsend
  refine ⟨_, _, by
    simp [earlyLook, run, step, init, Slots.init, Server.init, Client.init, Receiver.init, hcount,
      hsend, Polling.sendStep, MulticlientRDMADistinctMrTransportClient.sendStep, Client.post,
      hinline, hread, land, hlong, Polling.receiveStep,
      MulticlientRDMADistinctMrTransportServer.receiveStep, hsize, hne, hmax]
    rfl, ?_, rfl, ?_, ?_⟩
  · simp
  · rw [Mem.length_read, hd.toNat]
  · simp [view, requestScript]

/-- **A request is copied whole** in every run in which the server looks into no slot with a part of
    a request and takes none of more than 255 bytes; of every request some schedule copies what
    has not arrived. -/
theorem copiedWhole_of_polls (maxClients count : ℕ) :
    (∀ acts, Along (step .distinctMr)
        (fun s a => Requested .distinctMr a ∧ LooksWhole s a ∧ TakesSmall s a)
        (init maxClients count) acts →
      AllStates (step .distinctMr) CopiedWhole (init maxClients count) acts) ∧
    ∀ data, 0 < count → RequestOk .distinctMr data →
      ∃ acts s bytes, (∀ a ∈ acts, Requested .distinctMr a) ∧
        run (step .distinctMr) (init maxClients count) acts = some s ∧
        (s.clients 0).sent = [data] ∧ s.slots.pc = .reset 0 bytes ∧ bytes.length = data.length ∧
        (view .distinctMr s 0).script ≠ [] := by
  constructor
  · intro acts h
    exact allStates_of_along (I := SlotInv) (fun _ hi => hi.copiedWhole)
      (fun _ _ _ hi hC hs => hi.step_of_looksWhole hC.1 hC.2.1 hC.2.2 hs)
      (.init maxClients count) h
  · intro data hcount hd
    obtain ⟨s, bytes, hs⟩ := exists_partial hcount hd
    exact ⟨earlyLook data, s, bytes, by simp [earlyLook, Requested, hd], hs⟩

/-- A request arrives in two words between two looks of the server; the answer has 600 bytes. -/
def lateLook : List Act :=
  [.serve 8, .send 0 [1], .client 0, .server, .land 0 1, .land 0 1, .server, .server, .server,
    .server, .server, .answer 0 (List.replicate 600 2), .server]

theorem copiedWhole_lateLook :
    ((run (step .distinctMr) (init 1 1) lateLook).map fun s =>
      (s.slots.returned, (s.server.connections 0).sq.length)) = some ([(0, [1])], 1) ∧
    AllStates (step .distinctMr) CopiedWhole (init 1 1) lateLook ∧
      ∃ acts s bytes, (∀ a ∈ acts, Requested .distinctMr a) ∧
        run (step .distinctMr) (init 1 1) acts = some s ∧
        (s.clients 0).sent = [[1]] ∧ s.slots.pc = .reset 0 bytes ∧ bytes.length = 1 ∧
        (view .distinctMr s 0).script ≠ [] := by
  have h : Along (step .distinctMr)
      (fun s a => Requested .distinctMr a ∧ LooksWhole s a ∧ TakesSmall s a) (init 1 1)
      lateLook := by decide +kernel
  exact ⟨by decide +kernel, (copiedWhole_of_polls 1 1).1 lateLook h,
    (copiedWhole_of_polls 1 1).2 [1] (by decide) (by decide)⟩

/-- Of a request of one byte, a byte is returned that was not sent. -/
theorem partialRequest_returned :
    (run (step .distinctMr) (init 1 1) (earlyLook [1] ++ [.server])).map
        (fun s => s.slots.returned) = some [(0, [0])] ∧
      ¬ ∀ acts, (∀ a ∈ acts, Requested .distinctMr a) →
        AllStates (step .distinctMr) CopiedWhole (init 1 1) acts := by
  have hreq : RequestOk .distinctMr [1] := by decide
  refine ⟨by decide +kernel, ?_⟩
  intro hall
  obtain ⟨s, bytes, hs, -, hpc, -, hscript⟩ := exists_partial Nat.one_pos hreq
  exact hscript (((hall _ (by simp [earlyLook, Requested, hreq])).last hs) 0 bytes hpc).1

end Exchanges

end Multiclient

end L5RDMA
