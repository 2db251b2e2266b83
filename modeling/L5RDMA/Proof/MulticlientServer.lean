/-
  When the answers of the multi-client servers mix.

  The connections share `sendBuffer`, and `send` fills it again without waiting
  for the answers that are posted.  An INLINE answer has its bytes with it;
  a larger one is read from `sendBuffer` when the network card gets to it.

  `unmixed_of_fillSafe`: every write deposits exactly the frame of the call
  that posted it as long as no call fills cells that an earlier answer, to
  whichever client, has yet to be read from.
-/
import L5RDMA.MulticlientServer

namespace L5RDMA

namespace Multiclient

open Run Verbs
open Pos (lengthOf)

/-- Every write has put into its client's receive buffer exactly its frame, or so far a
    beginning of it. -/
def Unmixed (srv : Server) : Prop :=
  ∀ c, (∀ d ∈ (srv.connections c).deposits, d.2 = d.1) ∧
    ∀ p ∈ (srv.connections c).sq, p.landed <+: p.frame

/-- The answer fits. -/
def Admitted (t : Transport) : Act → Prop
  | .send _ data => data.length + 9 ≤ t.maxMessageSize.toNat
  | _ => True

/-- No posted answer has yet to be read from the cells that the call fills; one without a
    connection fills none. -/
def FillSafe (srv : Server) : Act → Prop
  | .send receiverId data => receiverId < srv.count → ∀ c < srv.count,
      ∀ p ∈ (srv.connections c).sq, ∀ i ∈ (Request.write p.wr).cells id, data.length + 9 ≤ i
  | _ => True

instance (t : Transport) : ∀ a, Decidable (Admitted t a)
  | .send _ data => inferInstanceAs (Decidable (data.length + 9 ≤ t.maxMessageSize.toNat))
  | .server | .land _ _ | .complete => isTrue trivial

instance (srv : Server) : ∀ a, Decidable (FillSafe srv a)
  | .send receiverId data => inferInstanceAs (Decidable (receiverId < srv.count →
      ∀ c < srv.count, ∀ p ∈ (srv.connections c).sq, ∀ i ∈ (Request.write p.wr).cells id,
        data.length + 9 ≤ i))
  | .server | .land _ _ | .complete => isTrue trivial

/-! ## The invariant -/

/-- What a posted write has deposited and will deposit is its frame. -/
structure Good (m : Mem) (p : Posted) : Prop where
  landed : p.landed <+: p.frame
  length : p.landed.length + p.wr.length = p.frame.length
  /-- a request that is not INLINE goes on reading where it stopped -/
  localOff : p.wr.inlined = none → p.wr.localOff = p.landed.length
  bytes : ∀ i < p.wr.length, p.frame[p.landed.length + i]? = some (p.wr.byte id m i)

/-- The frame of the call in progress is in `sendBuffer`. -/
def SendOk (count : ℕ) (m : Mem) : SendPc → Prop
  | .post receiverId totalLength frame => receiverId < count ∧ totalLength.toNat = frame.length ∧
      ∀ (i : ℕ) b, frame[i]? = some b → m i = b
  | _ => True

structure Inv (srv : Server) : Prop where
  deposits : ∀ c, ∀ d ∈ (srv.connections c).deposits, d.2 = d.1
  queued : ∀ c, ∀ p ∈ (srv.connections c).sq, Good srv.sendBuffer p
  accepted : ∀ c, srv.count ≤ c → (srv.connections c).sq = []
  send : SendOk srv.count srv.sendBuffer srv.pc

theorem Inv.unmixed {srv : Server} (h : Inv srv) : Unmixed srv :=
  fun c => ⟨h.deposits c, fun p hp => (h.queued c p hp).landed⟩

theorem inv_init (count : ℕ) : Inv (Server.init count) where
  deposits := fun c d hd => by cases hd
  queued := fun c p hp => by cases hp
  accepted := fun c _ => rfl
  send := trivial

/-! ## The steps -/

section
variable {srv srv' : Server} {data : List UInt8}

theorem length_answerFrame : (answerFrame data).length = data.length + 9 := by
  simp only [answerFrame, bytesOf, List.length_append, Bytes.length_le64, List.length_singleton]
  omega

/-- The frame is in place after a fill, -/
theorem fill_eq (m : Mem) (h : (lengthOf data).toNat = data.length) {i : ℕ} {b : UInt8}
    (hb : (answerFrame data)[i]? = some b) : fill m data i = b := by
  have hl : (bytesOf (lengthOf data)).length = 8 := Bytes.length_le64 _
  unfold fill
  rw [h]
  rw [answerFrame, List.append_assoc] at hb
  rcases Nat.lt_or_ge i 8 with hi | hi
  · -- the size
    rw [List.getElem?_append_left (by omega)] at hb
    rw [Mem.write_id_of_ne (Or.inl (by omega)), ← Nat.zero_add i]
    exact Mem.write_id_of_get hb
  · obtain ⟨j, rfl⟩ := Nat.exists_eq_add_of_le hi
    rw [List.getElem?_append_right (by omega), hl, Nat.add_sub_cancel_left] at hb
    rcases Nat.lt_or_ge j data.length with hj | hj
    · -- the data
      rw [List.getElem?_append_left hj] at hb
      rw [Mem.write_id_of_ne (Or.inl (by omega)), Mem.write_id_of_ne (Or.inr (by omega)),
        Mem.write_id_of_get hb]
    · -- the validity byte
      rw [List.getElem?_append_right hj] at hb
      have hk := (List.getElem?_eq_some_iff.1 hb).1
      rw [List.length_singleton] at hk
      have hj' : j = data.length := by omega
      subst hj'
      rw [Nat.sub_self] at hb
      exact Mem.write_id_of_get (i := 0) hb

/-- and nothing else has changed. -/
theorem fill_of_le (m : Mem) (h : (lengthOf data).toNat = data.length) {i : ℕ}
    (hi : data.length + 9 ≤ i) : fill m data i = m i := by
  have hl : (bytesOf (lengthOf data)).length = 8 := Bytes.length_le64 _
  unfold fill
  rw [h, Mem.write_id_of_ne (Or.inr (by rw [List.length_singleton]; omega)),
    Mem.write_id_of_ne (Or.inr (by omega)), Mem.write_id_of_ne (Or.inr (by omega))]

/-- A write is as good in a memory that differs only where it has nothing to read. -/
theorem Good.congr {m m' : Mem} {p : Posted} (h : Good m p)
    (hm : ∀ i ∈ (Request.write p.wr).cells id, m' i = m i) : Good m' p := by
  refine { h with bytes := ?_ }
  intro i hi
  rw [h.bytes i hi]
  unfold Write.byte
  cases hin : p.wr.inlined with
  | some bs => rfl
  | none =>
    refine congrArg some (hm _ ?_).symm
    simp only [Request.cells, hin, List.mem_map, List.mem_range]
    exact ⟨i, hi, rfl⟩

theorem answerSize : lengthOf data + 8 + 1 = UInt64.ofNat (data.length + 9) := by
  rw [lengthOf, show (8 : UInt64) = UInt64.ofNat 8 from rfl,
    show (1 : UInt64) = UInt64.ofNat 1 from rfl, Pos.ofNat_add, Pos.ofNat_add]

theorem sendTo_inv {max : UInt64} {receiverId : ℕ} (h : Inv srv)
    (hadm : data.length + 9 ≤ max.toNat) (hfill : FillSafe srv (.send receiverId data))
    (hs : sendTo max srv receiverId data = some srv') : Inv srv' := by
  have hlen : (lengthOf data).toNat = data.length := by
    have := max.toNat_lt
    rw [lengthOf, Pos.ofNat_toNat, Nat.mod_eq_of_lt (by omega)]
  unfold sendTo at hs
  dsimp only at hs
  split_ifs at hs with h1 h2 h3
  · cases hs; exact h
  · cases hs; exact h
  · cases hs
    have hcells := hfill (by omega)
    refine
      { h with
        queued := ?_
        send := ⟨by dsimp only; omega, ?_, ?_⟩ }
    · intro c p hp
      rcases Nat.lt_or_ge c srv.count with hc | hc
      · exact (h.queued c p hp).congr fun i hi => fill_of_le _ hlen (hcells c hc p hp i hi)
      · rw [h.accepted c hc] at hp; cases hp
    · have := max.toNat_lt
      rw [length_answerFrame, answerSize, Pos.ofNat_toNat, Nat.mod_eq_of_lt (by omega)]
    · intro i b hb
      exact fill_eq _ hlen hb

/-- The request that `send` posts. -/
theorem good_answerWr {m : Mem} {sendCounter totalLength : UInt64} {frame : List UInt8}
    (hlen : totalLength.toNat = frame.length) (hm : ∀ (i : ℕ) b, frame[i]? = some b → m i = b) :
    Good m ⟨answerWr m sendCounter totalLength, frame, []⟩ where
  landed := List.nil_prefix
  length := by simp [answerWr, hlen]
  localOff := fun _ => rfl
  bytes := by
    intro i hi
    simp only [answerWr, hlen] at hi
    have hi' := List.getElem?_eq_getElem hi
    rw [List.length_nil, Nat.zero_add, hi', ← hm i _ hi']
    congr 1
    unfold Write.byte answerWr
    split
    next bs hbs =>
      dsimp only at hbs
      split_ifs at hbs
      cases hbs
      rw [List.getD_eq_getElem?_getD, Mem.read_get (by omega), Nat.zero_add]
      rfl
    next => simp

/-- A connection changes, and with it nothing but its own writes. -/
theorem Inv.update (h : Inv srv) {c : ℕ} {con : Connection} (hc : c < srv.count)
    (hdep : ∀ d ∈ con.deposits, d.2 = d.1) (hsq : ∀ p ∈ con.sq, Good srv.sendBuffer p)
    {acks : ℕ} {pc : SendPc} (hpc : SendOk srv.count srv.sendBuffer pc) :
    Inv { srv with
      connections := Function.update srv.connections c con, acks := acks, pc := pc } := by
  refine ⟨?_, ?_, ?_, hpc⟩
  · intro c'
    by_cases hcc : c' = c
    · subst hcc; simpa using hdep
    · simpa [hcc] using h.deposits c'
  · intro c'
    by_cases hcc : c' = c
    · subst hcc; simpa using hsq
    · simpa [hcc] using h.queued c'
  · intro c' hc'
    have hcc : c' ≠ c := by rintro rfl; dsimp only at hc'; omega
    simpa [hcc] using h.accepted c' hc'

theorem serverStep_inv (h : Inv srv) (hs : srv.step = some srv') : Inv srv' := by
  unfold Server.step at hs
  cases hpc : srv.pc with
  | idle => rw [hpc] at hs; cases hs
  | post receiverId totalLength frame =>
    have hsend := h.send
    rw [hpc] at hsend
    obtain ⟨hid, hlen, hm⟩ := hsend
    simp only [hpc] at hs
    cases hs
    refine h.update hid ?_ ?_ ?_
    · exact h.deposits receiverId
    · intro p hp
      rcases List.mem_append.1 hp with hp | hp
      · exact h.queued receiverId p hp
      · rw [List.mem_singleton] at hp; exact hp ▸ good_answerWr hlen hm
    · split_ifs <;> trivial
  | poll =>
    simp only [hpc] at hs
    split_ifs at hs
    cases hs
    exact { h with send := trivial }

/-- The next bytes of a good write. -/
theorem Good.land {m : Mem} {p : Posted} (h : Good m p) {k : ℕ} (hk : k ≤ p.wr.length) :
    Good m ⟨p.wr.drop k, p.frame, p.landed ++ p.wr.bytes id m k⟩ := by
  have hlen := h.length
  obtain ⟨rest, hrest⟩ := h.landed
  have hget : ∀ i < p.wr.length, rest[i]? = some (p.wr.byte id m i) := by
    intro i hi
    rw [← h.bytes i hi, ← hrest, List.getElem?_append_right (Nat.le_add_right _ _),
      Nat.add_sub_cancel_left]
  refine ⟨?_, ?_, ?_, ?_⟩
  · refine ⟨rest.drop k, ?_⟩
    have htake : p.wr.bytes id m k = rest.take k := by
      ext i : 1
      rcases Nat.lt_or_ge i k with hi | hi
      · have hb := List.getElem?_eq_getElem (l := p.wr.bytes id m k) (i := i) (by simpa using hi)
        rw [List.getElem?_take_of_lt hi, hget i (by omega), hb, (Write.bytes_get _ hb).2]
      · rw [List.getElem?_eq_none (by simpa using hi),
          List.getElem?_eq_none ((List.length_take_le _ _).trans hi)]
    rw [List.append_assoc, htake, List.take_append_drop, hrest]
  · simp only [Write.drop, List.length_append, Write.length_bytes]; omega
  · intro hin
    have : p.wr.inlined = none := by simpa [Write.drop] using hin
    simp only [Write.drop, List.length_append, Write.length_bytes, h.localOff this]
  · intro i hi
    simp only [Write.drop] at hi
    rw [Write.byte_drop, List.length_append, Write.length_bytes, add_assoc]
    exact h.bytes (k + i) (by omega)

theorem land_inv (h : Inv srv) {c k : ℕ} (hs : srv.land c k = some srv') : Inv srv' := by
  unfold Server.land at hs
  dsimp only at hs
  split at hs
  next => cases hs
  next p sq hsq =>
    by_cases hk : k ≤ p.wr.length
    case neg => rw [if_neg hk] at hs; cases hs
    have hc : c < srv.count := by
      by_contra hc
      rw [h.accepted c (by omega)] at hsq; cases hsq
    have hp := h.queued c p (by simp [hsq])
    have hrest : ∀ q ∈ sq, Good srv.sendBuffer q := fun q hq => h.queued c q (by simp [hsq, hq])
    rw [if_pos hk] at hs
    by_cases hall : k = p.wr.length
    · -- the write is done
      rw [if_pos hall] at hs
      cases hs
      refine h.update hc ?_ hrest h.send
      intro d hd
      rcases List.mem_append.1 hd with hd | hd
      · exact h.deposits c d hd
      · rw [List.mem_singleton] at hd
        subst hd
        refine (hp.land hk).landed.eq_of_length ?_
        have := hp.length
        simp only [List.length_append, Write.length_bytes]; omega
    · rw [if_neg hall] at hs
      cases hs
      refine h.update hc ?_ ?_ h.send
      · exact h.deposits c
      · intro q hq
        rcases List.mem_cons.1 hq with rfl | hq
        · exact hp.land hk
        · exact hrest q hq

theorem step_inv {t : Transport} {a : Act} (h : Inv srv) (hadm : Admitted t a)
    (hfill : FillSafe srv a) (hs : step t srv a = some srv') : Inv srv' := by
  cases a with
  | send receiverId data =>
    simp only [step] at hs
    split at hs
    next => rw [t.send_eq] at hs; exact sendTo_inv h hadm hfill hs
    next => cases hs
  | server => exact serverStep_inv h hs
  | land c k => exact land_inv h hs
  | complete =>
    simp only [step, Server.complete] at hs
    split_ifs at hs
    cases hs
    exact { h with }

end

/-- **Answers do not mix** as long as no call fills cells of `sendBuffer` that a posted
    answer has yet to be read from. -/
theorem unmixed_of_fillSafe (t : Transport) (count : ℕ) {acts : List Act}
    (hacts : Along (step t) (fun srv a => Admitted t a ∧ FillSafe srv a) (Server.init count) acts) :
    AllStates (step t) Unmixed (Server.init count) acts :=
  allStates_of_along (fun _ h => Inv.unmixed h) (fun _ _ _ h hC hs => step_inv h hC.1 hC.2 hs)
    (inv_init count) hacts

def onesAnswer : List UInt8 := List.replicate 503 1

def twosAnswer : List UInt8 := List.replicate 503 2

/-- An answer that is not INLINE is read before the next one is put in place. -/
def oneByOne : List Act :=
  [.send 1 [7], .server, .send 0 onesAnswer, .server, .land 0 512, .send 1 twosAnswer, .server,
    .land 1 10, .land 1 200, .land 1 312]

theorem unmixed_oneByOne :
    ((run (step .recv) (Server.init 2) oneByOne).map fun srv =>
        ((srv.connections 0).deposits.length, (srv.connections 1).deposits.length)) =
        some (1, 2) ∧
      AllStates (step .recv) Unmixed (Server.init 2) oneByOne := by
  have h : Along (step .recv) (fun srv a => Admitted .recv a ∧ FillSafe srv a) (Server.init 2)
      oneByOne := by decide +kernel
  exact ⟨by decide +kernel, unmixed_of_fillSafe .recv 2 h⟩

/-- Two answers of 512 bytes to different clients, posted before the first is read. -/
def backToBack : List Act :=
  [.send 0 onesAnswer, .server, .send 1 twosAnswer, .server, .land 0 512]

/-- The answers are admitted, and some write deposits other bytes than its own. -/
def Mixes (t : Transport) : Prop :=
  (∀ c data, Act.send c data ∈ backToBack → c < 2 ∧ data.length + 9 ≤ t.maxMessageSize.toNat) ∧
    ¬ AllStates (step t) Unmixed (Server.init 2) backToBack

theorem mixes_of_run {t : Transport} (hmax : 512 ≤ t.maxMessageSize.toNat)
    (hrun : ((run (step t) (Server.init 2) backToBack).bind fun srv =>
      (srv.connections 0).deposits[0]?.map fun d => (d.1[8]?, d.2[8]?)) = some (some 1, some 2)) :
    Mixes t := by
  constructor
  · intro c data h
    have hlen : onesAnswer.length = 503 ∧ twosAnswer.length = 503 :=
      ⟨List.length_replicate, List.length_replicate⟩
    simp only [backToBack, List.mem_cons, Act.send.injEq, List.not_mem_nil, or_false, reduceCtorEq,
      false_or] at h
    rcases h with ⟨rfl, rfl⟩ | ⟨rfl, rfl⟩
    · exact ⟨by decide, by rw [hlen.1]; exact hmax⟩
    · exact ⟨by decide, by rw [hlen.2]; exact hmax⟩
  · intro h
    obtain ⟨srv, hsrv, hd⟩ := Option.bind_eq_some_iff.1 hrun
    obtain ⟨d, hd0, hd⟩ := Option.map_eq_some_iff.1 hd
    have heq := ((h.last hsrv) 0).1 d (List.mem_of_getElem? hd0)
    rw [heq, Prod.mk.injEq] at hd
    exact absurd (hd.1.symm.trans hd.2) (by decide)

/-- Client 0 gets the answer to client 1, from any of the three servers. -/
theorem backToBack_mixes : Mixes .doorbell ∧ Mixes .recv ∧ Mixes .distinctMr :=
  ⟨mixes_of_run (by decide) (by decide +kernel), mixes_of_run (by decide) (by decide +kernel),
    mixes_of_run (by decide) (by decide +kernel)⟩

end Multiclient

end L5RDMA
