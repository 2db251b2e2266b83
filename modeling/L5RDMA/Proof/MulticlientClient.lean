/-
  When a client returns an answer that has not arrived completely.

  The client judges from one byte, `validity`, behind as many bytes as the size
  word says.  Earlier answers are not cleared, so that this byte may be one of
  theirs.

  `whole_iff`: for a list of answers, all of them are returned complete and
  unchanged in every schedule iff none of them finds a `validity` byte of an
  earlier answer in the place of its own (`NoStale`).
-/
import L5RDMA.MulticlientClient
import L5RDMA.Proof.MulticlientServer

namespace L5RDMA

namespace Multiclient

open Run
open Pos (lengthOf)

/-! ## The size word -/

theorem sizeWord_eq {m : Mem} {n : UInt64} (h : ∀ (i : ℕ) b, (bytesOf n)[i]? = some b → m i = b) :
    sizeWord m = n := by
  have hread : Mem.read id m 0 8 = bytesOf n := by
    ext i : 1
    rcases Nat.lt_or_ge i 8 with hi | hi
    · have hb := List.getElem?_eq_getElem (l := bytesOf n) (i := i) (by simpa [bytesOf] using hi)
      rw [Mem.read_get hi, hb, ← h i _ hb, Nat.zero_add]; rfl
    · rw [List.getElem?_eq_none (by simpa using hi),
        List.getElem?_eq_none (by simpa [bytesOf] using hi)]
  rw [sizeWord, hread, bytesOf, Bytes.ofLE_le64 n.toNat_lt, UInt64.ofNat_toNat]

theorem get_bytesOf_zero {i : ℕ} {b : UInt8} (h : (bytesOf 0)[i]? = some b) : b = 0 := by
  have hz : bytesOf 0 = List.replicate 8 0 := rfl
  exact List.eq_of_mem_replicate (hz ▸ List.mem_of_getElem? h)

theorem sizeWord_zero {m : Mem} (h : ∀ i < 8, m i = 0) : sizeWord m = 0 := by
  refine sizeWord_eq ?_
  intro i b hb
  have hi := (List.getElem?_eq_some_iff.1 hb).1
  rw [h i (by simpa [bytesOf] using hi), get_bytesOf_zero hb]

/-- The size word is set back to zero. -/
theorem write_zero {m : Mem} {i : ℕ} (h : i < 8) : Mem.write id m 0 (bytesOf 0) i = 0 := by
  have hb := List.getElem?_eq_getElem (l := bytesOf 0) (i := i) (by simpa [bytesOf] using h)
  have hw : Mem.write id m 0 (bytesOf 0) (0 + i) = _ := Mem.write_id_of_get hb
  rwa [Nat.zero_add, get_bytesOf_zero hb] at hw

theorem write_zero_of_le {m : Mem} {i : ℕ} (h : 8 ≤ i) : Mem.write id m 0 (bytesOf 0) i = m i :=
  Mem.write_id_of_ne (Or.inr (by simpa [bytesOf] using h))

/-- The payload of a frame in a buffer. -/
theorem read_payload {m : Mem} {data : List UInt8}
    (h : ∀ (i : ℕ) b, (answerFrame data)[i]? = some b → m i = b) :
    Mem.read id m 8 data.length = data := by
  ext i : 1
  rcases Nat.lt_or_ge i data.length with hi | hi
  · have hb : (answerFrame data)[8 + i]? = some data[i] := by
      have hl : (bytesOf (lengthOf data)).length = 8 := Bytes.length_le64 _
      rw [answerFrame, List.append_assoc, List.getElem?_append_right (by omega), hl,
        Nat.add_sub_cancel_left, List.getElem?_append_left hi, List.getElem?_eq_getElem hi]
    rw [Mem.read_get hi, List.getElem?_eq_getElem hi]
    exact congrArg some (h _ _ hb)
  · rw [List.getElem?_eq_none (by simpa using hi), List.getElem?_eq_none hi]

theorem get_validity (data : List UInt8) :
    (answerFrame data)[8 + data.length]? = some validity := by
  have hl : (bytesOf (lengthOf data)).length = 8 := Bytes.length_le64 _
  rw [answerFrame, List.getElem?_append_right (by simp [hl]), List.length_append, hl, Nat.sub_self]
  rfl

theorem get_size {data : List UInt8} {i : ℕ} {b : UInt8}
    (h : (bytesOf (lengthOf data))[i]? = some b) : (answerFrame data)[i]? = some b := by
  have hi := (List.getElem?_eq_some_iff.1 h).1
  rw [answerFrame, List.append_assoc, List.getElem?_append_left hi, h]

/-! ## `receive` on its own -/

def Receiver.step (rereads : Bool) (r : Receiver) (_ : Unit) : Option Receiver :=
  receiveStep rereads r

/-- An iteration of the polling loop that sees a size and `validity` behind as many bytes
    returns them. -/
theorem Receiver.run_receive (rereads : Bool) {r : Receiver} {maxSize n : UInt64}
    (hpc : r.pc = .size maxSize) (hsize : sizeWord r.receiveBuffer = n) (hn : n ≠ 0)
    (hv : r.receiveBuffer (8 + n.toNat) = validity) (hmax : n ≤ maxSize) :
    run (Receiver.step rereads) r (List.replicate 4 ()) =
      some
        { receiveBuffer := Mem.write id r.receiveBuffer 0 (bytesOf 0), pc := .idle
          got := r.got ++ [Mem.read id r.receiveBuffer 8 n.toNat] } := by
  have hmax' : ¬ n > maxSize := UInt64.not_lt.2 hmax
  simp [List.replicate, run, Receiver.step, receiveStep, hpc, hsize, hn, hv, hmax']

namespace Answers

/-! ## What is right -/

/-- The client has returned only answers that were sent, in order and unchanged, and the
    last one only after all of it has arrived. -/
def Whole (s : State) : Prop :=
  s.client.got <+: s.sent ∧ (s.client.got.length = s.sent.length → s.flight = [])

/-- Once an answer has arrived, a call that admits it returns it in its next iteration. -/
def Returns (t : Transport) (s : State) : Prop :=
  ∀ data maxSize, s.flight = [] → s.sent = s.client.got ++ [data] → s.client.pc = .size maxSize →
    lengthOf data ≤ maxSize →
    ∃ s', run (step t) s [.client, .client, .client, .client] = some s' ∧
      s'.client.got = s.client.got ++ [data]

/-- No answer finds a `validity` byte of an earlier one in the place of its own, in a
    buffer that holds `m` before the first of them. -/
def NoStale : Mem → List (List UInt8) → Prop
  | _, [] => True
  | m, data :: answers =>
    m (8 + data.length) ≠ validity ∧ NoStale (Mem.write id m 0 (answerFrame data)) answers

theorem NoStale.congr {m m' : Mem} {answers : List (List UInt8)} (h : NoStale m answers)
    (hm : ∀ i, 8 ≤ i → m i = m' i) : NoStale m' answers := by
  induction answers generalizing m m' with
  | nil => trivial
  | cons data answers ih =>
    refine ⟨hm (8 + data.length) (by omega) ▸ h.1, ih h.2 ?_⟩
    intro i hi
    rcases Nat.lt_or_ge i (answerFrame data).length with hl | hl
    · have hb := List.getElem?_eq_getElem hl
      rw [← Nat.zero_add i, Mem.write_id_of_get hb, Mem.write_id_of_get hb]
    · rw [Mem.write_id_of_ne (Or.inr (by omega)), Mem.write_id_of_ne (Or.inr (by omega)), hm i hi]

/-! ## The invariant -/

def Sized (data : List UInt8) : Prop := 1 ≤ data.length ∧ data.length + 9 < 2 ^ 64

/-- The client has returned all that was sent. -/
structure Between (s : State) : Prop where
  sent : s.sent = s.client.got
  flight : s.flight = []
  size : ∀ i < 8, s.client.receiveBuffer i = 0
  stale : NoStale s.client.receiveBuffer s.todo
  pc : s.client.pc = .idle ∨ ∃ maxSize, s.client.pc = .size maxSize

/-- What the client knows of the answer `data` of which `k` bytes have arrived. -/
def PcOk (data : List UInt8) (k : ℕ) : RecvPc → Prop
  | .idle | .size _ => True
  | .check _ size => size = lengthOf data ∧ 8 ≤ k
  | .copy _ size => size = lengthOf data ∧ k = data.length + 9
  | .reset bytes => bytes = data ∧ k = data.length + 9

/-- The answer `data` is on its way or waits to be returned; before it the buffer held
    `m`. -/
structure During (m : Mem) (data : List UInt8) (s : State) : Prop where
  sent : s.sent = s.client.got ++ [data]
  sized : Sized data
  flight : s.flight = (answerFrame data).drop s.arrived
  arrived : s.arrived ≤ data.length + 9
  words : s.arrived = 0 ∨ 8 ≤ s.arrived
  size : ∀ i < 8, m i = 0
  new : ∀ (i : ℕ) b, (answerFrame data)[i]? = some b → i < s.arrived →
    s.client.receiveBuffer i = b
  old : ∀ i, s.arrived ≤ i → s.client.receiveBuffer i = m i
  fresh : m (8 + data.length) ≠ validity
  stale : NoStale (Mem.write id m 0 (answerFrame data)) s.todo
  pc : PcOk data s.arrived s.client.pc

def Inv (s : State) : Prop :=
  (Between s ∨ ∃ m data, During m data s) ∧ ∀ data ∈ s.todo, Sized data

section
variable {t : Transport} {s s' : State} {m : Mem} {data : List UInt8}

theorem toNat_lengthOf (h : Sized data) : (lengthOf data).toNat = data.length := by
  have := h.2
  rw [lengthOf, Pos.ofNat_toNat, Nat.mod_eq_of_lt (by omega)]

theorem lengthOf_ne_zero (h : Sized data) : lengthOf data ≠ 0 := by
  intro h0
  have hn : data.length = 0 := by rw [← toNat_lengthOf h, h0]; rfl
  have := h.1
  omega

theorem During.flight_nil (h : During m data s) : s.flight = [] ↔ s.arrived = data.length + 9 := by
  have := h.arrived
  rw [h.flight, List.drop_eq_nil_iff, length_answerFrame]; omega

theorem Inv.whole (h : Inv s) : Whole s := by
  rcases h.1 with h | ⟨m, data, h⟩
  · exact ⟨h.sent ▸ List.prefix_rfl, fun _ => h.flight⟩
  · refine ⟨h.sent ▸ List.prefix_append _ _, ?_⟩
    intro hlen
    rw [h.sent, List.length_append] at hlen
    simp at hlen

/-! ## The steps -/

theorem answer_inv (h : Inv s) (hs : step t s .answer = some s') : Inv s' := by
  simp only [step] at hs
  split at hs
  next => cases hs
  next data todo htodo =>
    split_ifs at hs with hone
    cases hs
    have hb : Between s := by
      rcases h.1 with hb | ⟨m, data', hd⟩
      · exact hb
      · have := hone.1
        rw [hd.sent, List.length_append] at this
        simp at this
    have hstale := hb.stale
    rw [htodo] at hstale
    have hall := h.2
    rw [htodo] at hall
    refine ⟨Or.inr ⟨s.client.receiveBuffer, data, ?_⟩, fun d hd => hall d (by simp [hd])⟩
    exact
      { sent := by rw [hb.sent]
        sized := hall data (by simp)
        flight := rfl
        arrived := Nat.zero_le _
        words := Or.inl rfl
        size := hb.size
        new := fun i b _ hi => absurd hi (Nat.not_lt_zero i)
        old := fun i _ => rfl
        fresh := hstale.1
        stale := hstale.2
        pc := by rcases hb.pc with hpc | ⟨maxSize, hpc⟩ <;> (dsimp only; rw [hpc]; trivial) }

theorem PcOk.mono {k k' : ℕ} {pc : RecvPc} (h : PcOk data k pc) (hk : k ≤ k')
    (hk' : k' ≤ data.length + 9) : PcOk data k' pc := by
  cases pc with
  | idle | size => trivial
  | check => exact ⟨h.1, h.2.trans hk⟩
  | copy | reset => exact ⟨h.1, by have := h.2; omega⟩

theorem During.land (h : During m data s) (words : ℕ) (hs : step t s (.land words) = some s') :
    During m data s' := by
  simp only [step] at hs
  cases hs
  have hk := h.arrived
  have hsized := h.sized.1
  have hlen : (s.flight.take (8 * words)).length =
      min (8 * words) (data.length + 9 - s.arrived) := by
    rw [List.length_take, h.flight, List.length_drop, length_answerFrame]
  have hbytes : ∀ (i : ℕ) b, (answerFrame data)[s.arrived + i]? = some b →
      i < (s.flight.take (8 * words)).length → (s.flight.take (8 * words))[i]? = some b := by
    intro i b hb hi
    rw [List.getElem?_take_of_lt (by omega), h.flight, List.getElem?_drop, hb]
  refine
    { h with
      flight := ?_, arrived := ?_, words := ?_, new := ?_, old := ?_,
      pc := h.pc.mono (Nat.le_add_right _ _) (by dsimp only; omega) }
  · dsimp only
    rw [h.flight, List.drop_drop, ← h.flight, hlen]
    rcases Nat.le_total (8 * words) (data.length + 9 - s.arrived) with hw | hw
    · rw [min_eq_left hw]
    · rw [min_eq_right hw, List.drop_eq_nil_of_le (by rw [length_answerFrame]; omega),
        List.drop_eq_nil_of_le (by rw [length_answerFrame]; omega)]
  · dsimp only; omega
  · dsimp only
    rcases h.words with h0 | h8 <;> omega
  · intro i b hb hi
    dsimp only at hi ⊢
    rcases Nat.lt_or_ge i s.arrived with hik | hik
    · rw [Mem.write_id_of_ne (Or.inl hik), h.new i b hb hik]
    · obtain ⟨j, rfl⟩ := Nat.exists_eq_add_of_le hik
      exact Mem.write_id_of_get (hbytes j b hb (by omega))
  · intro i hi
    dsimp only at hi ⊢
    rw [Mem.write_id_of_ne (Or.inr hi), h.old i (by omega)]

theorem land_inv (h : Inv s) {words : ℕ} (hs : step t s (.land words) = some s') : Inv s' := by
  have htodo : s'.todo = s.todo := by simp only [step] at hs; cases hs; rfl
  refine ⟨?_, htodo ▸ h.2⟩
  rcases h.1 with hb | ⟨m, data, hd⟩
  · left
    simp only [step, hb.flight, List.take_nil, List.drop_nil] at hs
    cases hs
    exact { hb with flight := rfl }
  · exact Or.inr ⟨m, data, hd.land words hs⟩

theorem receive_inv (h : Inv s) {maxSize : UInt64} (hs : step t s (.receive maxSize) = some s') :
    Inv s' := by
  simp only [step] at hs
  split at hs
  next =>
    cases hs
    refine ⟨?_, h.2⟩
    rcases h.1 with hb | ⟨m, data, hd⟩
    · exact Or.inl { hb with pc := Or.inr ⟨maxSize, rfl⟩ }
    · exact Or.inr ⟨m, data, { hd with pc := trivial }⟩
  next => cases hs

/-- The size that a client loads is zero before anything has arrived, else right. -/
theorem During.sizeWord (h : During m data s) :
    sizeWord s.client.receiveBuffer = if s.arrived = 0 then 0 else lengthOf data := by
  split_ifs with h0
  · exact sizeWord_zero fun i hi => by rw [h.old i (by omega), h.size i hi]
  · refine sizeWord_eq fun i b hb => h.new i b (get_size hb) ?_
    have hi := (List.getElem?_eq_some_iff.1 hb).1
    have hl : (bytesOf (lengthOf data)).length = 8 := Bytes.length_le64 _
    rcases h.words with hw | hw <;> omega

/-- `validity` is seen only when all has arrived. -/
theorem During.validity_iff (h : During m data s) :
    s.client.receiveBuffer (8 + data.length) = validity ↔ s.arrived = data.length + 9 := by
  have hk := h.arrived
  refine ⟨?_, fun hall => h.new _ _ (get_validity data) (by omega)⟩
  intro hv
  by_contra hlt
  exact h.fresh (h.old (8 + data.length) (by omega) ▸ hv)

/-- **A step of `receive`** while `k` bytes of `data` are there moves on or returns `data`,
    the latter only if it is all there. -/
theorem receiveStep_spec {r r' : Receiver} {k : ℕ} (hd : Sized data)
    (hsize : Multiclient.sizeWord r.receiveBuffer = if k = 0 then 0 else lengthOf data)
    (hwords : k = 0 ∨ 8 ≤ k)
    (hvalid : r.receiveBuffer (8 + data.length) = validity → k = data.length + 9)
    (hread : k = data.length + 9 → Mem.read id r.receiveBuffer 8 data.length = data)
    (hpc : PcOk data k r.pc) (hs : receiveStep t.rereads r = some r') :
    (∃ pc, r' = { r with pc := pc } ∧ PcOk data k pc) ∨
      (k = data.length + 9 ∧
        r' = { receiveBuffer := Mem.write id r.receiveBuffer 0 (bytesOf 0), pc := .idle
               got := r.got ++ [data] }) := by
  have hlen := toNat_lengthOf hd
  unfold receiveStep at hs
  cases hrpc : r.pc with
  | idle => rw [hrpc] at hs; cases hs
  | size maxSize =>
    simp only [hrpc, hsize] at hs
    left
    by_cases h0 : k = 0
    · simp only [if_pos h0, if_true] at hs
      cases hs
      exact ⟨r.pc, rfl, hpc⟩
    · rw [if_neg h0, if_neg (lengthOf_ne_zero hd)] at hs
      cases hs
      exact ⟨_, rfl, rfl, hwords.resolve_left h0⟩
  | check maxSize size =>
    rw [hrpc] at hpc
    obtain ⟨rfl, h8⟩ := hpc
    simp only [hrpc, hlen] at hs
    left
    split_ifs at hs with hv hr
    · cases hs; exact ⟨_, rfl, rfl, hvalid hv⟩
    · cases hs; exact ⟨_, rfl, trivial⟩
    · cases hs; exact ⟨r.pc, rfl, by rw [hrpc]; exact ⟨rfl, h8⟩⟩
  | copy maxSize size =>
    rw [hrpc] at hpc
    obtain ⟨rfl, hall⟩ := hpc
    simp only [hrpc, hlen, hread hall] at hs
    left
    split_ifs at hs
    · cases hs; exact ⟨_, rfl, trivial⟩
    · cases hs; exact ⟨_, rfl, rfl, hall⟩
  | reset bytes =>
    rw [hrpc] at hpc
    obtain ⟨rfl, hall⟩ := hpc
    simp only [hrpc] at hs
    cases hs
    exact Or.inr ⟨hall, rfl⟩

/-- A step of `receive` while an answer is on its way. -/
theorem During.client (h : During m data s) {client : Receiver}
    (hs : receiveStep t.rereads s.client = some client) (htodo : ∀ d ∈ s.todo, Sized d) :
    Inv { s with client := client } := by
  refine ⟨?_, htodo⟩
  have hread : s.arrived = data.length + 9 →
      Mem.read id s.client.receiveBuffer 8 data.length = data := by
    intro hall
    refine read_payload fun i b hb => h.new i b hb ?_
    have hi := (List.getElem?_eq_some_iff.1 hb).1
    rw [length_answerFrame] at hi
    omega
  rcases receiveStep_spec h.sized h.sizeWord h.words h.validity_iff.1 hread h.pc hs with
    ⟨pc, rfl, hpc⟩ | ⟨hall, rfl⟩
  · exact Or.inr ⟨m, data, { h with pc := hpc }⟩
  · -- the client has returned the answer
    refine Or.inl
      { sent := h.sent
        flight := h.flight_nil.2 hall
        size := fun i hi => write_zero hi
        stale := h.stale.congr ?_
        pc := Or.inl rfl }
    intro i hi
    dsimp only
    rw [write_zero_of_le hi]
    rcases Nat.lt_or_ge i (answerFrame data).length with hi' | hi'
    · have hb := List.getElem?_eq_getElem hi'
      rw [length_answerFrame] at hi'
      have hf : Mem.write id m 0 (answerFrame data) (0 + i) = _ := Mem.write_id_of_get hb
      rw [Nat.zero_add] at hf
      rw [hf, h.new i _ hb (by omega)]
    · rw [Mem.write_id_of_ne (Or.inr (by omega))]
      rw [length_answerFrame] at hi'
      exact (h.old i (by omega)).symm

theorem client_inv (h : Inv s) (hs : step t s .client = some s') : Inv s' := by
  simp only [step, t.receiveStep_eq, Option.map_eq_some_iff] at hs
  obtain ⟨client, hs, rfl⟩ := hs
  rcases h.1 with hb | ⟨m, data, hd⟩
  · -- nothing to return
    rcases hb.pc with hpc | ⟨maxSize, hpc⟩
    · simp [receiveStep, hpc] at hs
    · simp only [receiveStep, hpc, sizeWord_zero hb.size, if_true] at hs
      cases hs
      exact h
  · exact hd.client hs h.2

theorem step_inv {a : Act} (h : Inv s) (hs : step t s a = some s') : Inv s' := by
  cases a with
  | answer => exact answer_inv h hs
  | land words => exact land_inv h hs
  | receive maxSize => exact receive_inv h hs
  | client => exact client_inv h hs

/-! ## A call that sees a whole answer -/

theorem run_receive {maxSize n : UInt64} (hpc : s.client.pc = .size maxSize)
    (hsize : sizeWord s.client.receiveBuffer = n) (hn : n ≠ 0)
    (hv : s.client.receiveBuffer (8 + n.toNat) = validity) (hmax : n ≤ maxSize) :
    run (step t) s [.client, .client, .client, .client] =
      some { s with
        client :=
          { receiveBuffer := Mem.write id s.client.receiveBuffer 0 (bytesOf 0), pc := .idle
            got := s.client.got ++ [Mem.read id s.client.receiveBuffer 8 n.toNat] } } := by
  refine run_lift (fun client => { s with client := client }) (fun r r' hs => ?_)
    (Receiver.run_receive t.rereads hpc hsize hn hv hmax)
  have hs : receiveStep t.rereads r = some r' := hs
  simp only [step, t.receiveStep_eq, hs, Option.map_some]

theorem Inv.returns (h : Inv s) : Returns t s := by
  intro data maxSize hflight hsent hpc hmax
  rcases h.1 with hb | ⟨m, data', hd⟩
  · rw [hb.sent] at hsent
    simp at hsent
  · obtain rfl : data' = data := by
      have := hd.sent.symm.trans hsent
      simpa using this
    have hall := hd.flight_nil.1 hflight
    have hsize := hd.sizeWord
    rw [if_neg (by omega)] at hsize
    have hlen := toNat_lengthOf hd.sized
    have hv := hd.validity_iff.2 hall
    rw [← hlen] at hv
    refine ⟨_, run_receive hpc hsize (lengthOf_ne_zero hd.sized) hv hmax, ?_⟩
    dsimp only
    rw [hlen, read_payload fun i b hb => hd.new i b hb ?_]
    have hi := (List.getElem?_eq_some_iff.1 hb).1
    rwa [length_answerFrame, ← hall] at hi

/-! ## A stale byte is believed -/

/-- A client that waits for the next answer. -/
structure Ready (s : State) : Prop where
  sent : s.sent = s.client.got
  flight : s.flight = []
  size : ∀ i < 8, s.client.receiveBuffer i = 0
  pc : s.client.pc = .idle

/-- The server has sent `data`, the client has called `receive`, and `words` words have
    arrived. -/
def polling (s : State) (data : List UInt8) (todo : List (List UInt8)) (words : ℕ) : State :=
  let bytes := (answerFrame data).take (8 * words)
  { client :=
      { s.client with
        receiveBuffer := Mem.write id s.client.receiveBuffer 0 bytes
        pc := .size (UInt64.ofNat (2 ^ 64 - 1)) }
    todo := todo
    sent := s.sent ++ [data]
    arrived := bytes.length
    flight := (answerFrame data).drop (8 * words) }

theorem run_polling (h : Ready s) {todo : List (List UInt8)} (htodo : s.todo = data :: todo)
    (words : ℕ) :
    run (step t) s [.answer, .receive (UInt64.ofNat (2 ^ 64 - 1)), .land words] =
      some (polling s data todo words) := by
  simp [run, step, htodo, h.sent, h.flight, h.pc, polling]

/-- A client that polls and finds `validity` in its place returns. -/
theorem run_polling_receive (hd : Sized data) (todo : List (List UInt8)) {words : ℕ}
    (hw : 1 ≤ words)
    (hv : (polling s data todo words).client.receiveBuffer (8 + data.length) = validity) :
    run (step t) (polling s data todo words) [.client, .client, .client, .client] =
      some { polling s data todo words with
        client :=
          { receiveBuffer :=
              Mem.write id (polling s data todo words).client.receiveBuffer 0 (bytesOf 0)
            pc := .idle
            got := s.client.got ++
              [Mem.read id (polling s data todo words).client.receiveBuffer 8 data.length] } } := by
  have hlen := toNat_lengthOf hd
  have hsize : Multiclient.sizeWord (polling s data todo words).client.receiveBuffer =
      lengthOf data := by
    refine sizeWord_eq ?_
    intro i b hb
    have hi := (List.getElem?_eq_some_iff.1 hb).1
    have hl : (bytesOf (lengthOf data)).length = 8 := Bytes.length_le64 _
    have hget : ((answerFrame data).take (8 * words))[i]? = some b := by
      rw [List.getElem?_take_of_lt (by omega), get_size hb]
    have hwrite : Mem.write id s.client.receiveBuffer 0 _ (0 + i) = b := Mem.write_id_of_get hget
    rwa [Nat.zero_add] at hwrite
  rw [← hlen] at hv ⊢
  refine run_receive rfl hsize (lengthOf_ne_zero hd) hv ?_
  rw [UInt64.le_iff_toNat_le, UInt64.toNat_ofNat']
  have := (lengthOf data).toNat_lt
  omega

/-- One word of the answer, and a stale byte in the place of its `validity`. -/
theorem exists_partial_head (h : Ready s) {todo : List (List UInt8)} (htodo : s.todo = data :: todo)
    (hd : Sized data) (hv : s.client.receiveBuffer (8 + data.length) = validity) :
    ∃ acts s', run (step t) s acts = some s' ∧ ¬ Whole s' := by
  have hv' : (polling s data todo 1).client.receiveBuffer (8 + data.length) = validity := by
    have hw : Mem.write id s.client.receiveBuffer 0 ((answerFrame data).take 8)
        (8 + data.length) = s.client.receiveBuffer (8 + data.length) :=
      Mem.write_id_of_ne (Or.inr (by rw [List.length_take]; omega))
    exact hw.trans hv
  have hr := run_polling_receive (t := t) hd todo le_rfl hv'
  refine ⟨_, _, (run_append (run_polling h htodo 1) _).trans hr, ?_⟩
  intro hwhole
  have hnil := hwhole.2 (by simp [polling, h.sent])
  simp only [polling, List.drop_eq_nil_iff, length_answerFrame] at hnil
  have := hd.1
  omega

/-- The answer arrives whole and is returned. -/
theorem run_whole (h : Ready s) {todo : List (List UInt8)} (htodo : s.todo = data :: todo)
    (hd : Sized data) :
    ∃ acts s', run (step t) s acts = some s' ∧ Ready s' ∧ s'.todo = todo ∧
      ∀ i, 8 ≤ i → Mem.write id s.client.receiveBuffer 0 (answerFrame data) i =
        s'.client.receiveBuffer i := by
  have hall : (answerFrame data).take (8 * (data.length + 9)) = answerFrame data :=
    List.take_of_length_le (by rw [length_answerFrame]; omega)
  have hbuf : ∀ (i : ℕ) b, (answerFrame data)[i]? = some b →
      (polling s data todo (data.length + 9)).client.receiveBuffer i = b := by
    intro i b hb
    have hw : Mem.write id s.client.receiveBuffer 0 (answerFrame data) (0 + i) = b :=
      Mem.write_id_of_get hb
    rw [Nat.zero_add] at hw
    simpa only [polling, hall] using hw
  have hr := run_polling_receive (t := t) hd todo (by omega) (hbuf _ _ (get_validity data))
  rw [read_payload hbuf] at hr
  refine ⟨_, _, (run_append (run_polling h htodo _) _).trans hr, ⟨?_, ?_, ?_, rfl⟩, rfl, ?_⟩
  · simp [polling, h.sent]
  · exact List.drop_eq_nil_of_le (by rw [length_answerFrame]; omega)
  · intro i hi
    exact write_zero hi
  · intro i hi
    dsimp only
    rw [write_zero_of_le hi, polling, hall]

/-- Some schedule returns an answer too early. -/
theorem exists_partial (h : Ready s) (hsized : ∀ d ∈ s.todo, Sized d)
    (hstale : ¬ NoStale s.client.receiveBuffer s.todo) :
    ∃ acts s', run (step t) s acts = some s' ∧ ¬ Whole s' := by
  induction htodo : s.todo generalizing s with
  | nil => rw [htodo] at hstale; exact absurd trivial hstale
  | cons data todo ih =>
    rw [htodo] at hstale hsized
    by_cases hv : s.client.receiveBuffer (8 + data.length) = validity
    · exact exists_partial_head h htodo (hsized data (by simp)) hv
    · obtain ⟨acts, s₁, hr, hs₁, htodo₁, hm⟩ := run_whole (t := t) h htodo (hsized data (by simp))
      obtain ⟨acts', s', hr', hs'⟩ := ih hs₁ (fun d hd => hsized d (by simp [htodo₁ ▸ hd]))
        (fun hno => hstale ⟨hv, (htodo₁ ▸ hno).congr fun i hi => (hm i hi).symm⟩) htodo₁
      exact ⟨acts ++ acts', s', (run_append hr acts').trans hr', hs'⟩

end

/-! ## The claim -/

theorem init_inv {answers : List (List UInt8)} (hsized : ∀ d ∈ answers, Sized d)
    (h : NoStale (fun _ => 0) answers) : Inv (init answers) :=
  ⟨Or.inl ⟨rfl, rfl, fun _ _ => rfl, h, Or.inl rfl⟩, hsized⟩

/-- **Answers are returned whole and unchanged in every schedule** iff none of them finds
    a `validity` byte of an earlier one in the place of its own. -/
theorem whole_iff (t : Transport) (answers : List (List UInt8))
    (h : ∀ data ∈ answers, 1 ≤ data.length ∧ data.length + 9 ≤ t.maxMessageSize.toNat) :
    (∀ acts, AllStates (step t) (fun s => Whole s ∧ Returns t s) (init answers) acts) ↔
      NoStale (fun _ => 0) answers := by
  have hsized : ∀ data ∈ answers, Sized data := fun data hd =>
    ⟨(h data hd).1, (h data hd).2.trans_lt t.maxMessageSize.toNat_lt⟩
  constructor
  · intro hall
    by_contra hstale
    have hready : Ready (init answers) := ⟨rfl, rfl, fun _ _ => rfl, rfl⟩
    obtain ⟨acts, s, hr, hs⟩ := exists_partial (t := t) hready hsized hstale
    exact hs ((hall acts).last hr).1
  · intro hno acts
    exact allStates_of_inv (I := Inv) (fun s hi => ⟨hi.whole, hi.returns⟩)
      (fun s a s' hi hs => step_inv hi hs) acts (init_inv hsized hno)

/-- An answer of two bytes, and one whose `validity` falls on the second of them. -/
theorem whole_shorter : NoStale (fun _ => 0) [[1, 2], [3]] ∧
    ∀ acts, AllStates (step .doorbell) (fun s => Whole s ∧ Returns .doorbell s)
      (init [[1, 2], [3]]) acts := by
  have hno : NoStale (fun _ => 0) [[1, 2], [3]] := ⟨by decide, by decide, trivial⟩
  exact ⟨hno, (whole_iff .doorbell [[1, 2], [3]] (by decide)).2 hno⟩

/-- Of two answers of one byte, the second is returned when its size has arrived, with the
    byte of the first. -/
theorem sameSize_returned_early :
    ¬ ∀ acts, AllStates (step .doorbell) (fun s => Whole s ∧ Returns .doorbell s)
      (init [[1], [2]]) acts := by
  intro hall
  let acts : List Act :=
    [.answer, .land 2, .receive 8, .client, .client, .client, .client,
      .answer, .land 1, .receive 8, .client, .client, .client, .client]
  have hgot : (run (step .doorbell) (init [[1], [2]]) acts).map (fun s => s.client.got) =
      some [[1], [1]] := by decide +kernel
  have hsent : (run (step .doorbell) (init [[1], [2]]) acts).map (fun s => s.sent) =
      some [[1], [2]] := by decide +kernel
  obtain ⟨s, hs, hg⟩ := Option.map_eq_some_iff.1 hgot
  rw [hs] at hsent
  have hw := ((hall acts).last hs).1.1
  obtain hsent : s.sent = [[1], [2]] := Option.some.inj hsent
  rw [hg, hsent] at hw
  revert hw
  decide

end Answers

end Multiclient

end L5RDMA
