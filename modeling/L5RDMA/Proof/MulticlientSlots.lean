/-
  Which memory the clients of the multi-client servers can reach.

  * `slots_iff`: the slots are disjoint and inside the registered region iff no
    more than `MAX_CLIENTS` connections are ever made, which `accept` does not
    check;
  * `fits_iff`: a message that passes the check of the client's `send` stays in
    its slot, but for the Recv transport, whose client has another
    `MAX_MESSAGESIZE` than its server.  The checks are those that the models of
    `send` make (`clientSend_pc`, `send_pc`).
-/
import L5RDMA.MulticlientSlots

namespace L5RDMA

namespace Multiclient

open Run
open Pos (lengthOf)

/-! ## Slots -/

/-- The memory two clients are given does not overlap. -/
def Handed.Apart (slotSize : ℕ) (a b : Handed) : Prop :=
  (a.receiveAddr.toNat + slotSize ≤ b.receiveAddr.toNat ∨
    b.receiveAddr.toNat + slotSize ≤ a.receiveAddr.toNat) ∧
  ∀ x ∈ a.doorBellAddr, ∀ y ∈ b.doorBellAddr, x ≠ y

/-- It lies in the regions for `maxClients` clients. -/
def Handed.Inside (slotSize maxClients : ℕ) (a : Handed) : Prop :=
  a.receiveAddr.toNat + slotSize ≤ slotSize * maxClients ∧
    ∀ x ∈ a.doorBellAddr, x.toNat < maxClients

structure SlotsOk (t : Transport) (srv : Acceptor) : Prop where
  disjoint : srv.connections.Pairwise (Handed.Apart t.slotSize.toNat)
  inside : ∀ a ∈ srv.connections, a.Inside t.slotSize.toNat srv.maxClients.toNat

namespace Transport

/-- Whether a call of `accept` leaves a connection behind. -/
def keeps (t : Transport) : Outcome → Bool
  | .noConnection => false
  | .noExchange =>
    match t with
    | doorbell => false
    | recv | distinctMr => true
  | .accepted => true

/-- A new connection finds a slot. -/
def Room (t : Transport) (srv : Acceptor) (outcome : Outcome) : Prop :=
  t.keeps outcome = true → srv.connections.length < srv.maxClients.toNat

instance (t : Transport) (srv : Acceptor) (outcome : Outcome) : Decidable (t.Room srv outcome) :=
  inferInstanceAs (Decidable (_ → _))

/-- The memory of the client of connection number `clientId`. -/
def slot (t : Transport) (clientId : ℕ) : Handed where
  receiveAddr := t.receiveAddr clientId
  doorBellAddr :=
    match t with
    | doorbell => some (UInt64.ofNat clientId)
    | recv | distinctMr => none

end Transport

/-- The connections have the slots in order. -/
structure AcceptInv (t : Transport) (srv : Acceptor) : Prop where
  connections : srv.connections = (List.range srv.connections.length).map t.slot
  count : srv.connections.length ≤ srv.maxClients.toNat
  region : t.slotSize.toNat * srv.maxClients.toNat < 2 ^ 63

section
variable {t : Transport} {srv srv' : Acceptor} {outcome : Outcome}

/-- What `accept` does. -/
theorem Transport.accept_eq (t : Transport) (srv : Acceptor) (outcome : Outcome) :
    t.accept srv outcome =
      if t.keeps outcome = true then
        { srv with connections := srv.connections ++ [t.slot srv.connections.length] }
      else srv := by
  cases t <;> cases outcome <;> rfl

theorem slotSize_pos (t : Transport) : 0 < t.slotSize.toNat := by cases t <;> decide

theorem receiveAddr_toNat {maxClients i : ℕ} (h : t.slotSize.toNat * maxClients < 2 ^ 63)
    (hi : i ≤ maxClients) : (t.receiveAddr i).toNat = t.slotSize.toNat * i := by
  have hle : t.slotSize.toNat * i ≤ t.slotSize.toNat * maxClients := Nat.mul_le_mul_left _ hi
  have hi' : i ≤ t.slotSize.toNat * i := Nat.le_mul_of_pos_left i (slotSize_pos t)
  rw [Transport.receiveAddr, UInt64.toNat_mul, Pos.ofNat_toNat,
    Nat.mod_eq_of_lt (a := i) (by omega), Nat.mod_eq_of_lt (by omega)]

theorem AcceptInv.slotsOk (h : AcceptInv t srv) : SlotsOk t srv := by
  have hregion := h.region
  have hcount := h.count
  have hfit : srv.maxClients.toNat < 2 ^ 64 := srv.maxClients.toNat_lt
  have hbell : ∀ i < srv.maxClients.toNat, ∀ x ∈ (t.slot i).doorBellAddr, x.toNat = i := by
    intro i hi x hx
    cases t with
    | doorbell =>
      cases hx
      rw [Pos.ofNat_toNat, Nat.mod_eq_of_lt (by omega)]
    | recv | distinctMr => cases hx
  constructor
  · rw [h.connections, List.pairwise_map]
    refine (List.pairwise_lt_range).imp_of_mem ?_
    intro i j hi hj hij
    rw [List.mem_range] at hi hj
    constructor
    · left
      have hmul : t.slotSize.toNat * (i + 1) ≤ t.slotSize.toNat * j := Nat.mul_le_mul_left _ hij
      rw [Nat.mul_succ] at hmul
      show (t.receiveAddr i).toNat + _ ≤ (t.receiveAddr j).toNat
      rw [receiveAddr_toNat hregion (by omega), receiveAddr_toNat hregion (by omega)]
      exact hmul
    · rintro x hx y hy rfl
      have := hbell i (by omega) x hx
      have := hbell j (by omega) x hy
      omega
  · intro a ha
    rw [h.connections, List.mem_map] at ha
    obtain ⟨i, hi, rfl⟩ := ha
    rw [List.mem_range] at hi
    constructor
    · have hmul : t.slotSize.toNat * (i + 1) ≤ t.slotSize.toNat * srv.maxClients.toNat :=
        Nat.mul_le_mul_left _ (by omega)
      rw [Nat.mul_succ] at hmul
      show (t.receiveAddr i).toNat + _ ≤ _
      rw [receiveAddr_toNat hregion (by omega)]
      exact hmul
    · intro x hx
      rw [hbell i (by omega) x hx]; omega

theorem accept_inv (h : AcceptInv t srv) (hroom : t.Room srv outcome) :
    AcceptInv t (t.accept srv outcome) := by
  rw [Transport.accept_eq]
  by_cases hk : t.keeps outcome = true
  · rw [if_pos hk]
    have hlt := hroom hk
    refine ⟨?_, ?_, h.region⟩
    · rw [List.length_append, List.length_singleton, List.range_succ, List.map_append,
        ← h.connections]
      rfl
    · rw [List.length_append, List.length_singleton]; exact hlt
  · rw [if_neg hk]; exact h

/-- A connection too many gets a slot behind the region. -/
theorem accept_outside (h : AcceptInv t srv) (hroom : ¬ t.Room srv outcome) :
    ¬ SlotsOk t (t.accept srv outcome) := by
  rw [Transport.Room, Classical.not_imp, Nat.not_lt] at hroom
  obtain ⟨hk, hfull⟩ := hroom
  have hlen : srv.connections.length = srv.maxClients.toNat := le_antisymm h.count hfull
  intro hok
  rw [Transport.accept_eq, if_pos hk] at hok
  have hin := (hok.inside (t.slot srv.connections.length) (by simp)).1
  have haddr : (t.slot srv.connections.length).receiveAddr.toNat = _ :=
    receiveAddr_toNat h.region hlen.le
  rw [haddr, hlen] at hin
  have := slotSize_pos t
  dsimp only at hin
  omega

end

def seventeenAccepts : List Outcome := List.replicate 17 .accepted

/-- The seventeenth client of a server for 16 is sent behind the region. -/
theorem not_seventeenAccepts (t : Transport) :
    t.create 16 = some ⟨16, []⟩ ∧
      ¬ AllStates t.acceptStep (SlotsOk t) ⟨16, []⟩ seventeenAccepts := by
  have hrun : ∀ t : Transport, run t.acceptStep ⟨16, []⟩ seventeenAccepts =
      some ⟨16, (List.range 17).map t.slot⟩ := by
    intro t
    cases t <;> rfl
  constructor
  · cases t <;> rfl
  · intro h
    have hlast : t.slot 16 ∈ (List.range 17).map t.slot :=
      List.mem_map_of_mem (List.mem_range.2 (by decide))
    have hin := ((h.last (hrun t)).inside (t.slot 16) hlast).1
    have haddr : (t.slot 16).receiveAddr.toNat = t.slotSize.toNat * 16 := by cases t <;> rfl
    have hpos := slotSize_pos t
    rw [haddr] at hin
    exact absurd hin (Nat.not_le.2 (Nat.lt_add_of_pos_right hpos))

/-- What client `clientId` writes for a message of `size` bytes stays in its slot, and
    leaves the other slots as they are. -/
structure Contained (t : Transport) (clientId : ℕ) (size : UInt64) : Prop where
  inside : t.slotSize.toNat * clientId + (8 + size.toNat) ≤ t.slotSize.toNat * (clientId + 1)
  others : ∀ (m : Mem) (bs : List UInt8), bs.length = 8 + size.toNat →
    ∀ c j, c ≠ clientId → j < t.slotSize.toNat →
      Mem.write id m (t.slotSize.toNat * clientId) bs (t.slotSize.toNat * c + j) =
        m (t.slotSize.toNat * c + j)

/-- Messages and answers fit the memory they are written to, if they pass the checks. -/
def Fits (t : Transport) (clientId : ℕ) (size answerSize : UInt64) : Prop :=
  (t.dataWrSize size ≠ none → Contained t clientId size) ∧
    (t.totalLength answerSize ≠ none → 8 + answerSize.toNat + 1 ≤ t.clientMaxMessageSize.toNat)

/-- The sum in a check does not wrap around, and a message to a Recv server that its client
    lets pass fits the server's slot. -/
def SizesAgree (t : Transport) (size answerSize : UInt64) : Prop :=
  8 + size.toNat < 2 ^ 64 ∧ 8 + answerSize.toNat + 1 < 2 ^ 64 ∧
    (t = .recv → 8 + size.toNat ≤ 256 * 1024 ∨ 256 * 1024 * 1024 < 8 + size.toNat)

/-- The clients make this check. -/
theorem clientSend_pc (t : Transport) (cl : Client) (data : List UInt8) :
    (t.clientSend cl data).pc =
      match t.dataWrSize (lengthOf data) with
      | none => cl.pc
      | some dataWrSize => .post dataWrSize := by
  have hcheck : t.dataWrSize (lengthOf data) =
      if lengthOf data + 8 > t.clientMaxMessageSize then none else some (lengthOf data + 8) := rfl
  rw [hcheck]
  by_cases hle : lengthOf data + 8 > t.clientMaxMessageSize
  · rw [if_pos hle]
    cases t <;> exact congrArg Client.pc (if_pos hle)
  · rw [if_neg hle]
    cases t <;> exact congrArg Client.pc (if_neg hle)

/-- The servers make this check, for a client they know. -/
theorem send_pc (t : Transport) (srv : Server) {receiverId : ℕ} (h : receiverId < srv.count)
    (data : List UInt8) : (t.send srv receiverId data).map (fun srv' => srv'.pc) =
      match t.totalLength (lengthOf data) with
      | none => some srv.pc
      | some totalLength => some (.post receiverId totalLength (answerFrame data)) := by
  have hcheck : t.totalLength (lengthOf data) =
      if lengthOf data + 8 + 1 > t.maxMessageSize then none else some (lengthOf data + 8 + 1) := rfl
  have hknown : ¬ receiverId > srv.count := by omega
  have hknown' : ¬ receiverId = srv.count := by omega
  rw [hcheck, Transport.send_eq]
  unfold sendTo
  by_cases hle : lengthOf data + 8 + 1 > t.maxMessageSize
  · simp only [if_pos hle]; rfl
  · simp only [if_neg hle, if_neg hknown, if_neg hknown']; rfl

theorem contained_of_le {t : Transport} {clientId : ℕ} {size : UInt64}
    (h : 8 + size.toNat ≤ t.slotSize.toNat) : Contained t clientId size := by
  constructor
  · rw [Nat.mul_succ]; omega
  · intro m bs hbs c j hc hj
    refine Mem.write_id_of_ne ?_
    rcases Nat.lt_or_gt_of_ne hc with hlt | hgt
    · left
      have hmul : t.slotSize.toNat * (c + 1) ≤ t.slotSize.toNat * clientId :=
        Nat.mul_le_mul_left _ hlt
      rw [Nat.mul_succ] at hmul
      omega
    · right
      have hmul : t.slotSize.toNat * (clientId + 1) ≤ t.slotSize.toNat * c :=
        Nat.mul_le_mul_left _ hgt
      rw [Nat.mul_succ] at hmul
      omega

theorem dataWrSize_ne_none {t : Transport} {size : UInt64} :
    t.dataWrSize size ≠ none ↔ (8 + size.toNat) % 2 ^ 64 ≤ 256 * 1024 * 1024 := by
  have hmax : t.clientMaxMessageSize.toNat = 256 * 1024 * 1024 := by cases t <;> rfl
  have hsum : (size + 8).toNat = (size.toNat + 8) % 2 ^ 64 := UInt64.toNat_add size 8
  unfold Transport.dataWrSize
  dsimp only
  rw [add_comm 8, ← hmax, ← hsum, ← UInt64.le_iff_toNat_le, ← UInt64.not_lt]
  split_ifs with h <;> simpa using h

theorem totalLength_ne_none {t : Transport} {size : UInt64} :
    t.totalLength size ≠ none ↔ (8 + size.toNat + 1) % 2 ^ 64 ≤ t.slotSize.toNat := by
  have hsum : (size + 8).toNat = (size.toNat + 8) % 2 ^ 64 := UInt64.toNat_add size 8
  have hsum' : (size + 8 + 1).toNat = ((size + 8).toNat + 1) % 2 ^ 64 := UInt64.toNat_add _ 1
  rw [hsum, Nat.mod_add_mod] at hsum'
  unfold Transport.totalLength Transport.slotSize
  dsimp only
  rw [add_comm 8, ← hsum', ← UInt64.le_iff_toNat_le, ← UInt64.not_lt]
  split_ifs with h <;> simpa using h

/-- **Messages** of exactly these sizes fit their slots, and answers the client's buffer. -/
theorem fits_iff (t : Transport) (clientId : ℕ) (size answerSize : UInt64) :
    Fits t clientId size answerSize ↔ SizesAgree t size answerSize := by
  have hmax : t.clientMaxMessageSize.toNat = 256 * 1024 * 1024 := by cases t <;> rfl
  have hslot : t = .recv ∧ t.slotSize.toNat = 256 * 1024 ∨
      t ≠ .recv ∧ t.slotSize.toNat = 256 * 1024 * 1024 := by
    cases t with
    | recv => left; exact ⟨rfl, rfl⟩
    | doorbell | distinctMr => right; exact ⟨by simp, rfl⟩
  have hsize := size.toNat_lt
  have hanswer := answerSize.toNat_lt
  rw [Fits, SizesAgree, dataWrSize_ne_none, totalLength_ne_none, hmax]
  constructor
  · rintro ⟨hm, ha⟩
    have hin : (8 + size.toNat) % 2 ^ 64 ≤ 256 * 1024 * 1024 →
        8 + size.toNat ≤ t.slotSize.toNat := by
      intro h
      have := (hm h).inside
      rw [Nat.mul_succ] at this
      omega
    rcases hslot with ⟨-, hs⟩ | ⟨ht, hs⟩
    · omega
    · exact ⟨by omega, by omega, fun ht' => absurd ht' ht⟩
  · rintro ⟨hm, ha, hrecv⟩
    rcases hslot with ⟨ht, hs⟩ | ⟨-, hs⟩
    · have := hrecv ht
      exact ⟨fun h => contained_of_le (by omega), fun h => by omega⟩
    · exact ⟨fun h => contained_of_le (by omega), fun h => by omega⟩

/-- A message of one byte more than the server's slot has room for. -/
theorem fits_oneTooLong : ¬ Fits .recv 0 (256 * 1024 - 7) 0 := by
  intro h
  have hin := (h.1 (by decide)).inside
  exact absurd hin (by decide)

end Multiclient

end L5RDMA
