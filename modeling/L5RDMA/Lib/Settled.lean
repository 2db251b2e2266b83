/-
  What a ring holds once all posted writes have landed.

  `Conn.settled` executes the writes of the send queue in post order.  The card
  does not change it, whether the bytes of a write arrive front to back
  (`Conn.land_settled`) or in any order (`Placement.Partly.land`), and in the end
  it is what the ring holds (`Conn.Landed.settled`).
-/
import L5RDMA.Lib.Placement

namespace Verbs

/-- The ring after the requests `sq`, whose local memory is `m`. -/
def settle (phys : ℕ → ℕ) (m : Mem) : Mem → List Request → Mem
  | ring, [] => ring
  | ring, .write w :: sq =>
    settle phys m (Mem.write phys ring w.remoteOff (w.bytes phys m w.length)) sq
  | ring, .read _ :: sq => settle phys m ring sq

theorem settle_append (phys : ℕ → ℕ) (m ring : Mem) (sq sq' : List Request) :
    settle phys m ring (sq ++ sq') = settle phys m (settle phys m ring sq) sq' := by
  induction sq generalizing ring with
  | nil => rfl
  | cons r sq ih =>
    cases r with
    | write w => exact ih _
    | read id => exact ih _

/-- The bytes of a write, and of what remains of it. -/
theorem Write.bytes_drop (phys : ℕ → ℕ) (m : Mem) (w : Write) {k : ℕ} (hk : k ≤ w.length) :
    w.bytes phys m k ++ (w.drop k).bytes phys m (w.drop k).length = w.bytes phys m w.length := by
  have hlen : w.length = k + (w.drop k).length := (Nat.add_sub_cancel' hk).symm
  rw [hlen, bytes, bytes, bytes, List.range_add, List.map_append, List.map_map]
  congr 2
  exact funext fun i => w.byte_drop phys m k i

end Verbs

namespace Channel

open Verbs

def Conn.settled (phys : ℕ → ℕ) (c : Conn) : Mem := settle phys c.sendBuf c.receiveBuf c.sq

/-- All posted writes have landed. -/
def Conn.Landed (c : Conn) : Prop := ∀ w, .write w ∈ c.sq → w.length = 0

section
variable {phys : ℕ → ℕ} {c c' : Conn}

theorem settle_landed {sq : List Request} (h : ∀ w, .write w ∈ sq → w.length = 0) (m ring : Mem) :
    settle phys m ring sq = ring := by
  induction sq with
  | nil => rfl
  | cons r sq ih =>
    have htail : settle phys m ring sq = ring := ih fun w hw => h w (List.mem_cons_of_mem _ hw)
    cases r with
    | read id => exact htail
    | write w =>
      rw [settle, h w List.mem_cons_self]
      exact htail

theorem Conn.Landed.settled (h : c.Landed) : c.settled phys = c.receiveBuf := settle_landed h _ _

theorem Conn.settled_post (w : Write) :
    Conn.settled phys { c with sq := c.sq ++ [.write w] } =
      Mem.write phys (c.settled phys) w.remoteOff (w.bytes phys c.sendBuf w.length) :=
  settle_append _ _ _ _ _

theorem Conn.settled_read (id : UInt64) :
    Conn.settled phys { c with sq := c.sq ++ [.read id] } = c.settled phys :=
  settle_append _ _ _ _ _

theorem Conn.land_settled {k : ℕ} (h : c.land phys k = some c') :
    c'.settled phys = c.settled phys := by
  obtain ⟨w, sq, hsq, hk, rfl⟩ := land_cases h
  have hoff : (w.drop k).remoteOff = w.remoteOff + (w.bytes phys c.sendBuf k).length := by
    rw [Write.length_bytes]; rfl
  rw [settled, settled, hsq, settle, settle, hoff, ← Mem.write_append, w.bytes_drop _ _ hk]

theorem Conn.complete_settled (h : c.complete = some c') : c'.settled phys = c.settled phys := by
  obtain ⟨w, sq, hsq, hw, rfl⟩ | ⟨id, sq, hsq, rfl⟩ := complete_cases h
  · rw [settled, settled, hsq, settle, hw]
    rfl
  · rw [settled, settled, hsq]
    rfl

theorem Conn.complete_landed (h : c.complete = some c') (hl : c.Landed) : c'.Landed :=
  fun w hw => hl w (complete_sq h hw)

theorem Conn.land_landed {k : ℕ} (h : c.land phys k = some c') (hl : c.Landed) :
    c'.Landed ∧ c'.receiveBuf = c.receiveBuf := by
  obtain ⟨w, sq, hsq, hk, rfl⟩ := land_cases h
  have hw : w.length = 0 := hl w (hsq ▸ List.mem_cons_self)
  obtain rfl : k = 0 := by omega
  refine ⟨fun w' hw' => ?_, rfl⟩
  rcases List.mem_cons.1 hw' with he | hw'
  · cases he; exact hw
  · exact hl w' (hsq ▸ List.mem_cons_of_mem _ hw')

theorem Conn.complete_receiveBuf (h : c.complete = some c') : c'.receiveBuf = c.receiveBuf := by
  obtain ⟨w, sq, -, -, rfl⟩ | ⟨id, sq, -, rfl⟩ := complete_cases h <;> rfl

end

end Channel

/-! ## Bytes in any order -/

namespace Placement

open Verbs Channel

/-- No two bytes of the write have the same cell. -/
def Distinct (phys : ℕ → ℕ) (w : Write) : Prop :=
  ∀ i < w.length, ∀ j < w.length, phys (w.remoteOff + i) = phys (w.remoteOff + j) → i = j

/-- The offsets `placed` of the write in progress have arrived. -/
structure Partly (phys : ℕ → ℕ) (c : Conn) (placed : List ℕ) : Prop where
  distinct : ∀ w ∈ pending c.sq, Distinct phys w
  fresh : pending c.sq = [] → placed = []
  arrived : ∀ w ∈ (pending c.sq).head?, ∀ j ∈ placed, j < w.length →
    c.receiveBuf (phys (w.remoteOff + j)) = w.byte phys c.sendBuf j

section
variable {phys : ℕ → ℕ} {c c' : Conn} {placed placed' : List ℕ} {i : ℕ}

/-- Only the pending writes count. -/
theorem settle_pending (m ring : Mem) (sq : List Request) :
    settle phys m ring sq = settle phys m ring ((pending sq).map .write) := by
  induction sq generalizing ring with
  | nil => rfl
  | cons r sq ih =>
    cases r with
    | read id => exact ih _
    | write w =>
      rw [settle, pending]
      split_ifs with hw
      · rw [hw]; exact ih _
      · exact ih _

/-- A byte of the write in progress arrives. -/
theorem Partly.land (h : Partly phys c placed) (hs : land phys c placed i = some (c', placed')) :
    Partly phys c' placed' ∧ c'.settled phys = c.settled phys := by
  simp only [Placement.land, Option.map_eq_some_iff] at hs
  obtain ⟨⟨w, sq, placed₁⟩, hp, he⟩ := hs
  cases he
  obtain ⟨hi, -, rest, hpend, hor⟩ := place_spec hp
  have hdist : Distinct phys w := h.distinct w (hpend ▸ List.mem_cons_self)
  have harr : ∀ j ∈ placed, j < w.length →
      c.receiveBuf (phys (w.remoteOff + j)) = w.byte phys c.sendBuf j :=
    h.arrived w (by rw [hpend]; rfl)
  have hnew : ∀ j < w.length, j = i ∨ j ∈ placed →
      Mem.write phys c.receiveBuf (w.remoteOff + i) [w.byte phys c.sendBuf i]
        (phys (w.remoteOff + j)) = w.byte phys c.sendBuf j := by
    intro j hj hor
    by_cases hji : j = i
    · subst hji
      exact if_pos rfl
    · have hne : phys (w.remoteOff + j) ≠ phys (w.remoteOff + i) :=
        fun he => hji (hdist j hj i hi he)
      exact (if_neg hne).trans (harr j (hor.resolve_left hji) hj)
  -- the byte is in the range of the whole write
  have hover : Mem.write phys
      (Mem.write phys c.receiveBuf (w.remoteOff + i) [w.byte phys c.sendBuf i])
      w.remoteOff (w.bytes phys c.sendBuf w.length) =
      Mem.write phys c.receiveBuf w.remoteOff (w.bytes phys c.sendBuf w.length) := by
    refine Mem.write_of_agree fun cell hcell => ?_
    refine if_neg fun he => hcell i (by rwa [Write.length_bytes]) ?_
    rw [he]
  rcases hor with ⟨hsq, rfl, hall⟩ | ⟨hsq, rfl⟩
  · refine ⟨⟨fun w' hw' => h.distinct w' ?_, fun _ => rfl, fun w' _ j hj => by cases hj⟩, ?_⟩
    · have hw' : w' ∈ rest := hsq ▸ hw'
      exact hpend ▸ List.mem_cons_of_mem _ hw'
    · have hdone : Mem.write phys c.receiveBuf w.remoteOff (w.bytes phys c.sendBuf w.length) =
          Mem.write phys c.receiveBuf (w.remoteOff + i) [w.byte phys c.sendBuf i] := by
        rw [← hover]
        refine Mem.write_self fun j b hb => ?_
        obtain ⟨hj, rfl⟩ := w.bytes_get hb
        exact hnew j hj (hall j hj)
      rw [Conn.settled, Conn.settled, settle_pending, settle_pending _ c.receiveBuf, hsq, hpend,
        List.map_cons, settle, hdone]
  · refine ⟨⟨fun w' hw' => h.distinct w' ?_, fun hnil => ?_, ?_⟩, ?_⟩
    · have hw' : w' ∈ w :: rest := hsq ▸ hw'
      exact hpend ▸ hw'
    · rw [hsq] at hnil; cases hnil
    · intro w' hw' j hj hjw
      have hw' : w' ∈ (pending sq).head? := hw'
      rw [hsq] at hw'
      cases hw'
      exact hnew j hjw (List.mem_cons.1 hj)
    · rw [Conn.settled, Conn.settled, settle_pending, settle_pending _ c.receiveBuf, hsq, hpend,
        List.map_cons, settle, settle, hover]

theorem Partly.complete (h : Partly phys c placed) (hs : c.complete = some c') :
    Partly phys c' placed := by
  have hpend : pending c'.sq = pending c.sq := by
    obtain ⟨w, sq, hsq, hw, rfl⟩ | ⟨id, sq, hsq, rfl⟩ := Conn.complete_cases hs
    · rw [hsq, pending, if_pos hw]
    · rw [hsq]; rfl
  have hsend := Conn.complete_sendBuf hs
  have hrecv := Conn.complete_receiveBuf hs
  exact ⟨hpend ▸ h.distinct, hpend ▸ h.fresh, by rw [hpend, hsend, hrecv]; exact h.arrived⟩

/-- A write is posted. -/
theorem Partly.post (h : Partly phys c placed) {w : Write} (hw : Distinct phys w) :
    Partly phys { c with sq := c.sq ++ [.write w] } placed := by
  have hpend : pending (c.sq ++ [.write w]) = pending c.sq ++ pending [.write w] :=
    pending_append _ _
  refine ⟨?_, ?_, ?_⟩
  · intro w' hw'
    rw [hpend] at hw'
    rcases List.mem_append.1 hw' with hw' | hw'
    · exact h.distinct w' hw'
    · rw [pending] at hw'
      split_ifs at hw' with hz
      · cases hw'
      · rcases List.mem_cons.1 hw' with rfl | hw'
        · exact hw
        · cases hw'
  · intro hnil
    rw [hpend] at hnil
    exact h.fresh (List.append_eq_nil_iff.1 hnil).1
  · intro w' hw' j hj hjw
    rw [hpend] at hw'
    cases hq : pending c.sq with
    | nil => rw [h.fresh hq] at hj; cases hj
    | cons w'' rest =>
      rw [hq] at hw'
      exact h.arrived w' (hq ▸ hw') j hj hjw

end

end Placement
