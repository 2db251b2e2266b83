/-
  The network card of a channel on its own.

  It reads the bytes of a write when the write is posted (`Conn.carry`), lets
  them arrive and completes requests.  `Conn.drain`: it can finish all that is
  posted without a step of either end; if a read is among it, the sender then
  has the receiver's counter.
-/
import L5RDMA.Lib.Channel
import L5RDMA.Lib.Run
import L5RDMA.Lib.Signaling

namespace Channel

open Verbs Run

/-- The steps of the card. -/
inductive CardAct where
  | land (k : ℕ)
  | complete

/-- The queued writes take their bytes along from the staging memory, as it is now. -/
def Conn.carry (phys : ℕ → ℕ) (c : Conn) : Conn :=
  { c with sq := c.sq.map (Request.carry phys c.sendBuf) }

/-- Nothing is read from the staging memory a second time. -/
theorem Conn.carry_carry (phys : ℕ → ℕ) (c : Conn) : (c.carry phys).carry phys = c.carry phys := by
  have hcomp : Request.carry phys c.sendBuf ∘ Request.carry phys c.sendBuf =
      Request.carry phys c.sendBuf := by
    ext1 r
    simp
  rw [carry, carry, List.map_map, hcomp]

def Conn.card (phys : ℕ → ℕ) (c : Conn) : CardAct → Option Conn
  | .land k => (c.land phys k).map (Conn.carry phys)
  | .complete => c.complete.map (Conn.carry phys)

@[simp] theorem signal_carry (phys : ℕ → ℕ) (m : Mem) (r : Request) :
    (r.carry phys m).signal = r.signal := by
  cases r <;> rfl

/-- The reads in a queue stay as they are. -/
theorem read_mem_carry {phys : ℕ → ℕ} {m : Mem} {sq : List Request} {id : UInt64} :
    .read id ∈ sq.map (Request.carry phys m) ↔ .read id ∈ sq := by
  rw [List.mem_map]
  constructor
  · rintro ⟨r, hr, he⟩
    cases r with
    | write w => cases he
    | read id' => cases he; exact hr
  · intro hr
    exact ⟨_, hr, rfl⟩

theorem signal_comp_carry (phys : ℕ → ℕ) (m : Mem) :
    Request.signal ∘ Request.carry phys m = Request.signal := by
  ext1 r
  exact signal_carry phys m r

/-- The completions that the sender has yet to poll. -/
def Conn.outstanding (c : Conn) : List UInt64 :=
  c.cq.entries ++ c.sq.filterMap Request.signal

theorem Conn.outstanding_carry (phys : ℕ → ℕ) (c : Conn) :
    (c.carry phys).outstanding = c.outstanding := by
  rw [outstanding, carry, List.filterMap_map, signal_comp_carry]
  rfl

/-- The card only moves completions from the one queue to the other. -/
theorem Conn.land_outstanding {phys : ℕ → ℕ} {c c' : Conn} {k : ℕ} (h : c.land phys k = some c') :
    c'.outstanding = c.outstanding := by
  obtain ⟨w, sq, hsq, -, rfl⟩ := land_cases h
  have hsig : (Request.write (w.drop k)).signal = (Request.write w).signal := rfl
  rw [outstanding, outstanding, hsq, List.filterMap_cons, List.filterMap_cons, hsig]

theorem Conn.complete_outstanding {c c' : Conn} (h : c.complete = some c') :
    c'.outstanding = c.outstanding := by
  obtain ⟨w, sq, hsq, -, rfl⟩ | ⟨id, sq, hsq, rfl⟩ := complete_cases h
  · by_cases hsig : w.signaled = true
    · have hr : (Request.write w).signal = some w.id := if_pos hsig
      simp [outstanding, hsq, List.filterMap_cons_some hr, hsig, CompletionQueue.push]
    · have hr : (Request.write w).signal = none := if_neg hsig
      simp [outstanding, hsq, List.filterMap_cons_none hr, hsig]
  · have hr : (Request.read id).signal = some id := rfl
    simp [outstanding, hsq, List.filterMap_cons_some hr, CompletionQueue.push]

/-- The requests `l`, posted and not retired: first those that are complete, of which the
    signaled ones can be polled, then those in the send queue. -/
def Conn.Log (c : Conn) (l : List (Option UInt64)) : Prop :=
  ∃ done, l = done ++ c.sq.map Request.signal ∧ done.filterMap id = c.cq.entries

theorem Conn.Log.congr {c c' : Conn} {l : List (Option UInt64)} (h : c.Log l)
    (hsq : c'.sq.map Request.signal = c.sq.map Request.signal)
    (hcq : c'.cq.entries = c.cq.entries) : c'.Log l := by
  obtain ⟨done, hl, hd⟩ := h
  exact ⟨done, by rw [hsq, hl], by rw [hcq, hd]⟩

theorem Conn.Log.post {c c' : Conn} {l : List (Option UInt64)} {r : Request} (h : c.Log l)
    (hsq : c'.sq = c.sq ++ [r]) (hcq : c'.cq.entries = c.cq.entries) :
    c'.Log (l ++ [r.signal]) := by
  obtain ⟨done, hl, hd⟩ := h
  refine ⟨done, ?_, by rw [hcq, hd]⟩
  rw [hsq, hl, List.map_append, List.append_assoc]
  rfl

theorem Conn.Log.poll {c c' : Conn} {l : List (Option UInt64)} {i : UInt64} (h : c.Log l)
    (hsq : c'.sq = c.sq) (hcq : c.cq.entries = i :: c'.cq.entries) : c'.Log (retire l) := by
  obtain ⟨done, hl, hd⟩ := h
  obtain ⟨done', hd', hr⟩ := retire_completed (hd.trans hcq) (c.sq.map Request.signal)
  exact ⟨done', by rw [hsq, hl, hr], hd'⟩

theorem Conn.Log.complete {c c' : Conn} {l : List (Option UInt64)} (h : c.Log l)
    (hc : c.complete = some c') : c'.Log l := by
  obtain ⟨done, hl, hd⟩ := h
  have hids : ∀ o : Option UInt64, (done ++ [o]).filterMap id = c.cq.entries ++ o.toList := by
    intro o
    rw [List.filterMap_append, hd]
    cases o <;> rfl
  obtain ⟨w, sq, hsq, -, rfl⟩ | ⟨i, sq, hsq, rfl⟩ := complete_cases hc
  · rw [hsq, List.map_cons] at hl
    refine ⟨done ++ [(Request.write w).signal], by simp [hl], ?_⟩
    rw [hids, Request.signal]
    split_ifs
    · rfl
    · exact List.append_nil _
  · rw [hsq, List.map_cons] at hl
    exact ⟨done ++ [some i], by simp [hl, Request.signal], hids _⟩

/-- The signaled requests not retired are complete, or still in the send queue. -/
theorem Conn.Log.ids {c : Conn} {l : List (Option UInt64)} (h : c.Log l) :
    l.filterMap id = c.outstanding := by
  obtain ⟨done, hl, hd⟩ := h
  rw [hl, List.filterMap_append, hd, List.filterMap_map]
  rfl

/-- What is left when the card has finished all that the queue of `c` holds. -/
structure Conn.Drained (c c' : Conn) : Prop where
  sq : c'.sq = []
  readPos : c'.readPos = c.readPos
  entries : c'.cq.entries = c.outstanding
  fetched : (∃ id, .read id ∈ c.sq) → c'.remoteReadPos = c.readPos
  kept : (∀ id, .read id ∉ c.sq) → c'.remoteReadPos = c.remoteReadPos

section
variable (phys : ℕ → ℕ) {c : Conn}

/-- All of the oldest write arrives, and it completes. -/
theorem Conn.card_write {w : Write} {sq : List Request} (hsq : c.sq = .write w :: sq) :
    ∃ c', run (Conn.card phys) c [.land w.length, .complete] = some c' ∧
      c'.sq.length = sq.length ∧ c'.sq.filterMap Request.signal = sq.filterMap Request.signal ∧
      (∀ id, .read id ∈ c'.sq ↔ .read id ∈ sq) ∧ c'.readPos = c.readPos ∧
      c'.remoteReadPos = c.remoteReadPos ∧
      c'.cq.entries = c.cq.entries ++ (Request.write w).signal.toList := by
  have hlanded : (w.drop w.length).length = 0 := Nat.sub_self _
  simp only [run, Conn.card, Conn.land, hsq, le_refl, if_true, Option.map_some, Conn.carry,
    List.map_cons, Request.carry, Conn.complete, Write.carry, hlanded]
  refine ⟨_, rfl, by simp, ?_, fun id => read_mem_carry.trans read_mem_carry, rfl, rfl, ?_⟩
  · simp [List.filterMap_map]
  · by_cases hsig : w.signaled = true
    · simp [Request.signal, Write.drop, hsig, CompletionQueue.push]
    · simp [Request.signal, Write.drop, hsig]

/-- The oldest read completes. -/
theorem Conn.card_read {id : UInt64} {sq : List Request} (hsq : c.sq = .read id :: sq) :
    ∃ c', run (Conn.card phys) c [.complete] = some c' ∧
      c'.sq.length = sq.length ∧ c'.sq.filterMap Request.signal = sq.filterMap Request.signal ∧
      c'.readPos = c.readPos ∧ c'.remoteReadPos = c.readPos ∧
      c'.cq.entries = c.cq.entries ++ [id] := by
  simp only [run, Conn.card, Conn.complete, hsq, Option.map_some, Conn.carry]
  refine ⟨_, rfl, by simp, ?_, rfl, rfl, rfl⟩
  rw [List.filterMap_map, signal_comp_carry]

/-- **The card can finish** all that is posted. -/
theorem Conn.drain (phys : ℕ → ℕ) (c : Conn) :
    ∃ as c', run (Conn.card phys) c as = some c' ∧ c.Drained c' := by
  induction hn : c.sq.length generalizing c with
  | zero =>
    have hsq := List.length_eq_zero_iff.1 hn
    refine ⟨[], c, rfl, hsq, rfl, by simp [Conn.outstanding, hsq], ?_, fun _ => rfl⟩
    rintro ⟨id, hid⟩
    rw [hsq] at hid
    cases hid
  | succ n ih =>
    cases hsq : c.sq with
    | nil => rw [hsq] at hn; cases hn
    | cons r sq =>
      rw [hsq, List.length_cons, Nat.succ_inj] at hn
      cases r with
      | write w =>
        obtain ⟨c₁, hr₁, hlen, hsig, hreads, hpos, hcached, hent⟩ :=
          Conn.card_write phys hsq
        obtain ⟨as, c', hr, hd⟩ := ih c₁ (hlen.trans hn)
        refine ⟨_, c', (run_append hr₁ as).trans hr, hd.sq, hd.readPos.trans hpos, ?_, ?_, ?_⟩
        · rw [hd.entries, Conn.outstanding, Conn.outstanding, hent, hsig, hsq, List.append_assoc]
          cases hs : (Request.write w).signal with
          | none => rw [List.filterMap_cons_none hs]; rfl
          | some i => rw [List.filterMap_cons_some hs]; rfl
        · rintro ⟨id, hid⟩
          have hid : Request.read id ∈ sq := by simpa [hsq] using hid
          rw [hd.fetched ⟨id, (hreads id).2 hid⟩, hpos]
        · intro hno
          refine (hd.kept fun id hid => hno id ?_).trans hcached
          rw [hsq]
          exact List.mem_cons_of_mem _ ((hreads id).1 hid)
      | read id =>
        obtain ⟨c₁, hr₁, hlen, hsig, hpos, hcached, hent⟩ := Conn.card_read phys hsq
        obtain ⟨as, c', hr, hd⟩ := ih c₁ (hlen.trans hn)
        refine ⟨_, c', (run_append hr₁ as).trans hr, hd.sq, hd.readPos.trans hpos, ?_, ?_, ?_⟩
        · rw [hd.entries, Conn.outstanding, Conn.outstanding, hent, hsig, hsq, List.append_assoc]
          rfl
        · intro _
          by_cases hmore : ∃ id, .read id ∈ c₁.sq
          · rw [hd.fetched hmore, hpos]
          · rw [not_exists] at hmore
            rw [hd.kept hmore, hcached]
        · intro hno
          exact absurd (hsq ▸ List.mem_cons_self) (hno id)

end

end Channel
