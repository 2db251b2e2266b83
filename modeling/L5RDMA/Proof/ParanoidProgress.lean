/-
  What `sendParanoid`, the network card and `receive` can do when nothing stops
  them: a message for which there is room is posted (`run_posts`), its writes
  arrive and complete (`run_deliver`), and it is received
  (`InvAt.receives`).
-/
import L5RDMA.Proof.Detection
import L5RDMA.Proof.SendParanoid
import L5RDMA.Proof.Signaling

namespace L5RDMA

namespace VirtualRDMARingBuffer

namespace Paranoid

open Run Verbs Channel Frame
open Pos (lengthOf)

section
variable {s : State}

theorem step_sendParanoid (hpc : s.sendPc = .idle) {data : List UInt8} {n : UInt64}
    (hn : lengthOf data + 8 = n) (hfits : ¬ 8 + n > s.ring.size) :
    ∃ m, step s (.sendParanoid data) = some { s with
      ring := { s.ring with
        conn := { s.ring.conn with sendBuf := m }, sent := s.ring.sent ++ [data] }
      sendPc := .waitUntilSendFree n } := by
  simp only [step, hpc, sendParanoid, hn, if_neg hfits]
  exact ⟨_, rfl⟩

/-- A message for which there is room is posted. -/
theorem run_posts {n : UInt64} (hpc : s.sendPc = .waitUntilSendFree n)
    (hroom : ¬ 8 + n > s.ring.size - (s.ring.sendPos - s.ring.conn.remoteReadPos)) :
    ∃ w w', run step s [.sender, .sender, .sender] = some { s with
        ring := { s.ring with conn := { s.ring.conn with
          sq := s.ring.conn.sq ++ [.write w] ++ [.write w'] } }
        sendPc :=
          if s.ring.messageCounter % (4 * 1024) = 0 then .waitForCompletion .getEvent n
          else .advance n } ∧
      w.length = n.toNat ∧ w.signaled = false ∧ w'.length = 8 ∧ w'.id = 0 ∧
      w'.signaled = decide (s.ring.messageCounter % (4 * 1024) = 0) := by
  simp only [run, step, hpc, sendStep, if_neg hroom, post, sizeRequest, decide_eq_true_eq]
  exact ⟨_, _, rfl, rfl, rfl, rfl, rfl, rfl⟩

/-- The bytes of the oldest write arrive, -/
theorem run_place {w : Write} {sq : List Request} (hsq : s.ring.conn.sq = .write w :: sq)
    (hplaced : s.placed = []) {k : ℕ} (hk : k < w.length) :
    ∃ buf placed, run step s ((List.range k).map .place) = some { s with
        ring := { s.ring with conn := { s.ring.conn with receiveBuf := buf } }
        placed := placed } ∧ ∀ i, i ∈ placed ↔ i < k := by
  induction k with
  | zero => exact ⟨s.ring.conn.receiveBuf, [], by rw [← hplaced]; rfl, by simp⟩
  | succ k ih =>
    obtain ⟨buf, placed, hr, hmem⟩ := ih (by omega)
    have hne : w.length ≠ 0 := by omega
    have hnew : k < w.length ∧ k ∉ placed := ⟨by omega, by simp [hmem]⟩
    have hmore : ¬ ∀ j < w.length, j = k ∨ j ∈ placed := fun hall => by
      have := hall (k + 1) hk
      simp [hmem] at this
    rw [List.range_succ, List.map_append, run_append hr]
    simp only [List.map_singleton, run, step, Placement.land, hsq, Placement.place, if_neg hne,
      if_pos hnew, if_neg hmore, Option.map_some]
    refine ⟨_, _, rfl, fun i => ?_⟩
    rw [List.mem_cons, hmem]
    omega

/-- all of them, and it completes. -/
theorem run_deliver {w : Write} {sq : List Request} (hsq : s.ring.conn.sq = .write w :: sq)
    (hplaced : s.placed = []) (hlen : 0 < w.length) :
    ∃ buf, run step s ((List.range w.length).map .place ++ [.complete]) = some { s with
      ring := { s.ring with conn := { s.ring.conn with
        receiveBuf := buf, sq := sq
        cq := if w.signaled then s.ring.conn.cq.push w.id else s.ring.conn.cq } } } := by
  obtain ⟨k, hk⟩ : ∃ k, w.length = k + 1 := ⟨w.length - 1, by omega⟩
  obtain ⟨buf, placed, hr, hmem⟩ := run_place hsq hplaced (show k < w.length by omega)
  have hne : w.length ≠ 0 := by omega
  have hnew : k < w.length ∧ k ∉ placed := ⟨by omega, by simp [hmem]⟩
  have hall : ∀ j < w.length, j = k ∨ j ∈ placed := fun j hj => by
    rw [hmem]
    omega
  have hdone : (w.drop w.length).length = 0 := Nat.sub_self _
  rw [show List.range w.length = List.range k ++ [k] by rw [hk, List.range_succ],
    List.map_append, List.append_assoc, run_append hr]
  simp only [List.map_singleton, List.singleton_append, run, step, Placement.land, hsq,
    Placement.place, if_neg hne, if_pos hnew, if_pos hall, Option.map_some,
    VirtualRDMARingBuffer.step, Conn.complete, if_pos hdone, hplaced]
  exact ⟨_, rfl⟩

/-- A step of the receiver. -/
def Receiving : VirtualRDMARingBuffer.Act → Prop
  | .receive _ | .load _ | .receiver => True
  | .send _ | .sender | .land _ | .complete => False

/-- It does nothing to the sender. -/
theorem run_receiving {r r' : VirtualRDMARingBuffer.State} {as : List VirtualRDMARingBuffer.Act}
    (has : ∀ a ∈ as, Receiving a) (hr : run VirtualRDMARingBuffer.step r as = some r') :
    SenderFrame r r' := by
  induction as generalizing r with
  | nil => cases hr; exact ⟨rfl, rfl, rfl, rfl, rfl, rfl, rfl, rfl, fun _ => id⟩
  | cons a as ih =>
    rw [run] at hr
    cases hs : VirtualRDMARingBuffer.step r a with
    | none => rw [hs] at hr; cases hr
    | some r₁ =>
      rw [hs] at hr
      have ha := has a List.mem_cons_self
      have h : SenderFrame r r₁ := by
        cases a with
        | receive | load | receiver => exact step_senderFrame hs (by simp) (by simp) (by simp)
        | send | sender | land | complete => exact ha.elim
      have h' := ih (fun b hb => has b (List.mem_cons_of_mem _ hb)) hr
      exact ⟨h'.size.trans h.size, h'.messageCounter.trans h.messageCounter,
        h'.sendPos.trans h.sendPos, h'.sendPc.trans h.sendPc, h'.sent.trans h.sent,
        h'.remoteReadPos.trans h.remoteReadPos, h'.cq.trans h.cq, h'.signals.trans h.signals,
        fun id hid => h.reads id (h'.reads id hid)⟩

def ofRing : VirtualRDMARingBuffer.Act → Act
  | .receive maxSize => .receive maxSize
  | .load is => .load is
  | .send _ | .sender | .receiver | .land _ | .complete => .receiver

theorem run_ofRing {r r' : VirtualRDMARingBuffer.State} {as : List VirtualRDMARingBuffer.Act}
    (has : ∀ a ∈ as, Receiving a) (hr : run VirtualRDMARingBuffer.step r as = some r') :
    run step { s with ring := r } (as.map ofRing) = some { s with ring := r' } := by
  induction as generalizing r with
  | nil => cases hr; rfl
  | cons a as ih =>
    rw [run] at hr
    cases hs : VirtualRDMARingBuffer.step r a with
    | none => rw [hs] at hr; cases hr
    | some r₁ =>
      rw [hs] at hr
      have hstep : step { s with ring := r } (ofRing a) = some { s with ring := r₁ } := by
        have ha := has a List.mem_cons_self
        cases a with
        | receive | load | receiver => simp only [ofRing, step, hs, Option.map_some]
        | send | sender | land | complete => exact ha.elim
      rw [List.map_cons, run_cons hstep]
      exact ih (fun b hb => has b (List.mem_cons_of_mem _ hb)) hr

/-- The message that has arrived is received. -/
theorem InvAt.receives {B : ℕ} {F H : List (List UInt8)} {t : Placement.Progress} {C : ℕ}
    (h : InvAt B F H t C s) (hpc : s.ring.recvPc = .idle) (hsq : s.ring.conn.sq = [])
    (hposted : t.unposted = []) {p : List UInt8} {T : List (List UInt8)}
    (hF : F = s.ring.received ++ p :: T) :
    ∃ r, run step s receiveWhole = some { s with ring := r } ∧ SenderFrame s.ring r ∧
      r.conn.readPos = s.ring.conn.readPos + UInt64.ofNat (p.length + 16) := by
  have hrecv := h.recv
  rw [hpc] at hrecv
  obtain rfl : H = s.ring.received := hrecv
  have hfits := h.chan.fits p (by simp [hF])
  have hlen : (lengthOf p).toNat = p.length := toNat_length hfits
  have hqueued : t.queued = [] := by
    have hqueue := h.chan.queue
    rw [hsq] at hqueue
    exact List.forall₂_nil_left_iff.1 hqueue
  have hfound : Placement.Found V B F s.ring.received t.Arrived p := by
    refine ⟨⟨T, by rw [hF, List.append_assoc]; rfl⟩, fun j b hb => Or.inl (Or.inl ?_)⟩
    have hdone : t.done = Placement.parts V B F := by
      have hregions := h.chan.regions
      rwa [Placement.Progress.regions, hqueued, hposted, List.append_nil, List.append_nil]
        at hregions
    rw [hdone]
    refine Placement.exists_mem_parts.2 ⟨(base_le_endPos _ _ _).trans (Nat.le_add_right _ _), ?_⟩
    have hj := (List.getElem?_eq_some_iff.1 hb).1
    rw [length_frame] at hj
    rw [hF, endPos_append, List.flatMap_cons, List.length_append, length_frame]
    omega
  have hword : ∀ off (bs : List UInt8), bs.length = 8 →
      (∀ (i : ℕ) b, bs[i]? = some b → (frame V p)[off + i]? = some b) →
      s.ring.wordAt off = bs := by
    intro off bs hbs hframe
    refine List.ext_getElem (by simp [State.wordAt, hbs]) fun i hi hi' => ?_
    have hcell := h.chan.cell hfound (hframe i _ (List.getElem?_eq_getElem hi'))
    simp only [VirtualRDMARingBuffer.State.wordAt]
    rw [List.getElem_map, List.getElem_range, add_assoc,
      h.maps_read (off + i + 1) (off + i) (by omega), hcell]
  have hsize : s.ring.wordAt 0 = Bytes.le64 p.length := by
    refine hword 0 _ (Bytes.length_le64 _) fun i b hb => ?_
    have hi := (List.getElem?_eq_some_iff.1 hb).1
    rw [Nat.zero_add, frame, List.append_assoc, List.getElem?_append_left hi, hb]
  have htrailer : s.ring.wordAt (8 + (lengthOf p).toNat) = V := by
    refine hword _ _ (length_trailer _) fun i b hb => ?_
    rw [hlen, frame, List.getElem?_append_right (by simp), List.length_append,
      Bytes.length_le64, Nat.add_sub_cancel_left, hb]
  have hstart : VirtualRDMARingBuffer.step s.ring (.receive none) =
      some { s.ring with recvPc := .size none .empty } := by
    simp only [VirtualRDMARingBuffer.step, hpc, receive]
  have hload := step_load_size (s := { s.ring with recvPc := .size none .empty }) rfl hsize
  rw [ofNat_ofLE_length hfits] at hload
  have hcheck := step_load_check
    (s := { s.ring with recvPc := .check none (lengthOf p) .empty }) rfl
  rw [if_pos (show VirtualRDMARingBuffer.State.wordAt
    { s.ring with recvPc := .check none (lengthOf p) .empty } _ = V from htrailer)] at hcheck
  obtain ⟨r, hr, -, hread⟩ := run_found (s := { s.ring with
    recvPc := .found none (lengthOf p) }) rfl (by simp)
  have hall : run VirtualRDMARingBuffer.step s.ring
      [.receive none, .load (List.range 8), .load (List.range 8), .receiver, .receiver,
        .receiver] = some r := by
    rw [run_cons hstart, run_cons hload, run_cons hcheck]
    exact hr
  have has : ∀ a ∈ [.receive none, .load (List.range 8), .load (List.range 8), .receiver,
      .receiver, .receiver], Receiving a := by simp [Receiving]
  refine ⟨r, run_ofRing has hall, run_receiving has hall, ?_⟩
  rw [hread]
  exact congrArg _ (frameSize p.length)
end

end Paranoid

end VirtualRDMARingBuffer

end L5RDMA
