/-
  When the RDMA ring detects a message whatever its payload.

  `receive` loads a length and then looks for `validity` where that length
  points.  The two loads are not synchronised with the arrival of the
  message, and the payload is not escaped: a length that is still zero, or of
  which some bytes are, may point to bytes of the payload that look like the
  trailer.

  `detection_iff`: a single message is detected correctly in every schedule iff
  no incomplete length points to such bytes; and in every schedule in which
  messages arrive in one piece and loads are whole iff the payload does not
  begin with them.
-/
import L5RDMA.Proof.VirtualRDMARingBuffer

namespace L5RDMA

namespace VirtualRDMARingBuffer

open Run Verbs Channel Frame
open Pos (lengthOf powerOfTwo)

/-! ## What detection means -/

/-- The only message ever sent is `p`. -/
def Only (p : List UInt8) (s : State) : Act → Prop
  | .send data => data = p ∧ s.sent = []
  | _ => True

/-- The message `p` arrives at one point, and every load is whole. -/
def Whole (p : List UInt8) : Act → Prop
  | .load is => is = List.range 8
  | .land k => k = p.length + 16
  | _ => True

/-- `receive` has returned nothing yet, or exactly `p`. -/
def Returned (pos : UInt64) (p : List UInt8) (s : State) : Prop :=
  (s.received = [] ∧ s.conn.readPos = pos) ∨
    (s.received = [p] ∧ s.conn.readPos = pos + (8 + lengthOf p + 8))

/-- All that was sent is posted, and all that is posted has arrived. -/
def Arrived (s : State) : Prop :=
  (∀ w, Request.write w ∈ s.conn.sq → w.length = 0) ∧
    match s.sendPc with
    | .idle | .waitForCompletion _ _ | .advance _ => True
    | .waitUntilSendFree _ | .pollRead _ | .post _ => False

/-- An iteration of the polling loop and the rest of the call. -/
def pollOnce : List Act :=
  [.load (List.range 8), .load (List.range 8), .receiver, .receiver, .receiver]

/-- Once `p` has arrived, a call of `receive` that admits it returns it in the next
    iteration of its loop. -/
def Returns (pos : UInt64) (p : List UInt8) (s : State) : Prop :=
  ∀ limit, s.sent = [p] → Arrived s → s.received = [] → s.recvPc = .size limit .empty →
    (∀ maxSize ∈ limit, lengthOf p ≤ maxSize) →
    ∃ s', run step s pollOnce = some s' ∧ s'.received = [p] ∧
      s'.conn.readPos = pos + (8 + lengthOf p + 8)

def Detected (pos : UInt64) (p : List UInt8) (s : State) : Prop :=
  Returned pos p s ∧ Returns pos p s

/-! ## The steps of a call -/

section
variable {s : State} {limit : Option UInt64} {receiveSize : UInt64}

/-- The bytes of the word at offset `off` from the read position. -/
def State.wordAt (s : State) (off : ℕ) : List UInt8 :=
  (List.range 8).map fun i => s.conn.receiveBuf (s.phys (s.startOfRead + off + i))

/-- A whole load of the length. -/
theorem step_load_size {got : Load} (hpc : s.recvPc = .size limit got) {bs : List UInt8}
    (hbs : (List.range 8).map (fun i =>
      (got i).getD (s.conn.receiveBuf (s.phys (s.startOfRead + 0 + i)))) = bs) :
    step s (.load (List.range 8)) =
      some { s with recvPc := .check limit (UInt64.ofNat (Bytes.ofLE bs)) .empty } := by
  simp only [step, hpc, poll, Load.word_take_range, Option.map_some, ← hbs]

/-- A whole load of the trailer. -/
theorem step_load_check (hpc : s.recvPc = .check limit receiveSize .empty) :
    step s (.load (List.range 8)) = some { s with
      recvPc := if s.wordAt (8 + receiveSize.toNat) = V then .found limit receiveSize
        else .size limit .empty } := by
  have hw : UInt64.ofNat (Bytes.ofLE (s.wordAt (8 + receiveSize.toNat))) = validity ↔
      s.wordAt (8 + receiveSize.toNat) = V := word_eq_iff (by simp [State.wordAt])
  simp only [step, hpc, poll, Load.word_take_range]
  change Option.map _ (if UInt64.ofNat (Bytes.ofLE (s.wordAt (8 + receiveSize.toNat))) = validity
    then _ else _) = _
  by_cases h : s.wordAt (8 + receiveSize.toNat) = V
  · rw [if_pos (hw.2 h), if_pos h]; rfl
  · rw [if_neg (mt hw.1 h), if_neg h]; rfl

/-- The rest of a call that has found a message it admits. -/
theorem run_found (hpc : s.recvPc = .found limit receiveSize)
    (hlim : ∀ maxSize ∈ limit, receiveSize ≤ maxSize) :
    ∃ s', run step s [.receiver, .receiver, .receiver] = some s' ∧
      s'.received = s.received ++
        [Mem.read s.phys s.conn.receiveBuf (s.startOfRead + 8) receiveSize.toNat] ∧
      s'.conn.readPos = s.conn.readPos + (8 + receiveSize + 8) := by
  have hlim' : ¬ ∃ maxSize ∈ limit, receiveSize > maxSize := fun ⟨m, hm, hgt⟩ =>
    absurd (hlim m hm) (UInt64.not_le.2 hgt)
  simp only [run, step, recvStep, hpc, if_neg hlim']
  exact ⟨_, rfl, rfl, rfl⟩

/-- The rest of a call whose length points to a trailer. -/
theorem run_check (hpc : s.recvPc = .check limit receiveSize .empty)
    (hV : s.wordAt (8 + receiveSize.toNat) = V) (hlim : ∀ maxSize ∈ limit, receiveSize ≤ maxSize) :
    ∃ s', run step s [.load (List.range 8), .receiver, .receiver, .receiver] = some s' ∧
      s'.received = s.received ++
        [Mem.read s.phys s.conn.receiveBuf (s.startOfRead + 8) receiveSize.toNat] ∧
      s'.conn.readPos = s.conn.readPos + (8 + receiveSize + 8) := by
  have hload := step_load_check hpc
  rw [if_pos hV] at hload
  rw [run_cons hload]
  exact run_found (s := { s with recvPc := .found limit receiveSize }) rfl hlim

/-! ## A message that has arrived -/

section
variable {B : ℕ} {F : List (List UInt8)} {Z A C : ℕ} {p : List UInt8}

theorem InvAt.of_arrived (h : InvAt B F Z A C s) (ha : Arrived s) :
    s.sent = F ∧ A = endPos V B F := by
  refine ⟨?_, h.chan.feed.eq_of_landed ha.1⟩
  have hsend := h.send
  have ha' := ha.2
  cases hpc : s.sendPc with
  | idle | waitForCompletion | advance => rw [hpc] at hsend; exact hsend.1
  | waitUntilSendFree | pollRead | post => rw [hpc] at ha'; exact ha'.elim

/-- The only message, once it has arrived. -/
theorem InvAt.found_of_arrived (h : InvAt B F Z A C s) (ha : Arrived s) (hsent : s.sent = [p])
    (hrec : s.received = []) :
    Found validity B F s.received A p ∧ p.length + 16 ≤ s.size.toNat := by
  obtain ⟨hF, rfl⟩ := h.of_arrived ha
  rw [hsent] at hF
  subst hF
  refine ⟨?_, h.chan.fits p (by simp)⟩
  rw [hrec]; exact ⟨List.prefix_rfl, le_rfl⟩

/-- The words of a frame that has arrived. -/
theorem InvAt.wordAt_eq (h : InvAt B F Z A C s) (hZ : Z = endPos V B s.received)
    (hp : Found validity B F s.received A p) {off : ℕ} {bs : List UInt8} (hl : bs.length = 8)
    (hbs : ∀ (i : ℕ) b, bs[i]? = some b → (frame V p)[off + i]? = some b) : s.wordAt off = bs := by
  ext i : 1
  rcases Nat.lt_or_ge i 8 with hi | hi
  · have hb := List.getElem?_eq_getElem (l := bs) (i := i) (by omega)
    rw [hb, State.wordAt, List.getElem?_map, List.getElem?_range hi, Option.map_some, add_assoc,
      h.maps_read (off + i + 1) (off + i) (by omega), h.chan.cell hZ hp (hbs i _ hb)]
  · rw [List.getElem?_eq_none (by simpa [State.wordAt] using hi), List.getElem?_eq_none (by omega)]

/-- The trailer where the payload has its bytes. -/
theorem InvAt.wordAt_trailer (h : InvAt B F Z A C s) (hZ : Z = endPos V B s.received)
    (hp : Found validity B F s.received A p) {n : ℕ} (hn : V <+: p.drop n ++ V)
    (hle : n ≤ p.length) : s.wordAt (8 + n) = V := by
  refine h.wordAt_eq hZ hp (length_trailer _) ?_
  intro i b hb
  obtain ⟨hi, rfl⟩ := List.getElem?_eq_some_iff.1 hb
  have hdrop : (frame V p).drop (8 + n) = p.drop n ++ V := by
    rw [frame, List.append_assoc, List.drop_append, Bytes.length_le64,
      List.drop_eq_nil_of_le (by simp), Nat.add_sub_cancel_left, List.nil_append,
      List.drop_append_of_le_length hle]
  rw [← List.getElem?_drop, hdrop]
  exact List.prefix_iff_getElem?.1 hn i hi

theorem InvAt.wordAt_length (h : InvAt B F Z A C s) (hZ : Z = endPos V B s.received)
    (hp : Found validity B F s.received A p) : s.wordAt 0 = Bytes.le64 p.length := by
  refine h.wordAt_eq hZ hp (Bytes.length_le64 _) ?_
  intro i b hb
  have hi := (List.getElem?_eq_some_iff.1 hb).1
  rw [Nat.zero_add, frame, List.append_assoc, List.getElem?_append_left hi, hb]

theorem ofNat_ofLE_length (h : p.length + 16 ≤ s.size.toNat) :
    UInt64.ofNat (Bytes.ofLE (Bytes.le64 p.length)) = lengthOf p := by
  have := s.size.toNat_lt
  rw [Bytes.ofLE_le64 (by omega), lengthOf]

theorem InvAt.returns {pos : UInt64} (h : InvAt pos.toNat F Z A C s) : Returns pos p s := by
  intro limit hsent ha hrec hpc hlim
  obtain ⟨hp, hfits⟩ := h.found_of_arrived ha hsent hrec
  have hZ := h.recv.cleared (by simp [hpc])
  have hlen : (lengthOf p).toNat = p.length := toNat_length hfits
  -- the length, then the trailer and the rest of the call
  have hload := step_load_size hpc (h.wordAt_length hZ hp)
  rw [ofNat_ofLE_length hfits] at hload
  have hV : s.wordAt (8 + (lengthOf p).toNat) = V := by
    rw [hlen]
    exact h.wordAt_trailer hZ hp (by rw [List.drop_length]; exact List.prefix_rfl) le_rfl
  obtain ⟨s', hrun, hrec', hread⟩ :=
    run_check (s := { s with recvPc := .check limit (lengthOf p) .empty }) rfl hV hlim
  refine ⟨s', ?_, ?_, ?_⟩
  · rw [pollOnce, run_cons hload, hrun]
  · have hmap := (h.maps_read (8 + p.length)).drop (show 8 ≤ 8 + p.length by omega)
    rw [Nat.add_sub_cancel_left] at hmap
    have hbytes := h.chan.payload hZ hp (Mem.length_read _ _ _ _) fun i hi => Ring.read_pos hmap hi
    rw [hrec', hlen]
    change s.received ++ [Mem.read s.phys s.conn.receiveBuf (s.startOfRead + 8) p.length] = [p]
    rw [hbytes, hrec]; rfl
  · rw [hread]
    change s.conn.readPos + (8 + lengthOf p + 8) = pos + (8 + lengthOf p + 8)
    rw [h.chan.readPos, hrec, endPos_nil, UInt64.ofNat_toNat]

/-! ## Runs with a single message -/

/-- Before anything is sent, no write has anything left to read. -/
theorem InvAt.fillSafe_of_nil (h : InvAt B F Z A C s) (hsent : s.sent = []) (a : Act) :
    FillSafe s a := by
  have hF : F = [] := List.prefix_nil.1 (hsent ▸ h.posted)
  have hA : endPos V B F ≤ A :=
    (endPos_mono V (hF ▸ List.nil_prefix) B).trans (h.chan.cleared.trans h.chan.arrived)
  cases a with
  | send data =>
    intro r hr c hc
    cases r with
    | read id => cases hc
    | write w =>
      have hw := h.chan.feed.add_length_le hr
      have hlen : w.length = 0 := by
        have : endPos (trailer validity) B F ≤ A := hA
        omega
      rw [Request.cells_of_done _ hlen] at hc; cases hc
  | sender | receive | load | receiver | land | complete => trivial

/-- Nothing is sent, or only `p`. -/
def SentOnly (p : List UInt8) (s : State) : Prop := s.sent = [] ∨ s.sent = [p]

theorem step_only {pos : UInt64} {s' : State} {a : Act} (h : InvAt pos.toNat F Z A C s)
    (hsent : SentOnly p s) (hfits : p.length + 16 ≤ s.size.toNat) (ha : Only p s a)
    (hclean : ∀ is, a = .load is → TrailerClean validity F s.received s.recvPc)
    (hs : step s a = some s') :
    Inv pos.toNat s' ∧ SentOnly p s' ∧ s'.size = s.size := by
  obtain ⟨hsize, hsent', -⟩ := step_frame hs
  have hadm : Admitted s a := by
    cases a with
    | send data => cases ha.1; exact hfits
    | sender | receive | load | receiver | land | complete => trivial
  have hfill : FillSafe s a := by
    cases a with
    | send data => exact h.fillSafe_of_nil ha.2 _
    | sender | receive | load | receiver | land | complete => trivial
  refine ⟨step_inv h hadm hfill hclean hs, ?_, hsize⟩
  rcases hsent' with he | ⟨data, rfl, he⟩
  · unfold SentOnly; rwa [he]
  · right; rw [he, ha.1, ha.2]; rfl

theorem InvAt.detected {pos : UInt64} (h : InvAt pos.toNat F Z A C s) (hsent : SentOnly p s) :
    Detected pos p s := by
  refine ⟨?_, h.returns⟩
  have hread := h.chan.readPos
  have hpre : s.received <+: [p] := by
    have hpre := h.chan.prefix_.trans h.posted
    rcases hsent with he | he
    · rw [he] at hpre; exact hpre.trans List.nil_prefix
    · rwa [he] at hpre
  rcases List.prefix_cons_iff.1 hpre with hnil | ⟨t, ht, hnil⟩
  · left
    rw [hnil, endPos_nil, UInt64.ofNat_toNat] at hread
    exact ⟨hnil, hread⟩
  · right
    rw [List.prefix_nil.1 hnil] at ht
    refine ⟨ht, ?_⟩
    have hend := endPos_found (v := validity) (B := pos.toNat) (G := []) p
    rw [List.nil_append, endPos_nil] at hend
    rw [hread, ht, hend, lengthOf, frameSize, ← Pos.ofNat_add, UInt64.ofNat_toNat]

/-- A next message is `p`, and the first. -/
theorem next_eq {G T : List (List UInt8)} {q : List UInt8} (h : InvAt B F Z A C s)
    (hsent : SentOnly p s) (hF : F = G ++ q :: T) : G = [] ∧ q = p ∧ T = [] := by
  have hpre := h.posted
  rw [hF] at hpre
  rcases hsent with he | he
  · rw [he] at hpre; simp at hpre
  · rw [he] at hpre
    have hlen := hpre.length_le
    simp only [List.length_append, List.length_cons, List.length_nil] at hlen
    have hG : G = [] := List.length_eq_zero_iff.1 (by omega)
    have hT : T = [] := List.length_eq_zero_iff.1 (by omega)
    subst hG hT
    simpa using hpre

theorem detected_of_clean {size pos : UInt64} (hpow : powerOfTwo size = true)
    (hfits : p.length + 16 ≤ size.toNat) (hclean : Clean V p) {acts : List Act}
    (hacts : Along step (Only p) (start size pos) acts) :
    AllStates step (Detected pos p) (start size pos) acts := by
  refine allStates_of_along (I := fun s => Inv pos.toNat s ∧ SentOnly p s ∧ s.size = size)
    ?_ ?_ ⟨⟨_, _, _, _, inv_start hpow pos⟩, Or.inl rfl, rfl⟩ hacts
  · rintro s ⟨⟨F, Z, A, C, h⟩, hsent, -⟩
    exact h.detected hsent
  · rintro s a s' ⟨⟨F, Z, A, C, h⟩, hsent, rfl⟩ ha hs
    refine step_only h hsent hfits ha (fun _ _ => h.recv.trailerClean ?_) hs
    intro q hq
    obtain ⟨G, T, hF⟩ := List.append_of_mem hq
    rw [(next_eq h hsent hF).2.1]; exact hclean

/-! ## Whole arrivals and whole loads -/

/-- A write has arrived completely or not at all, and a length loaded is zero or right. -/
structure WholeOk (p : List UInt8) (s : State) : Prop where
  landed : ∀ w, Request.write w ∈ s.conn.sq → w.length = 0 ∨ w.length = p.length + 16
  size : ∀ limit got, s.recvPc = .size limit got → got = .empty
  check : ∀ limit receiveSize got, s.recvPc = .check limit receiveSize got →
    got = .empty ∧ (receiveSize = 0 ∨ receiveSize = lengthOf p)

theorem WholeOk.trailerClean (hw : WholeOk p s) (h : InvAt B F Z A C s) (hsent : SentOnly p s)
    (hfits : p.length + 16 ≤ s.size.toNat) (hV : ¬ V <+: p) :
    TrailerClean validity F s.received s.recvPc := by
  cases hpc : s.recvPc with
  | idle | size | found | clear | publish => trivial
  | check limit receiveSize got =>
    intro q T hF
    obtain ⟨-, rfl, -⟩ := next_eq h hsent hF
    rcases (hw.check _ _ _ hpc).2 with rfl | rfl
    · exact hV
    · rw [lengthOf, toNat_length hfits, List.drop_length]
      intro hnil
      have := congrArg List.length (List.prefix_nil.1 hnil)
      rw [length_trailer] at this; cases this

/-- A whole load of the length sees a whole frame or none. -/
theorem WholeOk.ofLE_wordAt (hw : WholeOk p s) (h : InvAt B F Z A C s) (hsent : SentOnly p s)
    (hfits : p.length + 16 ≤ s.size.toNat) (hZ : Z = endPos V B s.received) :
    UInt64.ofNat (Bytes.ofLE (s.wordAt 0)) = 0 ∨
      UInt64.ofNat (Bytes.ofLE (s.wordAt 0)) = lengthOf p := by
  rcases Nat.eq_or_lt_of_le h.chan.arrived with he | hlt
  · left
    have hzero : ∀ b ∈ s.wordAt 0, b = 0 := by
      intro b hb
      obtain ⟨i, hi, rfl⟩ := List.mem_map.1 hb
      have hi := List.mem_range.1 hi
      rw [Nat.add_zero, h.maps_read 8 i hi]
      have hoff : ∀ q T, F = s.received ++ q :: T → i < q.length + 16 := fun q T _ => by omega
      rcases h.chan.load_seen (Pos.powerOfTwo_pos h.pow) hZ hoff with h0 | ⟨hlt, -⟩
      · exact h0
      · rw [← he, hZ] at hlt
        exact absurd hlt (Nat.not_lt.2 (Nat.le_add_right _ _))
    rw [Bytes.ofLE_eq_zero hzero]; rfl
  · right
    rw [hZ] at hlt
    obtain ⟨q, T, hF⟩ := exists_next h.chan.prefix_ h.chan.arrived_le hlt
    obtain ⟨hG, rfl, rfl⟩ := next_eq h hsent hF
    have hend : endPos V B F = endPos V B s.received + (q.length + 16) := by
      rw [hF]; exact endPos_found q
    have hlanded : ∀ w, Request.write w ∈ s.conn.sq → w.length = 0 := by
      intro w hm
      rcases hw.landed w hm with h0 | h1
      · exact h0
      · have : A + w.length ≤ endPos V B F := h.chan.feed.add_length_le hm
        omega
    have hA : A = endPos V B F := h.chan.feed.eq_of_landed hlanded
    have hp : Found validity B F s.received A q := by
      refine ⟨hF ▸ List.prefix_rfl, ?_⟩
      rw [endPos_found, hA]; exact hend.ge
    rw [h.wordAt_length hZ hp, ofNat_ofLE_length hfits]

theorem step_wholeOk {s' : State} {a : Act} (hw : WholeOk p s) (h : InvAt B F Z A C s)
    (hsent : SentOnly p s) (hfits : p.length + 16 ≤ s.size.toNat) (ha : Whole p a)
    (hs : step s a = some s') : WholeOk p s' := by
  obtain ⟨-, -, hsq, hpc'⟩ := step_frame hs
  have hlanded : ∀ w, Request.write w ∈ s'.conn.sq → w.length = 0 ∨ w.length = p.length + 16 := by
    intro w hm
    rcases hsq _ hm with hm | ⟨w', k, rfl, hm', he⟩ | ⟨id, he⟩ | ⟨sizeToWrite, hpc, he⟩
    · exact hw.landed w hm
    · cases he
      have hk : k = p.length + 16 := ha
      left
      rcases hw.landed w' hm' with h0 | h1
      · simp [Write.drop, h0]
      · simp [Write.drop, h1, hk]
    · cases he
    · cases he
      right
      have hsend := h.send
      rw [hpc] at hsend
      obtain ⟨q, hq, -⟩ := hsend
      have hqp : q = p := by
        rcases hsent with he | he
        · rw [hq.sent] at he; simp at he
        · rw [hq.sent, ← List.nil_append [p]] at he
          exact List.singleton_inj.1 (List.append_inj' he rfl).2
      simp only [writeRequest]
      rw [hq.size, toNat_frameSize hq.fits, hqp]
  rcases hpc' with he | ⟨limit, he⟩ | ⟨is, rfl⟩ | rfl
  · exact ⟨hlanded, he ▸ hw.size, he ▸ hw.check⟩
  · refine ⟨hlanded, ?_, ?_⟩
    · intro _ _ h'
      rw [he] at h'; cases h'; rfl
    · intro _ _ _ h'
      rw [he] at h'; cases h'
  · -- a whole load
    have his : is = List.range 8 := ha
    subst his
    cases hpc : s.recvPc with
    | idle | found | clear | publish => simp [step, hpc, poll] at hs
    | size limit got =>
      cases hw.size _ _ hpc
      have hZ := h.recv.cleared (by simp [hpc])
      rw [step_load_size hpc rfl] at hs
      cases hs
      refine ⟨hlanded, fun _ _ h' => by (cases h'), ?_⟩
      intro _ _ _ h'
      cases h'
      exact ⟨rfl, hw.ofLE_wordAt h hsent hfits hZ⟩
    | check limit receiveSize got =>
      cases (hw.check _ _ _ hpc).1
      rw [step_load_check hpc] at hs
      cases hs
      refine ⟨hlanded, ?_, ?_⟩
      · intro _ _ h'
        dsimp only at h'
        split_ifs at h'; cases h'; rfl
      · intro _ _ _ h'
        dsimp only at h'
        split_ifs at h'
  · -- after the polling loop
    simp only [step, recvStep] at hs
    split at hs
    · split_ifs at hs <;>
        (cases hs; exact ⟨hlanded, fun _ _ h' => by (cases h'), fun _ _ _ h' => by (cases h')⟩)
    · cases hs; exact ⟨hlanded, fun _ _ h' => by (cases h'), fun _ _ _ h' => by (cases h')⟩
    · cases hs; exact ⟨hlanded, fun _ _ h' => by (cases h'), fun _ _ _ h' => by (cases h')⟩
    · cases hs

theorem detected_of_whole {size pos : UInt64} (hpow : powerOfTwo size = true)
    (hfits : p.length + 16 ≤ size.toNat) (hV : ¬ V <+: p) {acts : List Act}
    (hacts : Along step (fun s a => Only p s a ∧ Whole p a) (start size pos) acts) :
    AllStates step (Detected pos p) (start size pos) acts := by
  refine allStates_of_along
    (I := fun s => Inv pos.toNat s ∧ SentOnly p s ∧ s.size = size ∧ WholeOk p s) ?_ ?_
    ⟨⟨_, _, _, _, inv_start hpow pos⟩, Or.inl rfl, rfl, ?_⟩ hacts
  · rintro s ⟨⟨F, Z, A, C, h⟩, hsent, -⟩
    exact h.detected hsent
  · rintro s a s' ⟨⟨F, Z, A, C, h⟩, hsent, rfl, hw⟩ ha hs
    obtain ⟨hinv, hsent', hsize⟩ := step_only h hsent hfits ha.1
      (fun _ _ => hw.trailerClean h hsent hfits hV) hs
    exact ⟨hinv, hsent', hsize, step_wholeOk hw h hsent hfits ha.2 hs⟩
  · exact ⟨by simp [start], fun _ _ h => by (cases h), fun _ _ _ h => by (cases h)⟩

end

end

/-! ## Schedules that go wrong -/

/-- `p` is sent and arrives. -/
def arrive (p : List UInt8) : List Act := [.send p, .sender, .sender, .land (p.length + 16)]

/-- The receiver loads the bytes `is` of the length, then `p` arrives. -/
def loadThenArrive (is : List ℕ) (p : List UInt8) : List Act :=
  [.receive none, .load is] ++ arrive p

section
variable {size pos : UInt64} {p : List UInt8}

theorem step_send {s : State} (hpc : s.sendPc = .idle) (hfits : p.length + 16 ≤ s.size.toNat) :
    ∃ m, step s (.send p) = some { s with
      conn := { s.conn with sendBuf := m }
      sendPc := .waitUntilSendFree (UInt64.ofNat (p.length + 16)), sent := s.sent ++ [p] } := by
  have hsize : 8 + lengthOf p + 8 = UInt64.ofNat (p.length + 16) := frameSize _
  have hle : ¬ UInt64.ofNat (p.length + 16) > s.size := hsize ▸ not_frameSize_gt hfits
  refine ⟨(send s p).conn.sendBuf, ?_⟩
  simp only [step, hpc, send, hsize, if_neg hle]

theorem step_post {s : State} {sizeToWrite : UInt64} (hpc : s.sendPc = .post sizeToWrite) :
    step s .sender = some { s with
      conn := { s.conn with sq := s.conn.sq ++ [.write (writeRequest s sizeToWrite)] }
      sendPc :=
        if (writeRequest s sizeToWrite).signaled then .waitForCompletion .getEvent sizeToWrite
        else .advance sizeToWrite } := by
  simp only [step, sendStep, hpc]

/-- The state after an early load and the arrival of `p`. -/
theorem run_loadThenArrive (hpow : powerOfTwo size = true) (hfits : p.length + 16 ≤ size.toNat)
    (pos : UInt64) (is : List ℕ) {pc : RecvPc}
    (hpc : poll validity (fun _ _ => 0) is (.size none .empty) = some pc) :
    ∃ s, run step (start size pos) (loadThenArrive is p) = some s ∧ Inv pos.toNat s ∧
      Arrived s ∧ s.sent = [p] ∧ s.received = [] ∧ s.recvPc = pc := by
  have htoNat : (UInt64.ofNat (p.length + 16)).toNat = p.length + 16 :=
    toNat_frameSize hfits
  -- one state for each step
  let s₀ : State := { start size pos with recvPc := .size none .empty }
  let s₁ : State := { start size pos with recvPc := pc }
  have e₀ : step (start size pos) (.receive none) = some s₀ := rfl
  have e₁ : step s₀ (.load is) = some s₁ := by
    change (poll validity (fun _ _ => 0) is (.size none .empty)).map _ = _
    rw [hpc]; rfl
  obtain ⟨m, e₂⟩ := step_send (s := s₁) rfl hfits
  set s₂ : State := { s₁ with
    conn := { s₁.conn with sendBuf := m }
    sendPc := .waitUntilSendFree (UInt64.ofNat (p.length + 16)), sent := s₁.sent ++ [p] }
  let s₃ : State := { s₂ with sendPc := .post (UInt64.ofNat (p.length + 16)) }
  have e₃ : step s₂ .sender = some s₃ := by
    have hroom : ¬ UInt64.ofNat (p.length + 16) > size - (pos - pos) := by
      rw [show size - (pos - pos) = size by simp, gt_iff_lt, UInt64.lt_iff_toNat_lt, htoNat]
      exact Nat.not_lt.2 hfits
    simp only [step, sendStep, s₂]
    exact if_neg hroom
  have e₄ := step_post (s := s₃) rfl
  set s₄ : State := { s₃ with
    conn := { s₃.conn with
      sq := s₃.conn.sq ++ [.write (writeRequest s₃ (UInt64.ofNat (p.length + 16)))] }
    sendPc := if (writeRequest s₃ (UInt64.ofNat (p.length + 16))).signaled
      then .waitForCompletion .getEvent (UInt64.ofNat (p.length + 16))
      else .advance (UInt64.ofNat (p.length + 16)) } with hs₄
  let w := writeRequest s₃ (UInt64.ofNat (p.length + 16))
  let s₅ : State := { s₄ with conn := { s₄.conn with
    receiveBuf := Mem.write s₄.phys s₄.conn.receiveBuf w.remoteOff
      (w.bytes s₄.phys s₄.conn.sendBuf (p.length + 16))
    sq := [.write (w.drop (p.length + 16))] } }
  have e₅ : step s₄ (.land (p.length + 16)) = some s₅ := by
    have hk : p.length + 16 ≤ w.length := htoNat.ge
    change ((if p.length + 16 ≤ w.length then some _ else none : Option Conn).map _) = _
    rw [if_pos hk]; rfl
  refine ⟨s₅, ?_, ?_, ⟨?_, ?_⟩, rfl, rfl, rfl⟩
  · rw [loadThenArrive, arrive]
    simp only [List.cons_append, List.nil_append]
    rw [run_cons e₀, run_cons e₁, run_cons e₂, run_cons e₃, run_cons e₄, run_cons e₅]; rfl
  · obtain ⟨_, _, _, _, h₀⟩ := step_inv (a := .receive none) (inv_start hpow pos)
      trivial trivial (by simp) e₀
    obtain ⟨_, _, _, _, h₁⟩ := step_inv (a := .load is) h₀ trivial trivial (fun _ _ => trivial) e₁
    obtain ⟨_, _, _, _, h₂⟩ := step_inv (a := .send p) h₁ hfits
      (h₁.fillSafe_of_nil rfl _) (by simp) e₂
    obtain ⟨_, _, _, _, h₃⟩ := step_inv (a := .sender) h₂ trivial trivial (by simp) e₃
    obtain ⟨_, _, _, _, h₄⟩ := step_inv (a := .sender) h₃ trivial trivial (by simp) e₄
    exact step_inv (a := .land (p.length + 16)) h₄ trivial trivial (by simp) e₅
  · intro w' hw'
    have : w' = w.drop (p.length + 16) := by simpa [s₅] using hw'
    have hlen : w.length = p.length + 16 := htoNat
    rw [this]
    simp [Write.drop, hlen]
  · change match s₄.sendPc with
      | .idle | .waitForCompletion _ _ | .advance _ => True
      | .waitUntilSendFree _ | .pollRead _ | .post _ => False
    rw [hs₄]
    dsimp only
    split_ifs <;> trivial

theorem along_loadThenArrive (is : List ℕ) {rest : List Act} {C : State → Act → Prop}
    (hpre : ∀ s, C s (.receive none) ∧ C s (.load is)) (hsend : ∀ s, s.sent = [] → C s (.send p))
    (hmid : ∀ s, C s .sender ∧ C s (.land (p.length + 16))) (hrest : ∀ a ∈ rest, ∀ s, C s a) :
    Along step C (start size pos) (loadThenArrive is p ++ rest) := by
  rw [loadThenArrive, List.append_assoc]
  refine Along.append (along_of_forall ?_) ?_
  · simp only [List.mem_cons, List.not_mem_nil, or_false, forall_eq_or_imp, forall_eq]
    exact ⟨fun s => (hpre s).1, fun s => (hpre s).2⟩
  · intro s hs
    have hsent : s.sent = [] := by
      have hrecv : step (start size pos) (.receive none) =
          some { start size pos with recvPc := .size none .empty } := rfl
      rw [run_cons hrecv, run] at hs
      cases hload : step { start size pos with recvPc := .size none .empty } (.load is) with
      | none => rw [hload] at hs; cases hs
      | some s' =>
        rw [hload] at hs
        cases hs
        rcases (step_frame hload).2.1 with he | ⟨_, he, -⟩
        · exact he
        · cases he
    rw [arrive, List.cons_append, Along]
    cases step s (.send p) with
    | none => trivial
    | some s' =>
      refine ⟨hsend s hsent, along_of_forall ?_⟩
      intro a ha s
      simp only [List.cons_append, List.nil_append, List.mem_cons] at ha
      rcases ha with rfl | rfl | rfl | ha
      · exact (hmid s).1
      · exact (hmid s).1
      · exact (hmid s).2
      · exact hrest a ha s

/-- The rest of a call in which a length `n` points to a trailer inside the payload: it
    returns only `n` bytes. -/
theorem not_detected_of_check {s : State} {F : List (List UInt8)} {Z A C n : ℕ}
    (h : InvAt pos.toNat F Z A C s) (ha : Arrived s) (hsent : s.sent = [p]) (hrec : s.received = [])
    (hpc : s.recvPc = .check none (UInt64.ofNat n) .empty) (hV : V <+: p.drop n) :
    ∃ s', run step s [.load (List.range 8), .receiver, .receiver, .receiver] = some s' ∧
      ¬ Detected pos p s' := by
  obtain ⟨hp, hfits⟩ := h.found_of_arrived ha hsent hrec
  have hZ := h.recv.cleared (by simp [hpc])
  have hlt : n + 8 ≤ p.length := by
    have := hV.length_le
    rw [length_trailer, List.length_drop] at this
    omega
  have hn : (UInt64.ofNat n).toNat = n :=
    toNat_length (show n + 16 ≤ s.size.toNat by omega)
  have hword : s.wordAt (8 + (UInt64.ofNat n).toNat) = V := by
    rw [hn]
    exact h.wordAt_trailer hZ hp (hV.trans (List.prefix_append _ _)) (by omega)
  obtain ⟨s', hrun, hrec', -⟩ := run_check hpc hword (by simp)
  refine ⟨s', hrun, ?_⟩
  intro hd
  rw [hrec, List.nil_append, hn] at hrec'
  rcases hd.1 with ⟨he, -⟩ | ⟨he, -⟩
  · rw [hrec'] at he; cases he
  · rw [hrec'] at he
    have := congrArg List.length (List.singleton_inj.1 he)
    rw [Mem.length_read] at this
    omega

/-- A payload that begins with the trailer arrives between the two loads. -/
theorem whole_of_detected (hpow : powerOfTwo size = true) (hfits : p.length + 16 ≤ size.toNat)
    (h : ∀ acts, Along step (fun s a => Only p s a ∧ Whole p a) (start size pos) acts →
      AllStates step (Detected pos p) (start size pos) acts) : ¬ V <+: p := by
  intro hV
  have hpoll : poll validity (fun _ _ => 0) (List.range 8) (.size none .empty) =
      some (.check none (UInt64.ofNat 0) .empty) := by
    simp only [poll, Load.word_take_range]; rfl
  obtain ⟨s, hrun, ⟨F, Z, A, C, hinv⟩, ha, hsent, hrec, hpc⟩ :=
    run_loadThenArrive hpow hfits pos (List.range 8) hpoll
  obtain ⟨s', hrun', hbad⟩ := not_detected_of_check hinv ha hsent hrec hpc hV
  refine hbad ((h _ (along_loadThenArrive _ (fun s => ⟨⟨trivial, trivial⟩, trivial, rfl⟩)
    (fun s hs => ⟨⟨rfl, hs⟩, trivial⟩) (fun s => ⟨⟨trivial, trivial⟩, trivial, rfl⟩) ?_)).last
    ((run_append hrun _).trans hrun'))
  simp [Only, Whole]

/-- The bytes of the length that are missing in `bs` are loaded before `p` arrives, the
    others after. -/
theorem clean_of_detected (hpow : powerOfTwo size = true) (hfits : p.length + 16 ≤ size.toNat)
    (h : ∀ acts, Along step (Only p) (start size pos) acts →
      AllStates step (Detected pos p) (start size pos) acts) : Clean V p := by
  intro bs hmask hV
  have hl : bs.length = 8 := hmask.length_eq.trans (Bytes.length_le64 _)
  by_cases hzero : ∀ b ∈ bs, b = 0
  · rw [Bytes.ofLE_eq_zero hzero] at hV
    exact whole_of_detected hpow hfits
      (fun acts hacts => h acts (hacts.imp fun _ _ hC => hC.1)) hV
  push Not at hzero
  obtain ⟨b, hb, hb0⟩ := hzero
  obtain ⟨j, hj, rfl⟩ := List.getElem_of_mem hb
  -- the early load is incomplete
  let is := (List.range 8).filter fun i => bs.getD i 0 = 0
  let got := Load.empty.take is fun _ => 0
  have hgot : ∀ i, got i = if i ∈ is then some 0 else none := by
    intro i
    simp only [got, Load.take, Load.empty, and_true]
  have hword : got.word = none := by
    refine if_neg ?_
    intro hall
    have hsome := List.all_eq_true.1 hall j (List.mem_range.2 (by omega))
    rw [hgot, if_neg (by simp [is, hb0, hj])] at hsome
    cases hsome
  have hpoll : poll validity (fun _ _ => 0) is (.size none .empty) = some (.size none got) := by
    simp only [poll]; rw [hword]
  obtain ⟨s, hrun, ⟨F, Z, A, C, hinv⟩, ha, hsent, hrec, hpc⟩ :=
    run_loadThenArrive hpow hfits pos is hpoll
  obtain ⟨hp, -⟩ := hinv.found_of_arrived ha hsent hrec
  have hbs : (List.range 8).map (fun i =>
      (got i).getD (s.conn.receiveBuf (s.phys (s.startOfRead + 0 + i)))) = bs := by
    have hlen := hinv.wordAt_length (hinv.recv.cleared (by simp [hpc])) hp
    refine List.ext_getElem (by simp [hl]) ?_
    intro i hi hi'
    have hi8 : i < 8 := by omega
    have hcell : s.conn.receiveBuf (s.phys (s.startOfRead + 0 + i)) =
        (Bytes.le64 p.length)[i] := by
      simp only [← hlen, State.wordAt, List.getElem_map, List.getElem_range]
    have his : i ∈ is ↔ bs[i] = 0 := by
      simp [is, hi8, List.getD_eq_getElem?_getD, List.getElem?_eq_getElem hi']
    rw [List.getElem_map, List.getElem_range, hgot, hcell]
    by_cases h0 : bs[i] = 0
    · rw [if_pos (his.2 h0), h0]; rfl
    · rw [if_neg (mt his.1 h0)]
      rcases (List.forall₂_iff_get.1 hmask).2 i hi' (by simpa using hi8) with he | he
      · exact absurd he h0
      · exact he.symm
  have hload := step_load_size hpc hbs
  obtain ⟨_, _, _, _, hinv'⟩ := step_inv (a := .load (List.range 8)) hinv trivial trivial
    (fun _ _ => by rw [hpc]; trivial) hload
  obtain ⟨s', hrun', hbad⟩ := not_detected_of_check hinv' ha hsent hrec rfl hV
  refine hbad ((h _ (along_loadThenArrive _ (fun s => ⟨trivial, trivial⟩) (fun s hs => ⟨rfl, hs⟩)
    (fun s => ⟨trivial, trivial⟩) ?_)).last
    ((run_append hrun (.load (List.range 8) :: _)).trans ((run_cons hload _).trans hrun')))
  simp [Only]

end

/-- **Detection depends on the payload.**  In every schedule a message is detected iff no
    incomplete length points to a trailer in it; if messages arrive at one point and loads
    are whole, iff it does not begin with one. -/
theorem detection_iff {size : UInt64} (hpow : powerOfTwo size = true) (pos : UInt64)
    {p : List UInt8} (hfits : p.length + 16 ≤ size.toNat) :
    ((∀ acts, Along step (Only p) (start size pos) acts →
        AllStates step (Detected pos p) (start size pos) acts) ↔ Clean V p) ∧
      ((∀ acts, Along step (fun s a => Only p s a ∧ Whole p a) (start size pos) acts →
        AllStates step (Detected pos p) (start size pos) acts) ↔ ¬ V <+: p) :=
  ⟨⟨clean_of_detected hpow hfits, fun hc _ => detected_of_clean hpow hfits hc⟩,
    whole_of_detected hpow hfits, fun hV _ => detected_of_whole hpow hfits hV⟩

/-- A payload with the trailer in a place where no length points. -/
theorem detection_inside :
    Clean V (0 :: V) ∧ ∀ acts, Along step (Only (0 :: V)) (start 4096 0) acts →
      AllStates step (Detected 0 (0 :: V)) (start 4096 0) acts :=
  have h : Clean V (0 :: V) := by
    intro bs hmask hV
    have hle := Masked.ofLE_le hmask
    -- only the lowest byte of the length 9 can be missing
    obtain ⟨b, bs', hb, -, rfl⟩ := List.forall₂_cons_right_iff.1 hmask
    rw [Bytes.ofLE] at hle hV
    rcases hb with rfl | rfl
    · rw [show (0 : UInt8).toNat + 256 * Bytes.ofLE bs' = 0 by
        have : (0 : UInt8).toNat = 0 := rfl
        have : (0 :: V).length = 9 := rfl
        omega] at hV
      exact absurd hV (by decide)
    · rw [List.drop_eq_nil_of_le (by exact Nat.le_add_right 9 _)] at hV
      exact absurd hV (by decide)
  ⟨h, (detection_iff (by decide) 0 (by decide)).1.2 h⟩

/-- The receiver loads a zero length, then the message `V` arrives, then the receiver
    loads the trailer. -/
def between : List Act :=
  [.receive none, .load (List.range 8), .send V, .sender, .sender, .land 24, .load (List.range 8),
    .receiver, .receiver, .receiver]

/-- `receive` returns an empty message. -/
theorem between_undetected :
    powerOfTwo 4096 = true ∧ V.length + 16 ≤ 4096 ∧
      Along step (fun s a => Only V s a ∧ Whole V a) (init 4096) between ∧
      ¬ AllStates step (Detected 0 V) (init 4096) between := by
  refine ⟨by decide, by decide, ?_, ?_⟩
  · exact along_loadThenArrive (p := V) (List.range 8)
      (fun s => ⟨⟨trivial, trivial⟩, trivial, rfl⟩) (fun s hs => ⟨⟨rfl, hs⟩, trivial⟩)
      (fun s => ⟨⟨trivial, trivial⟩, trivial, rfl⟩) (by simp [Only, Whole])
  · intro h
    have hrun : (run step (init 4096) between).map (·.received) = some [[]] := by decide +kernel
    obtain ⟨s, hs, he⟩ := Option.map_eq_some_iff.1 hrun
    rcases (h.last hs).1 with ⟨h0, -⟩ | ⟨h1, -⟩
    · rw [he] at h0; cases h0
    · rw [he] at h1; exact absurd h1 (by decide)

end VirtualRDMARingBuffer

end L5RDMA
