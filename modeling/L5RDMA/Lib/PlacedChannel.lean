/-
  A channel whose messages are sent with two writes, the second of which is the
  length; the bytes of each write arrive in any order.

  The first write of a message holds the payload and the trailer.  A receiver
  that finds the trailer where the length points has therefore the whole
  message, but for zero bytes of the length: those may arrive when the message
  has long been cleared (`Found`).

  * `detect`: what a polling receiver finds;
  * `Inv`: the invariant of the channel, in terms of the messages with a place in
    the ring (`F`), received (`G`) and cleared (`H`), of the progress of their
    writes, and of the position up to which the sender knows the ring to be read
    (`C`);
  * `RecvOk`: what the receiver knows; one lemma for each kind of step.
-/
import L5RDMA.Lib.Placement

namespace Placement

open Verbs Channel Frame
open Ring (Maps)

/-! ## The writes of a stream -/

/-- The writes of the messages `F`, the first of which starts at position `B`. -/
def parts (V : List UInt8) (B : ℕ) : List (List UInt8) → List Region
  | [] => []
  | p :: F =>
    ⟨B + 8, p.length + V.length⟩ :: ⟨B, 8⟩ :: parts V (B + (8 + p.length + V.length)) F

section
variable {V : List UInt8} {B : ℕ} {F G T : List (List UInt8)} {p : List UInt8} {q : ℕ}
  {L : ℕ → Prop}

theorem endPos_cons : endPos V B (p :: F) = endPos V (B + (8 + p.length + V.length)) F := by
  simp only [endPos, List.flatMap_cons, List.length_append, length_frame]
  omega

theorem parts_append : parts V B (F ++ T) = parts V B F ++ parts V (endPos V B F) T := by
  induction F generalizing B with
  | nil => rfl
  | cons p F ih => rw [List.cons_append, parts, parts, ih, endPos_cons]; rfl

theorem exists_mem_parts : (∃ r ∈ parts V B F, q ∈ r) ↔ B ≤ q ∧ q < endPos V B F := by
  induction F generalizing B with
  | nil => simp [parts, endPos]
  | cons p F ih =>
    have hle := base_le_endPos V (B + (8 + p.length + V.length)) F
    rw [endPos_cons]
    constructor
    · rintro ⟨r, hr, hq⟩
      rcases List.mem_cons.1 hr with rfl | hr
      · have h1 : B + 8 ≤ q := hq.1
        have h2 : q < B + 8 + (p.length + V.length) := hq.2
        omega
      · rcases List.mem_cons.1 hr with rfl | hr
        · have h1 : B ≤ q := hq.1
          have h2 : q < B + 8 := hq.2
          omega
        · have := ih.1 ⟨r, hr, hq⟩
          omega
    · rintro ⟨hB, hq⟩
      rcases Nat.lt_or_ge q (B + 8) with h | h
      · exact ⟨⟨B, 8⟩, by simp [parts], hB, h⟩
      · rcases Nat.lt_or_ge q (B + 8 + (p.length + V.length)) with h' | h'
        · exact ⟨⟨B + 8, p.length + V.length⟩, by simp [parts], h, h'⟩
        · obtain ⟨r, hr, hqr⟩ := (ih (B := B + (8 + p.length + V.length))).2 ⟨by omega, hq⟩
          exact ⟨r, by simp [parts, hr], hqr⟩

theorem pairwise_parts : (parts V B F).Pairwise Region.Apart := by
  induction F generalizing B with
  | nil => exact List.Pairwise.nil
  | cons p F ih =>
    -- the regions of the later messages start behind these
    have hlater : ∀ r ∈ parts V (B + (8 + p.length + V.length)) F, ∀ q ∈ r,
        B + (8 + p.length + V.length) ≤ q :=
      fun r hr q hq => (exists_mem_parts.1 ⟨r, hr, hq⟩).1
    refine List.pairwise_cons.2 ⟨?_, List.pairwise_cons.2 ⟨?_, ih⟩⟩
    · intro r hr q hq hqr
      have h1 : B + 8 ≤ q := hq.1
      have h2 : q < B + 8 + (p.length + V.length) := hq.2
      rcases List.mem_cons.1 hr with rfl | hr
      · have h3 : q < B + 8 := hqr.2
        omega
      · have := hlater r hr q hqr
        omega
    · intro r hr q hq hqr
      have h2 : q < B + 8 := hq.2
      have := hlater r hr q hqr
      omega

/-- When anything of the later messages has arrived, all of the earlier ones has. -/
theorem arrived_before (h : InOrder L (parts V B (G ++ T))) (hq : L q)
    (hle : endPos V B G ≤ q) (hlt : q < endPos V B (G ++ T)) :
    ∀ q', B ≤ q' → q' < endPos V B G → L q' := by
  intro q' hB hq'
  rw [endPos_append] at hlt
  have hT : ∃ r ∈ parts V (endPos V B G) T, q ∈ r := exists_mem_parts.2 ⟨hle, by
    rw [endPos]; exact hlt⟩
  obtain ⟨r, hr, hqr⟩ := hT
  obtain ⟨r', hr', hqr'⟩ := (exists_mem_parts (V := V) (F := G)).2 ⟨hB, hq'⟩
  exact h _ _ parts_append ⟨r, hr, q, hqr, hq⟩ r' hr' q' hqr'

/-- When anything of the length of a message has arrived, so has the rest of it. -/
theorem arrived_data (h : InOrder L (parts V B (G ++ p :: T))) {i : ℕ} (hi : i < 8)
    (hL : L (endPos V B G + i)) :
    ∀ j, 8 ≤ j → j < 8 + p.length + V.length → L (endPos V B G + j) := by
  intro j hj hj'
  have hsplit : parts V B (G ++ p :: T) =
      (parts V B G ++ [⟨endPos V B G + 8, p.length + V.length⟩]) ++
        (⟨endPos V B G, 8⟩ ::
          parts V (endPos V B G + (8 + p.length + V.length)) T) := by
    rw [parts_append, parts, List.append_assoc, List.singleton_append]
  refine h _ _ hsplit ⟨⟨endPos V B G, 8⟩, List.mem_cons_self, _, ?_, hL⟩
    ⟨endPos V B G + 8, p.length + V.length⟩ (by simp) _ ?_
  · exact ⟨Nat.le_add_right _ _, Nat.add_lt_add_left hi _⟩
  · exact ⟨Nat.add_le_add_left hj _, by dsimp only; omega⟩

/-! ## Finding the end of a message -/

/-- The next message after those of `G` is `p`, and all its bytes have arrived that are not
    zero. -/
def Found (V : List UInt8) (B : ℕ) (F G : List (List UInt8)) (L : ℕ → Prop) (p : List UInt8) :
    Prop :=
  G ++ [p] <+: F ∧ ∀ (j : ℕ) b, (frame V p)[j]? = some b → L (endPos V B G + j) ∨ b = 0

/-- **Detection.**  A receiver after the messages `G` that has loaded the bytes `bs` of a
    length and then the trailer where they point, which is not inside the next payload,
    has found the next message. -/
theorem detect (hV : BorderFree V) (hne : V ≠ []) (hz : (0 : UInt8) ∉ V) (hG : G <+: F)
    (hord : InOrder L (parts V B F)) (hL : ∀ q, L q → q < endPos V B F) {bs : List UInt8}
    (hF : ∀ p T, F = G ++ p :: T → ¬ V <+: p.drop (Bytes.ofLE bs)) (hbs : bs.length = 8)
    (hlen : ∀ (i : ℕ) b, bs[i]? = some b → Seen (stream V B F) L (endPos V B G + i) b)
    (htr : ∀ (i : ℕ) b, V[i]? = some b →
      Seen (stream V B F) L (endPos V B G + (8 + Bytes.ofLE bs + i)) b) :
    ∃ p, Found V B F G L p ∧ Bytes.ofLE bs = p.length := by
  have htr' : ∀ (i : ℕ) b, V[i]? = some b → L (endPos V B G + (8 + Bytes.ofLE bs + i)) ∧
      b = stream V B F (endPos V B G + (8 + Bytes.ofLE bs + i)) := by
    intro i b hb
    rcases htr i b hb with rfl | h
    · exact absurd (List.mem_of_getElem? hb) hz
    · exact h
  have hpos : 0 < V.length := List.length_pos_of_ne_nil hne
  have h0 := hL _ (htr' 0 V[0] (List.getElem?_eq_getElem hpos)).1
  obtain ⟨p, T, rfl⟩ := exists_next hG le_rfl (show endPos V B G < endPos V B F by omega)
  have hmask : Masked bs (Bytes.le64 p.length) :=
    masked_of_stream hbs fun i b hb => (hlen i b hb).imp_right And.right
  have hn := hmask.ofLE_le
  have hmatch : V <+: (frame V p).drop (8 + Bytes.ofLE bs) := by
    rw [List.prefix_iff_getElem?]
    intro i hi
    have hj : 8 + Bytes.ofLE bs + i < (frame V p).length := by rw [length_frame]; omega
    rw [List.getElem?_drop, List.getElem?_eq_getElem hj,
      (htr' i V[i] (List.getElem?_eq_getElem hi)).2,
      stream_frame V (List.getElem?_eq_getElem hj)]
  have heq := trailer_at hV hne hn (hF p T rfl) hmatch
  refine ⟨p, ⟨⟨T, by simp⟩, ?_⟩, heq⟩
  have hle : bs = Bytes.le64 p.length := by
    refine Bytes.ofLE_inj (by simp [hbs]) ?_
    have hlt := Bytes.ofLE_lt bs
    rw [hbs] at hlt
    rw [heq] at hlt ⊢
    rw [Bytes.ofLE_le64 (by norm_num at hlt ⊢; exact hlt)]
  intro j b hb
  have hjl := (List.getElem?_eq_some_iff.1 hb).1
  rw [length_frame] at hjl
  rcases Nat.lt_or_ge j 8 with hj | hj
  · -- the length
    rw [frame, List.append_assoc, List.getElem?_append_left (by simpa using hj), ← hle] at hb
    rcases hlen j b hb with h | h
    · exact Or.inr h
    · exact Or.inl h.1
  · left
    by_cases hall : ∀ b ∈ bs, b = 0
    · -- an empty message: the rest of it is the trailer
      have hempty : p.length = 0 := by rw [← heq, Bytes.ofLE_eq_zero hall]
      rw [hempty] at hjl heq
      obtain ⟨i, rfl⟩ := Nat.exists_eq_add_of_le hj
      have hi : i < V.length := by omega
      have := (htr' i V[i] (List.getElem?_eq_getElem hi)).1
      rwa [heq, Nat.add_zero] at this
    · push Not at hall
      obtain ⟨c, hc, hne⟩ := hall
      obtain ⟨i, hi⟩ := List.mem_iff_getElem?.1 hc
      have hi8 := (List.getElem?_eq_some_iff.1 hi).1
      rw [hbs] at hi8
      exact arrived_data hord hi8 ((hlen i c hi).resolve_left hne).1 j hj hjl

end

/-! ## The invariant -/

structure Inv (v : UInt64) (phys : ℕ → ℕ) (n B : ℕ) (F G H : List (List UInt8)) (t : Progress)
    (c : Conn) (C : ℕ) : Prop where
  received : G <+: H
  cleared : H <+: F
  fits : ∀ p ∈ F, p.length + 16 ≤ n
  regions : t.regions = parts (trailer v) B F
  queue : List.Forall₂ (Carries phys n (stream (trailer v) B F)) (pending c.sq) t.queued
  fresh : t.queued = [] → t.placed = []
  window : Patchy n (stream (trailer v) B F) c.receiveBuf (endPos (trailer v) B H) t.Arrived
  /-- what is cleared before it has arrived is zero, and of the last message -/
  late : ∀ q, B ≤ q → q < endPos (trailer v) B H → ¬ t.Arrived q →
    stream (trailer v) B F q = 0 ∧ endPos (trailer v) B H ≤ q + n
  readPos : c.readPos = UInt64.ofNat (endPos (trailer v) B G)
  remoteReadPos : c.remoteReadPos = UInt64.ofNat C
  cached : C ≤ endPos (trailer v) B G
  room : endPos (trailer v) B F ≤ C + n

/-- What the receiver knows.  It clears only the frame it is about to give back. -/
def RecvOk (v : UInt64) (B : ℕ) (F G H : List (List UInt8)) (L : ℕ → Prop) : RecvPc → Prop
  | .idle => H = G
  | .size limit got => H = G ∧ Loaded (fun off b =>
      Seen (stream (trailer v) B F) L (endPos (trailer v) B G + off) b) (.size limit got)
  | .check limit receiveSize got => H = G ∧ Loaded (fun off b =>
      Seen (stream (trailer v) B F) L (endPos (trailer v) B G + off) b)
        (.check limit receiveSize got)
  | .found _ receiveSize => H = G ∧
    ∃ p, Found (trailer v) B F G L p ∧ receiveSize = UInt64.ofNat p.length
  | .clear bytes receiveSize => H = G ∧
    Found (trailer v) B F G L bytes ∧ receiveSize = UInt64.ofNat bytes.length
  | .publish bytes receiveSize => H = G ++ [bytes] ∧ receiveSize = UInt64.ofNat bytes.length

section
variable {v : UInt64} {phys : ℕ → ℕ} {n B : ℕ} {F G H : List (List UInt8)} {t : Progress}
  {c c' : Conn} {C : ℕ}

namespace Inv

/-- A fresh channel: nothing posted, the ring zero, all counters at `B`. -/
theorem start (hs : c.sq = []) (hz : ∀ i, c.receiveBuf i = 0) (hr : c.readPos = UInt64.ofNat B)
    (hc : c.remoteReadPos = UInt64.ofNat B) :
    Inv v phys n B [] [] [] { done := [], queued := [], unposted := [], placed := [] } c B where
  received := List.nil_prefix
  cleared := List.nil_prefix
  fits := by simp
  regions := rfl
  queue := by rw [hs]; exact List.Forall₂.nil
  fresh := fun _ => rfl
  window := by
    intro q _ _
    refine Or.inr ⟨?_, hz _⟩
    rintro (⟨r, hr, -⟩ | ⟨r, hr, -⟩) <;> cases hr
  late := by
    intro q hB hq
    rw [endPos_nil] at hq
    omega
  readPos := hr
  remoteReadPos := hc
  cached := le_rfl
  room := Nat.le_add_right _ _

theorem inOrder (h : Inv v phys n B F G H t c C) : InOrder t.Arrived (parts (trailer v) B F) := by
  rw [← h.regions]
  refine t.inOrder ?_
  rw [h.regions]
  exact pairwise_parts

/-- What has arrived is part of a message. -/
theorem arrived_lt (h : Inv v phys n B F G H t c C) {q : ℕ} (hq : t.Arrived q) :
    B ≤ q ∧ q < endPos (trailer v) B F := by
  have hmem := hq.exists_mem
  rw [h.regions] at hmem
  exact exists_mem_parts.1 hmem

theorem received_prefix (h : Inv v phys n B F G H t c C) : G <+: F := h.received.trans h.cleared

/-- The messages that are not read fit the ring. -/
theorem endPos_le (h : Inv v phys n B F G H t c C) :
    endPos (trailer v) B F ≤ endPos (trailer v) B G + n :=
  h.room.trans (Nat.add_le_add_right h.cached n)

/-- An RDMA read is posted. -/
theorem postRead (h : Inv v phys n B F G H t c C) (id : UInt64) :
    Inv v phys n B F G H t { c with sq := c.sq ++ [.read id] } C :=
  { h with
    queue := by
      dsimp only
      rw [pending_append, show pending [.read id] = [] from rfl, List.append_nil]
      exact h.queue }

/-- The oldest request completes. -/
theorem complete (h : Inv v phys n B F G H t c C) (hs : c.complete = some c') :
    ∃ C', C ≤ C' ∧ Inv v phys n B F G H t c' C' := by
  have hqueue := h.queue
  obtain ⟨w, sq, hsq, hw, rfl⟩ | ⟨id, sq, hsq, rfl⟩ := Conn.complete_cases hs
  · rw [hsq, pending, if_pos hw] at hqueue
    exact ⟨C, le_rfl, { h with queue := hqueue }⟩
  · rw [hsq, pending] at hqueue
    exact ⟨endPos (trailer v) B G, h.cached,
      { h with queue := hqueue, remoteReadPos := h.readPos, cached := le_rfl
               room := h.endPos_le }⟩

/-- There is room for another message. -/
theorem extend (h : Inv v phys n B F G H t c C) {p : List UInt8} (hp : p.length + 16 ≤ n)
    (hroom : endPos (trailer v) B (F ++ [p]) ≤ C + n) :
    Inv v phys n B (F ++ [p]) G H
      { t with unposted := t.unposted ++ parts (trailer v) (endPos (trailer v) B F) [p] } c C := by
  have hg : ∀ q, B ≤ q → q < endPos (trailer v) B F →
      stream (trailer v) B F q = stream (trailer v) B (F ++ [p]) q :=
    fun q hB hq => (stream_append _ _ hB hq).symm
  refine { h with
    cleared := h.cleared.trans (List.prefix_append _ _)
    fits := ?_
    regions := ?_
    queue := ?_
    window := h.window.congr fun q _ hq => hg q (h.arrived_lt hq).1 (h.arrived_lt hq).2
    late := ?_
    room := hroom }
  · intro q hq
    rcases List.mem_append.1 hq with hq | hq
    · exact h.fits q hq
    · rw [List.mem_singleton] at hq; subst hq; exact hp
  · rw [parts_append, ← h.regions]
    exact (List.append_assoc _ _ _).symm
  · refine (List.forall₂_iff_get.1 h.queue).elim fun hlen hget =>
      List.forall₂_iff_get.2 ⟨hlen, fun i hi hi' => ?_⟩
    have hc := hget i hi hi'
    refine { hc with bytes := fun m j hj => (hc.bytes m j hj).trans ?_ }
    have hmem : ∃ r ∈ t.regions, t.queued.get ⟨i, hi'⟩ = r :=
      ⟨_, by simp [Progress.regions], rfl⟩
    obtain ⟨r, hr, he⟩ := hmem
    rw [h.regions] at hr
    rw [he] at hj ⊢
    have := exists_mem_parts.1 ⟨r, hr, (⟨Nat.le_add_right _ _, by omega⟩ : r.pos + j ∈ r)⟩
    exact hg _ this.1 this.2
  · intro q hB hq hnot
    have hlt := hq.trans_le (endPos_mono _ h.cleared B)
    rw [← hg q hB hlt]
    exact h.late q hB hq hnot

/-- The next write is posted. -/
theorem post (h : Inv v phys n B F G H t c C) {r : Region} {unposted : List Region} {w : Write}
    (hu : t.unposted = r :: unposted) (hr : 0 < r.len)
    (hw : Carries phys n (stream (trailer v) B F) w r) :
    Inv v phys n B F G H { t with queued := t.queued ++ [r], unposted := unposted }
      { c with sq := c.sq ++ [.write w] } C := by
  have harr : ∀ q, Progress.Arrived { t with queued := t.queued ++ [r], unposted := unposted } q ↔
      t.Arrived q := fun q => Progress.arrived_post h.fresh
  refine { h with
    regions := ?_
    queue := ?_
    fresh := fun hnil => by simp at hnil
    window := h.window.congr_arrived harr
    late := fun q hB hq hnot => h.late q hB hq fun ha => hnot ((harr q).2 ha) }
  · rw [← h.regions, Progress.regions, Progress.regions, hu]
    simp
  · dsimp only
    have hlen : ¬ w.length = 0 := by rw [hw.length]; omega
    rw [pending_append, pending, if_neg hlen]
    exact List.rel_append h.queue (List.Forall₂.cons hw List.Forall₂.nil)

/-- A position that has not arrived keeps those of later messages from arriving. -/
theorem not_arrived_later (h : Inv v phys n B F G H t c C) {q : ℕ} (hB : B ≤ q)
    (hq : q < endPos (trailer v) B H) (hnot : ¬ t.Arrived q) :
    ∀ q', endPos (trailer v) B H ≤ q' → ¬ t.Arrived q' := by
  obtain ⟨T, rfl⟩ := h.cleared
  intro q' hle harr
  exact hnot (arrived_before h.inOrder harr hle (h.arrived_lt harr).2 q hB hq)

/-- **A byte arrives.** -/
theorem land (h : Inv v phys n B F G H t c C) {i : ℕ} {placed : List ℕ}
    (hs : land phys c t.placed i = some (c', placed)) :
    ∃ t', Inv v phys n B F G H t' c' C ∧ t'.placed = placed ∧ t'.unposted = t.unposted ∧
      ∀ q, t.Arrived q → t'.Arrived q := by
  obtain ⟨⟨w, sq, placed'⟩, hplace, he⟩ := Option.map_eq_some_iff.1 hs
  cases he
  obtain ⟨hi, hnew, rest, hrest, hor⟩ := place_spec hplace
  have hqueue := h.queue
  rw [hrest] at hqueue
  cases hqueued : t.queued with
  | nil => rw [hqueued] at hqueue; cases hqueue
  | cons r rs =>
    rw [hqueued] at hqueue
    obtain ⟨hcar, hcars⟩ := List.forall₂_cons.1 hqueue
    have hil : i < r.len := hcar.length ▸ hi
    have hmem : r ∈ t.regions := by simp [Progress.regions, hqueued]
    have hx : r.pos + i ∈ r := ⟨Nat.le_add_right _ _, Nat.add_lt_add_left hil _⟩
    have hpos : B ≤ r.pos + i ∧ r.pos + i < endPos (trailer v) B F := by
      rw [h.regions] at hmem
      exact exists_mem_parts.1 ⟨r, hmem, hx⟩
    -- it arrives for the first time
    have hnot : ¬ t.Arrived (r.pos + i) := by
      have hapart : t.regions.Pairwise Region.Apart := by rw [h.regions]; exact pairwise_parts
      rw [Progress.regions, List.append_assoc, hqueued] at hapart
      rintro (⟨d, hd, hqd⟩ | ⟨d, hd, j, hj, -, he⟩)
      · exact (List.pairwise_append.1 hapart).2.2 d hd r (by simp) _ hqd hx
      · rw [hqueued] at hd
        cases hd
        obtain rfl : i = j := by omega
        exact hnew hj
    have hwindow : ∀ L' : ℕ → Prop, (∀ q, L' q ↔ t.Arrived q ∨ q = r.pos + i) →
        Patchy n (stream (trailer v) B F)
          (Mem.write phys c.receiveBuf (w.remoteOff + i) [w.byte phys c.sendBuf i])
          (endPos (trailer v) B H) L' := by
      intro L' hL'
      rw [hcar.bytes c.sendBuf i hil]
      refine h.window.place (hcar.maps i hil) ?_ ?_ hL'
      · exact (hpos.2.trans_le h.endPos_le).trans_le
          (Nat.add_le_add_right (endPos_mono _ h.received B) n)
      · intro hlt
        obtain ⟨hz, hle⟩ := h.late _ hpos.1 hlt hnot
        exact ⟨hz, hle, h.not_arrived_later hpos.1 hlt hnot _ hle⟩
    rcases hor with ⟨hsq, rfl, hall⟩ | ⟨hsq, rfl⟩
    · -- the last byte of the write
      have harr : ∀ q, Progress.Arrived
          { t with done := t.done ++ [r], queued := rs, placed := [] } q ↔
            t.Arrived q ∨ q = r.pos + i :=
        fun q => Progress.arrived_finish hqueued hil (by rw [← hcar.length]; exact hall)
      refine ⟨_, { h with
        regions := ?_
        queue := ?_
        fresh := fun _ => rfl
        window := hwindow _ harr
        late := fun q hB hq hnot => h.late q hB hq fun ha => hnot ((harr q).2 (Or.inl ha)) },
        rfl, rfl, fun q ha => (harr q).2 (Or.inl ha)⟩
      · rw [← h.regions, Progress.regions, Progress.regions, hqueued]
        simp
      · dsimp only
        rw [hsq]
        exact hcars
    · have harr : ∀ q, Progress.Arrived { t with placed := i :: t.placed } q ↔
          t.Arrived q ∨ q = r.pos + i := fun q => Progress.arrived_place hqueued hil
      refine ⟨{ t with placed := i :: t.placed }, { h with
        queue := ?_
        fresh := fun hnil => by rw [hqueued] at hnil; cases hnil
        window := hwindow _ harr
        late := fun q hB hq hnot => h.late q hB hq fun ha => hnot ((harr q).2 (Or.inl ha)) },
        rfl, rfl, fun q ha => (harr q).2 (Or.inl ha)⟩
      dsimp only
      rw [hsq, hqueued]
      exact hqueue

end Inv

/-! ## The receiver -/

theorem Seen.mono {F' : List (List UInt8)} {L L' : ℕ → Prop} {q : ℕ} {b : UInt8}
    (h : Seen (stream (trailer v) B F) L q b) (hF : F <+: F') (hL : ∀ q, L q → L' q)
    (hend : ∀ q, L q → q < endPos (trailer v) B F) (hB : B ≤ q) :
    Seen (stream (trailer v) B F') L' q b := by
  rcases h with h | ⟨hq, rfl⟩
  · exact Or.inl h
  · obtain ⟨T, rfl⟩ := hF
    exact Or.inr ⟨hL q hq, (stream_append _ _ hB (hend q hq)).symm⟩

theorem Found.mono {V : List UInt8} {F' : List (List UInt8)} {L L' : ℕ → Prop} {p : List UInt8}
    (h : Found V B F G L p) (hF : F <+: F') (hL : ∀ q, L q → L' q) : Found V B F' G L' p :=
  ⟨h.1.trans hF, fun j b hb => (h.2 j b hb).imp_left (hL _)⟩

/-- The receiver's knowledge survives further posts and arrivals. -/
theorem RecvOk.mono {F' : List (List UInt8)} {L L' : ℕ → Prop} {pc : RecvPc}
    (h : RecvOk v B F G H L pc) (hF : F <+: F') (hL : ∀ q, L q → L' q)
    (hend : ∀ q, L q → q < endPos (trailer v) B F) : RecvOk v B F' G H L' pc := by
  have hseen : ∀ off b, Seen (stream (trailer v) B F) L (endPos (trailer v) B G + off) b →
      Seen (stream (trailer v) B F') L' (endPos (trailer v) B G + off) b := by
    intro off b hb
    have hB := base_le_endPos (trailer v) B G
    exact hb.mono hF hL hend (by omega)
  cases pc with
  | idle => exact h
  | size limit got => exact ⟨h.1, fun i hi b hb => hseen _ _ (h.2 i hi b hb)⟩
  | check limit receiveSize got =>
    obtain ⟨hH, ⟨bs, hl, hn, hbs⟩, ht⟩ := h
    exact ⟨hH, ⟨bs, hl, hn, fun i b hb => hseen _ _ (hbs i b hb)⟩,
      fun i hi b hb => hseen _ _ (ht i hi b hb)⟩
  | found limit receiveSize =>
    obtain ⟨hH, p, hp, hn⟩ := h
    exact ⟨hH, p, hp.mono hF hL, hn⟩
  | clear bytes receiveSize => exact ⟨h.1, h.2.1.mono hF hL, h.2.2⟩
  | publish bytes receiveSize => exact h

/-- A load by a polling receiver: it stays inside the next frame, or sees zeros. -/
theorem Inv.load_seen (h : Inv v phys n B F G G t c C) (hn : 0 < n) {off : ℕ}
    (hoff : ∀ p T, F = G ++ p :: T → off < p.length + 16) :
    Seen (stream (trailer v) B F) t.Arrived (endPos (trailer v) B G + off)
      (c.receiveBuf ((endPos (trailer v) B G + off) % n)) := by
  refine h.window.seen hn (Nat.le_add_right _ _) ?_
  by_cases hany : ∃ q, endPos (trailer v) B G ≤ q ∧ t.Arrived q
  · left
    obtain ⟨q, hle, hq⟩ := hany
    obtain ⟨p, T, rfl⟩ := exists_next h.received_prefix le_rfl
      (hle.trans_lt (h.arrived_lt hq).2)
    have := hoff p T rfl
    have := h.fits p (by simp)
    omega
  · right
    intro q hle hq
    exact hany ⟨q, hle, hq⟩

/-- **The polling loop** finds only the next message, and only when all of it has arrived
    that is not zero. -/
theorem RecvOk.poll (hV : BorderFree (trailer v)) (hz : (0 : UInt8) ∉ trailer v)
    (h : Inv v phys n B F G H t c C) (hn : 0 < n) (hF : ∀ p ∈ F, Clean (trailer v) p)
    {byteAt : ℕ → ℕ → UInt8}
    (hbyte : ∀ off, ∀ i < 8, byteAt off i = c.receiveBuf ((endPos (trailer v) B G + off + i) % n))
    {is : List ℕ} {pc pc' : RecvPc} (hok : RecvOk v B F G H t.Arrived pc)
    (hs : poll v byteAt is pc = some pc') : RecvOk v B F G H t.Arrived pc' := by
  obtain ⟨rfl, hl⟩ : H = G ∧ Loaded (fun off b =>
      Seen (stream (trailer v) B F) t.Arrived (endPos (trailer v) B G + off) b) pc := by
    cases pc with
    | idle | found | clear | publish => cases hs
    | size limit got => exact hok
    | check limit receiveSize got => exact hok
  have hmask : ∀ bs : List UInt8, bs.length = 8 → (∀ (i : ℕ) b, bs[i]? = some b →
      Seen (stream (trailer v) B F) t.Arrived (endPos (trailer v) B H + i) b) →
      ∀ p T, F = H ++ p :: T → Masked bs (Bytes.le64 p.length) := by
    intro bs hlen hbs p T hT
    subst hT
    exact masked_of_stream hlen fun i b hb => (hbs i b hb).imp_right And.right
  have hload : ∀ i < 8, Seen (stream (trailer v) B F) t.Arrived
      (endPos (trailer v) B H + (pc.offset + i)) (byteAt pc.offset i) := by
    intro i hi
    rw [hbyte _ i hi, add_assoc]
    refine h.load_seen hn ?_
    intro p T hT
    cases pc with
    | idle | found | clear | publish => exact hl.elim
    | size limit got =>
      show 0 + i < p.length + 16
      omega
    | check limit receiveSize got =>
      obtain ⟨⟨bs, hlen, rfl, hbs⟩, -⟩ := hl
      rw [RecvPc.offset, ofLE_toNat hlen]
      have := (hmask bs hlen hbs p T hT).ofLE_le
      omega
  rcases hl.poll hload hs with hl' | ⟨limit, bs, got, rfl, rfl, hlen, hbs, htr⟩
  · cases pc' with
    | idle | found | clear | publish => exact hl'.elim
    | size limit got => exact ⟨rfl, hl'⟩
    | check limit receiveSize got => exact ⟨rfl, hl'⟩
  · obtain ⟨p, hp, hlen'⟩ := detect hV (by simp [← List.length_pos_iff]) hz h.received_prefix
      h.inOrder (fun q hq => (h.arrived_lt hq).2)
      (fun p T hT => hF p (by simp [hT]) bs (hmask bs hlen hbs p T hT)) hlen hbs htr
    exact ⟨rfl, p, hp, by rw [hlen']⟩

namespace Inv

/-- The ring holds the frame of a message that has been found. -/
theorem cell (h : Inv v phys n B F G G t c C) {p : List UInt8}
    (hp : Found (trailer v) B F G t.Arrived p) {i : ℕ} {b : UInt8}
    (hb : (frame (trailer v) p)[i]? = some b) :
    c.receiveBuf ((endPos (trailer v) B G + i) % n) = b := by
  obtain ⟨⟨T, rfl⟩, harr⟩ := hp
  have hi := (List.getElem?_eq_some_iff.1 hb).1
  have hfits := h.fits p (by simp)
  rw [length_frame, length_trailer] at hi
  have hg : stream (trailer v) B (G ++ [p] ++ T) (endPos (trailer v) B G + i) = b := by
    rw [List.append_assoc, List.singleton_append, stream_frame (trailer v) hb]
  rw [← hg]
  refine h.window.cell (Nat.le_add_right _ _) (by omega) ?_
  rw [hg]
  exact harr i b hb

/-- The payload of a message that has been found. -/
theorem payload (h : Inv v phys n B F G G t c C) {p : List UInt8}
    (hp : Found (trailer v) B F G t.Arrived p) {bytes : List UInt8}
    (hl : bytes.length = p.length)
    (hb : ∀ i < p.length,
      bytes[i]? = some (c.receiveBuf ((endPos (trailer v) B G + 8 + i) % n))) : bytes = p := by
  ext i : 1
  rcases Nat.lt_or_ge i p.length with hi | hi
  · have hf : (frame (trailer v) p)[8 + i]? = some p[i] := by
      rw [frame, List.append_assoc, List.getElem?_append_right (by simp), Bytes.length_le64,
        Nat.add_sub_cancel_left, List.getElem?_append_left hi, List.getElem?_eq_getElem hi]
    rw [hb i hi, add_assoc, h.cell hp hf, List.getElem?_eq_getElem hi]
  · rw [List.getElem?_eq_none (by omega), List.getElem?_eq_none hi]

/-- The frame of a found message is cleared; bytes of its length may still be on their way. -/
theorem clear (h : Inv v phys n B F G G t c C) (hz : (0 : UInt8) ∉ trailer v) {p : List UInt8}
    (hp : Found (trailer v) B F G t.Arrived p) {m' : Mem}
    (hclear : ∀ i < p.length + 16, m' ((endPos (trailer v) B G + i) % n) = 0)
    (ho : ∀ q, endPos (trailer v) B G + (p.length + 16) ≤ q → q < endPos (trailer v) B G + n →
      m' (q % n) = c.receiveBuf (q % n)) :
    Inv v phys n B F G (G ++ [p]) t { c with receiveBuf := m' } C := by
  obtain ⟨⟨T, hT⟩, harr⟩ := hp
  have hfits := h.fits p (by rw [← hT]; simp)
  have hF : F = G ++ p :: T := by rw [← hT, List.append_assoc, List.singleton_append]
  -- the trailer has arrived, so everything before the message has
  have hbefore : ∀ q, B ≤ q → q < endPos (trailer v) B G → t.Arrived q := by
    have hlt : 8 + p.length < (frame (trailer v) p).length := by
      rw [length_frame, length_trailer]; omega
    have hlast : t.Arrived (endPos (trailer v) B G + (8 + p.length)) := by
      refine (harr _ _ (List.getElem?_eq_getElem hlt)).resolve_right fun h0 => hz ?_
      rw [← h0]
      have hpos : 0 < (trailer v).length := by simp
      have hmem : (frame (trailer v) p)[8 + p.length] = (trailer v)[0] := by
        simp [frame, List.getElem_append_right]
      rw [hmem]
      exact List.getElem_mem _
    have hord := h.inOrder
    have hend := (h.arrived_lt hlast).2
    rw [hF] at hord hend
    exact arrived_before hord hlast (Nat.le_add_right _ _) hend
  refine { h with
    received := List.prefix_append _ _
    cleared := ⟨T, hT⟩
    window := ?_
    late := ?_ }
  · rw [endPos_found]
    refine h.window.clear ?_ hclear ho
    intro q hq ha
    exact absurd ((h.arrived_lt ha).2.trans_le h.endPos_le) (Nat.not_lt.2 hq)
  · intro q hB hq hnot
    rw [endPos_found] at hq ⊢
    rcases Nat.lt_or_ge q (endPos (trailer v) B G) with hlt | hge
    · exact absurd (hbefore q hB hlt) hnot
    · obtain ⟨i, rfl⟩ := Nat.exists_eq_add_of_le hge
      have hi : i < (frame (trailer v) p).length := by
        rw [length_frame, length_trailer]; omega
      refine ⟨?_, by omega⟩
      rw [hF, stream_frame (trailer v) (List.getElem?_eq_getElem hi)]
      exact (harr i _ (List.getElem?_eq_getElem hi)).resolve_left hnot

/-- The receiver publishes its new read position. -/
theorem publish {p : List UInt8} (h : Inv v phys n B F G (G ++ [p]) t c C) {r : UInt64}
    (hr : r = UInt64.ofNat (endPos (trailer v) B (G ++ [p]))) :
    Inv v phys n B F (G ++ [p]) (G ++ [p]) t { c with readPos := r } C :=
  { h with
    received := List.prefix_rfl
    readPos := hr
    cached := h.cached.trans (endPos_mono _ h.received B) }

end Inv

end

end Placement
