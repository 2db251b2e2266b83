/-
  A channel of framed messages: a ring in the receiver's memory that the
  sender fills with RDMA writes and that the receiver polls and clears.

  The sender stages the frames in a send buffer, posts writes that copy them
  to the receive ring, and learns with RDMA reads how far the receiver is.
  The network card moves the bytes of the posted writes front to back
  (`Conn.land`) and completes requests in order (`Conn.complete`).  The receiver
  polls the length and the trailer of the next frame with loads that may be
  torn (`poll`), takes the payload, clears the frame and moves on.

  * `Inv`: the invariant of the memories, queues and counters, in terms of the
    messages with a place in the ring (`F`) and received (`G`) and of the
    positions up to which the ring is cleared (`Z`) and has been filled (`A`),
    writes are posted (`P`), and the sender knows the ring to be read (`C`):
    `C ≤ Z ≤ A ≤ P ≤ endPos F ≤ C + n`;
  * `RecvOk`: what the receiver knows while it polls;
  * one lemma for each kind of step.
-/
import L5RDMA.Lib.Verbs

namespace Channel

open Verbs Frame Ring

/-! ## Steps -/

/-- One direction of a connection. -/
structure Conn where
  /-- the sender's staging memory -/
  sendBuf : Mem
  /-- the receiver's ring -/
  receiveBuf : Mem
  /-- the receiver's counter, which the sender fetches with RDMA reads -/
  readPos : UInt64
  /-- the sender's copy of it -/
  remoteReadPos : UInt64
  sq : List Request
  cq : CompletionQueue

/-- The next `k` bytes of the oldest write arrive. -/
def Conn.land (phys : ℕ → ℕ) (c : Conn) (k : ℕ) : Option Conn :=
  match c.sq with
  | .write w :: sq =>
    if k ≤ w.length then
      some { c with
        receiveBuf := Mem.write phys c.receiveBuf w.remoteOff (w.bytes phys c.sendBuf k)
        sq := .write (w.drop k) :: sq }
    else none
  | _ => none

/-- The oldest request completes; a read fetches the receiver's counter. -/
def Conn.complete (c : Conn) : Option Conn :=
  match c.sq with
  | .write w :: sq =>
    if w.length = 0 then
      some { c with sq := sq, cq := if w.signaled then c.cq.push w.id else c.cq }
    else none
  | .read id :: sq => some { c with sq := sq, remoteReadPos := c.readPos, cq := c.cq.push id }
  | [] => none

/-- What the network card can do to a connection. -/
theorem Conn.land_cases {phys : ℕ → ℕ} {c c' : Conn} {k : ℕ} (h : c.land phys k = some c') :
    ∃ w sq, c.sq = .write w :: sq ∧ k ≤ w.length ∧ c' = { c with
      receiveBuf := Mem.write phys c.receiveBuf w.remoteOff (w.bytes phys c.sendBuf k)
      sq := .write (w.drop k) :: sq } := by
  unfold land at h
  split at h
  next w sq hsq =>
    split_ifs at h with hk
    cases h
    exact ⟨w, sq, hsq, hk, rfl⟩
  next => cases h

/-- All of the oldest write can arrive. -/
theorem Conn.exists_land (phys : ℕ → ℕ) {c : Conn} {w : Write} {sq : List Request}
    (hsq : c.sq = .write w :: sq) : ∃ c', c.land phys w.length = some c' ∧
      c'.sq = .write (w.drop w.length) :: sq ∧ c'.cq = c.cq := by
  rw [land, hsq]
  exact ⟨_, if_pos le_rfl, rfl, rfl⟩

theorem Conn.complete_cases {c c' : Conn} (h : c.complete = some c') :
    (∃ w sq, c.sq = .write w :: sq ∧ w.length = 0 ∧
      c' = { c with sq := sq, cq := if w.signaled then c.cq.push w.id else c.cq }) ∨
    ∃ id sq, c.sq = .read id :: sq ∧
      c' = { c with sq := sq, remoteReadPos := c.readPos, cq := c.cq.push id } := by
  unfold complete at h
  split at h
  next w sq hsq =>
    split_ifs at h with hw
    all_goals
      cases h
      exact Or.inl ⟨w, sq, hsq, hw, by simp [*]⟩
  next id sq hsq =>
    cases h
    exact Or.inr ⟨id, sq, hsq, rfl⟩
  next => cases h

/-- It does not change the staging memory. -/
theorem Conn.land_sendBuf {phys : ℕ → ℕ} {c c' : Conn} {k : ℕ} (h : c.land phys k = some c') :
    c'.sendBuf = c.sendBuf := by
  obtain ⟨w, sq, -, -, rfl⟩ := land_cases h
  rfl

theorem Conn.complete_sendBuf {c c' : Conn} (h : c.complete = some c') :
    c'.sendBuf = c.sendBuf := by
  obtain ⟨w, sq, -, -, rfl⟩ | ⟨id, sq, -, rfl⟩ := complete_cases h <;> rfl

/-- The counter is the receiver's. -/
theorem Conn.land_readPos {phys : ℕ → ℕ} {c c' : Conn} {k : ℕ} (h : c.land phys k = some c') :
    c'.readPos = c.readPos := by
  obtain ⟨w, sq, -, -, rfl⟩ := land_cases h
  rfl

theorem Conn.complete_readPos {c c' : Conn} (h : c.complete = some c') :
    c'.readPos = c.readPos := by
  obtain ⟨w, sq, -, -, rfl⟩ | ⟨id, sq, -, rfl⟩ := complete_cases h <;> rfl

/-- What is queued after a request has completed was queued before. -/
theorem Conn.complete_sq {c c' : Conn} (h : c.complete = some c') {r : Request} (hr : r ∈ c'.sq) :
    r ∈ c.sq := by
  obtain ⟨w, sq, hsq, -, rfl⟩ | ⟨id, sq, hsq, rfl⟩ := complete_cases h
  all_goals
    rw [hsq]
    exact List.mem_cons_of_mem _ hr

/-- Where the receiver is: loading the length, loading the trailer, past the polling
    loop, done with the payload, done with clearing.  A call may have a limit on the
    length it accepts. -/
inductive RecvPc where
  | idle
  | size (limit : Option UInt64) (got : Load)
  | check (limit : Option UInt64) (receiveSize : UInt64) (got : Load)
  | found (limit : Option UInt64) (receiveSize : UInt64)
  | clear (bytes : List UInt8) (receiveSize : UInt64)
  | publish (bytes : List UInt8) (receiveSize : UInt64)

/-- The polling loop for the trailer `v` loads some more bytes; `byteAt off i` is byte `i`
    of the word at offset `off` from the read position. -/
def poll (v : UInt64) (byteAt : ℕ → ℕ → UInt8) (is : List ℕ) : RecvPc → Option RecvPc
  | .size limit got =>
    let got := got.take is (byteAt 0)
    match got.word with
    | none => some (.size limit got)
    | some receiveSize => some (.check limit receiveSize .empty)
  | .check limit receiveSize got =>
    let got := got.take is (byteAt (8 + receiveSize.toNat))
    match got.word with
    | none => some (.check limit receiveSize got)
    | some checkMe =>
      if checkMe = v then some (.found limit receiveSize) else some (.size limit .empty)
  | _ => none

/-! ## The invariant -/

/-- The trailer bytes of the word `v`. -/
def trailer (v : UInt64) : List UInt8 := Bytes.le64 v.toNat

@[simp] theorem length_trailer (v : UInt64) : (trailer v).length = 8 := Bytes.length_le64 _

structure Inv (v : UInt64) (phys : ℕ → ℕ) (n B : ℕ) (F G : List (List UInt8)) (c : Conn)
    (Z A P C : ℕ) : Prop where
  prefix_ : G <+: F
  fits : ∀ p ∈ F, p.length + 16 ≤ n
  feed : Feed phys n (stream (trailer v) B F) c.sendBuf A c.sq P
  posted : P ≤ endPos (trailer v) B F
  window : Window n (stream (trailer v) B F) c.receiveBuf Z A
  readPos : c.readPos = UInt64.ofNat (endPos (trailer v) B G)
  remoteReadPos : c.remoteReadPos = UInt64.ofNat C
  cached : C ≤ endPos (trailer v) B G
  cleared : endPos (trailer v) B G ≤ Z
  arrived : Z ≤ A
  room : endPos (trailer v) B F ≤ C + n

/-- The receiver has found the message `p` after those of `G`, complete. -/
def Found (v : UInt64) (B : ℕ) (F G : List (List UInt8)) (A : ℕ) (p : List UInt8) : Prop :=
  G ++ [p] <+: F ∧ endPos (trailer v) B (G ++ [p]) ≤ A

/-- What the receiver knows.  It clears only the frame it is about to give back. -/
def RecvOk (v : UInt64) (B : ℕ) (F G : List (List UInt8)) (Z A : ℕ) : RecvPc → Prop
  | .idle => Z = endPos (trailer v) B G
  | .size _ got => Z = endPos (trailer v) B G ∧
    ∀ i < 8, ∀ b, got i = some b → Seen (stream (trailer v) B F) A (endPos (trailer v) B G + i) b
  | .check _ receiveSize got => Z = endPos (trailer v) B G ∧
    (∃ bs : List UInt8, bs.length = 8 ∧ receiveSize = UInt64.ofNat (Bytes.ofLE bs) ∧
      ∀ (i : ℕ) b, bs[i]? = some b →
        Seen (stream (trailer v) B F) A (endPos (trailer v) B G + i) b) ∧
    ∀ i < 8, ∀ b, got i = some b →
      Seen (stream (trailer v) B F) A (endPos (trailer v) B G + 8 + receiveSize.toNat + i) b
  | .found _ receiveSize => Z = endPos (trailer v) B G ∧
    ∃ p, Found v B F G A p ∧ receiveSize = UInt64.ofNat p.length
  | .clear bytes receiveSize => Z = endPos (trailer v) B G ∧
    Found v B F G A bytes ∧ receiveSize = UInt64.ofNat bytes.length
  | .publish bytes receiveSize => Z = endPos (trailer v) B (G ++ [bytes]) ∧
    Found v B F G A bytes ∧ receiveSize = UInt64.ofNat bytes.length

section
variable {v : UInt64} {phys : ℕ → ℕ} {n B : ℕ} {F G : List (List UInt8)} {c c' : Conn}
  {Z A P C : ℕ}

/-- The size of a frame, in words. -/
theorem frameSize (k : ℕ) : 8 + UInt64.ofNat k + 8 = UInt64.ofNat (k + 16) := by
  rw [show (8 : UInt64) = UInt64.ofNat 8 from rfl, Pos.ofNat_add, Pos.ofNat_add]
  congr 1; omega

section
variable {size : UInt64} {k : ℕ} (h : k + 16 ≤ size.toNat)
include h

theorem toNat_frameSize : (UInt64.ofNat (k + 16)).toNat = k + 16 := by
  have := size.toNat_lt
  rw [Pos.ofNat_toNat, Nat.mod_eq_of_lt (by omega)]

theorem toNat_length : (UInt64.ofNat k).toNat = k := by
  have := size.toNat_lt
  rw [Pos.ofNat_toNat, Nat.mod_eq_of_lt (by omega)]

/-- A frame that fits passes the check of the sender. -/
theorem not_frameSize_gt : ¬ 8 + UInt64.ofNat k + 8 > size := by
  rw [gt_iff_lt, UInt64.lt_iff_toNat_lt, frameSize, toNat_frameSize h]
  exact Nat.not_lt.2 h

end

/-- One that does not is refused, unless its size wraps around. -/
theorem frameSize_gt_iff (k : ℕ) (size : UInt64) :
    8 + UInt64.ofNat k + 8 > size ↔ size.toNat < (k + 16) % 2 ^ 64 := by
  rw [gt_iff_lt, UInt64.lt_iff_toNat_lt, frameSize, Pos.ofNat_toNat]

theorem frameSize_gt {size : UInt64} {k : ℕ} (hk : k + 16 < 2 ^ 64) (h : size.toNat < k + 16) :
    8 + UInt64.ofNat k + 8 > size := by
  rwa [frameSize_gt_iff, Nat.mod_eq_of_lt hk]

theorem endPos_found (p : List UInt8) :
    endPos (trailer v) B (G ++ [p]) = endPos (trailer v) B G + (p.length + 16) := by
  rw [endPos_snoc, length_trailer]; omega

namespace Inv

theorem arrived_le (h : Inv v phys n B F G c Z A P C) : A ≤ endPos (trailer v) B F :=
  h.feed.le.trans h.posted

/-- A fresh channel: nothing posted, the ring zero, all counters at `B`. -/
theorem fresh (hs : c.sq = []) (hz : ∀ i, c.receiveBuf i = 0) (hr : c.readPos = UInt64.ofNat B)
    (hc : c.remoteReadPos = UInt64.ofNat B) : Inv v phys n B [] [] c B B B B where
  prefix_ := List.nil_prefix
  fits := by simp
  feed := by rw [hs]; rfl
  posted := le_rfl
  window := fun p hp _ => by rw [hz, if_neg (by omega)]
  readPos := hr
  remoteReadPos := hc
  cached := le_rfl
  cleared := le_rfl
  arrived := le_rfl
  room := Nat.le_add_right _ _

theorem land (h : Inv v phys n B F G c Z A P C) {k : ℕ} (hs : c.land phys k = some c') :
    Inv v phys n B F G c' Z (A + k) P C := by
  obtain ⟨w, sq, hsq, hk, rfl⟩ := Conn.land_cases hs
  have hf := h.feed
  rw [hsq] at hf
  have hmap : Maps phys n w.remoteOff A (w.bytes phys c.sendBuf k).length := by
    simpa using hf.1.mono hk
  have hend := hf.2.2.2.le.trans h.posted
  have hroom : A + (w.bytes phys c.sendBuf k).length ≤ Z + n := by
    have := h.cached
    have := h.cleared
    have := h.room
    rw [Write.length_bytes]
    omega
  have hbytes : ∀ (i : ℕ) b, (w.bytes phys c.sendBuf k)[i]? = some b →
      b = stream (trailer v) B F (A + i) := by
    intro i b hb
    obtain ⟨hi, rfl⟩ := w.bytes_get hb
    exact hf.2.2.1 i (by omega)
  have hw := h.window.land hmap hroom h.arrived hbytes
  rw [Write.length_bytes] at hw
  exact { h with feed := hf.drop hk, window := hw, arrived := le_add_right h.arrived }

theorem complete (h : Inv v phys n B F G c Z A P C) (hs : c.complete = some c') :
    ∃ C', C ≤ C' ∧ Inv v phys n B F G c' Z A P C' := by
  have hf := h.feed
  obtain ⟨w, sq, hsq, hw, rfl⟩ | ⟨id, sq, hsq, rfl⟩ := Conn.complete_cases hs
  · rw [hsq] at hf
    exact ⟨C, le_rfl, { h with feed := hf.pop hw }⟩
  · rw [hsq] at hf
    have hcached := h.cached
    have hroom := h.room
    exact ⟨endPos (trailer v) B G, hcached,
      { h with feed := hf, remoteReadPos := h.readPos, cached := le_rfl, room := by omega }⟩

/-- An RDMA read is posted. -/
theorem postRead (h : Inv v phys n B F G c Z A P C) (id : UInt64) :
    Inv v phys n B F G { c with sq := c.sq ++ [.read id] } Z A P C :=
  { h with feed := h.feed.append (show Feed _ _ _ _ P [.read id] P from rfl) }

/-- There is room for another message. -/
theorem extend (h : Inv v phys n B F G c Z A P C) {p : List UInt8} (hp : p.length + 16 ≤ n)
    (hroom : endPos (trailer v) B (F ++ [p]) ≤ C + n) : Inv v phys n B (F ++ [p]) G c Z A P C := by
  have hB : B ≤ Z := (base_le_endPos _ B G).trans h.cleared
  have hZ := h.arrived
  have hA := h.arrived_le
  have hP := h.posted
  refine { h with
    prefix_ := h.prefix_.trans (List.prefix_append _ _)
    fits := fun q hq => ?_
    feed := h.feed.congr_stream fun q hq hq' => (stream_append _ _ (by omega) (by omega)).symm
    posted := hP.trans (endPos_mono _ (List.prefix_append _ _) B)
    window := h.window.congr fun q hq hq' => (stream_append _ _ (by omega) (by omega)).symm
    room := hroom }
  rcases List.mem_append.1 hq with hq | hq
  · exact h.fits q hq
  · rw [List.mem_singleton] at hq; subst hq; exact hp

/-- Writes of the next bytes are posted. -/
theorem post (h : Inv v phys n B F G c Z A P C) {reqs : List Request} {P' : ℕ}
    (hreqs : Feed phys n (stream (trailer v) B F) c.sendBuf P reqs P')
    (hP : P' ≤ endPos (trailer v) B F) :
    Inv v phys n B F G { c with sq := c.sq ++ reqs } Z A P' C :=
  { h with feed := h.feed.append hreqs, posted := hP }

/-- The staging memory changes outside the bytes in flight. -/
theorem stage (h : Inv v phys n B F G c Z A P C) {m : Mem}
    (hm : ∀ q, A ≤ q → q < P → m (q % n) = c.sendBuf (q % n)) :
    Inv v phys n B F G { c with sendBuf := m } Z A P C :=
  { h with feed := h.feed.congr_cells hm }

end Inv

/-! ## The receiver -/

theorem seen_mono {F' : List (List UInt8)} {A' pos : ℕ} {b : UInt8}
    (h : Seen (stream (trailer v) B F) A pos b) (hF : F <+: F') (hA : A ≤ A')
    (hend : A ≤ endPos (trailer v) B F) (hB : B ≤ pos) :
    Seen (stream (trailer v) B F') A' pos b := by
  rcases h with h | ⟨hlt, rfl⟩
  · exact Or.inl h
  · obtain ⟨t, rfl⟩ := hF
    exact Or.inr ⟨by omega, (stream_append _ _ hB (by omega)).symm⟩

theorem Found.mono {F' : List (List UInt8)} {A' : ℕ} {p : List UInt8} (h : Found v B F G A p)
    (hF : F <+: F') (hA : A ≤ A') : Found v B F' G A' p :=
  ⟨h.1.trans hF, h.2.trans hA⟩

/-- The receiver's knowledge survives further posts and arrivals. -/
theorem RecvOk.mono {F' : List (List UInt8)} {A' : ℕ} {pc : RecvPc} (h : RecvOk v B F G Z A pc)
    (hF : F <+: F') (hA : A ≤ A') (hend : A ≤ endPos (trailer v) B F) :
    RecvOk v B F' G Z A' pc := by
  have hB := base_le_endPos (trailer v) B G
  cases pc with
  | idle => exact h
  | size limit got => exact ⟨h.1, fun i hi b hb => seen_mono (h.2 i hi b hb) hF hA hend (by omega)⟩
  | check limit receiveSize got =>
    obtain ⟨hZ, ⟨bs, hl, hn, hbs⟩, ht⟩ := h
    exact ⟨hZ, ⟨bs, hl, hn, fun i b hb => seen_mono (hbs i b hb) hF hA hend (by omega)⟩,
      fun i hi b hb => seen_mono (ht i hi b hb) hF hA hend (by omega)⟩
  | found limit receiveSize =>
    obtain ⟨hZ, p, hp, hn⟩ := h
    exact ⟨hZ, p, hp.mono hF hA, hn⟩
  | clear bytes receiveSize => exact ⟨h.1, h.2.1.mono hF hA, h.2.2⟩
  | publish bytes receiveSize => exact ⟨h.1, h.2.1.mono hF hA, h.2.2⟩

/-- Nothing of the next frame is cleared before the receiver is done with it. -/
theorem RecvOk.cleared {pc : RecvPc} (h : RecvOk v B F G Z A pc)
    (hpc : ∀ bytes receiveSize, pc ≠ .publish bytes receiveSize) : Z = endPos (trailer v) B G := by
  cases pc with
  | idle => exact h
  | size | check | found | clear => exact h.1
  | publish bytes receiveSize => exact absurd rfl (hpc bytes receiveSize)

/-- The number a torn load of a length yields. -/
theorem ofLE_toNat {bs : List UInt8} (hl : bs.length = 8) :
    (UInt64.ofNat (Bytes.ofLE bs)).toNat = Bytes.ofLE bs := by
  have hlt := Bytes.ofLE_lt bs
  rw [hl] at hlt
  rw [Pos.ofNat_toNat, Nat.mod_eq_of_lt (by norm_num at hlt ⊢; exact hlt)]

/-- A load yields the word `v` if it reads its bytes. -/
theorem word_eq_iff {bs : List UInt8} (hl : bs.length = 8) :
    UInt64.ofNat (Bytes.ofLE bs) = v ↔ bs = trailer v := by
  rw [← UInt64.toNat_inj, ofLE_toNat hl, trailer]
  constructor
  · intro h
    refine Bytes.ofLE_inj (by simp [hl]) ?_
    rw [h, Bytes.ofLE_le64 v.toNat_lt]
  · rintro rfl
    exact Bytes.ofLE_le64 v.toNat_lt

/-- A load that yields the word `v` has read its bytes. -/
theorem trailer_of_word {got : Load} (h : v = UInt64.ofNat (Bytes.ofLE got.bytes)) :
    got.bytes = trailer v := (word_eq_iff (by simp)).1 h.symm

/-- Where a polling receiver loads, relative to its read position. -/
def RecvPc.offset : RecvPc → ℕ
  | .check _ receiveSize _ => 8 + receiveSize.toNat
  | _ => 0

/-- A polling receiver has loaded at each offset a byte that `P` allows there. -/
def Loaded (P : ℕ → UInt8 → Prop) : RecvPc → Prop
  | .size _ got => ∀ i < 8, ∀ b, got i = some b → P i b
  | .check _ receiveSize got =>
    (∃ bs : List UInt8, bs.length = 8 ∧ receiveSize = UInt64.ofNat (Bytes.ofLE bs) ∧
      ∀ (i : ℕ) b, bs[i]? = some b → P i b) ∧
    ∀ i < 8, ∀ b, got i = some b → P (8 + receiveSize.toNat + i) b
  | _ => False

/-- It goes on polling, or it has found a trailer where the length it has loaded points. -/
theorem Loaded.poll {P : ℕ → UInt8 → Prop} {byteAt : ℕ → ℕ → UInt8} {is : List ℕ}
    {pc pc' : RecvPc} (h : Loaded P pc) (hbyte : ∀ i < 8, P (pc.offset + i) (byteAt pc.offset i))
    (hs : poll v byteAt is pc = some pc') :
    Loaded P pc' ∨ ∃ limit bs got, pc = .check limit (UInt64.ofNat (Bytes.ofLE bs)) got ∧
      pc' = .found limit (UInt64.ofNat (Bytes.ofLE bs)) ∧ bs.length = 8 ∧
      (∀ (i : ℕ) b, bs[i]? = some b → P i b) ∧
      ∀ (i : ℕ) b, (trailer v)[i]? = some b → P (8 + Bytes.ofLE bs + i) b := by
  cases pc with
  | idle | found | clear | publish => exact h.elim
  | size limit got =>
    simp only [RecvPc.offset, Nat.zero_add] at hbyte
    have hgot := Load.take_forall is h hbyte
    simp only [Channel.poll] at hs
    split at hs
    next => cases hs; exact Or.inl hgot
    next receiveSize hw =>
      cases hs
      obtain ⟨hn, hbytes⟩ := Load.word_eq_some hw
      refine Or.inl ⟨⟨_, Load.length_bytes _, hn, ?_⟩, fun i _ b hb => by cases hb⟩
      intro i b hb
      have hi := (List.getElem?_eq_some_iff.1 hb).1
      rw [Load.length_bytes] at hi
      exact hgot i hi b (hbytes i b hb)
  | check limit receiveSize got =>
    obtain ⟨⟨bs, hl, rfl, hbs⟩, hgot⟩ := h
    have hgot' := Load.take_forall is hgot hbyte
    simp only [Channel.poll] at hs
    split at hs
    next => cases hs; exact Or.inl ⟨⟨bs, hl, rfl, hbs⟩, hgot'⟩
    next checkMe hw =>
      split_ifs at hs with hv
      · cases hs
        obtain ⟨hcheck, hbytes⟩ := Load.word_eq_some hw
        have htr := trailer_of_word (hv ▸ hcheck)
        refine Or.inr ⟨limit, bs, got, rfl, rfl, hl, hbs, ?_⟩
        intro i b hb
        rw [← htr] at hb
        have hi := (List.getElem?_eq_some_iff.1 hb).1
        rw [Load.length_bytes] at hi
        have hseen := hgot' i hi b (hbytes i b hb)
        rwa [ofLE_toNat hl] at hseen
      · cases hs
        exact Or.inl fun i _ b hb => by cases hb

/-- A load by a polling receiver: it stays inside the next frame, or sees zeros. -/
theorem Inv.load_seen (h : Inv v phys n B F G c Z A P C) (hn : 0 < n)
    (hZ : Z = endPos (trailer v) B G) {off : ℕ}
    (hoff : ∀ p T, F = G ++ p :: T → off < p.length + 16) :
    Seen (stream (trailer v) B F) A (endPos (trailer v) B G + off)
      (c.receiveBuf ((endPos (trailer v) B G + off) % n)) := by
  subst hZ
  refine h.window.seen (Nat.le_add_right _ _) ?_ hn
  rcases Nat.eq_or_lt_of_le h.arrived with he | hlt
  · exact Or.inr he.symm
  · left
    obtain ⟨p, T, rfl⟩ := exists_next h.prefix_ h.arrived_le hlt
    have := hoff p T rfl
    have := h.fits p (by simp)
    omega

/-- The length a polling receiver has loaded does not point to a trailer inside the next
    payload. -/
def TrailerClean (v : UInt64) (F G : List (List UInt8)) : RecvPc → Prop
  | .check _ receiveSize _ => ∀ p T, F = G ++ p :: T → ¬ trailer v <+: p.drop receiveSize.toNat
  | _ => True

theorem RecvOk.trailerClean {pc : RecvPc} (hok : RecvOk v B F G Z A pc)
    (hF : ∀ p ∈ F, Clean (trailer v) p) : TrailerClean v F G pc := by
  cases pc with
  | idle | size | found | clear | publish => trivial
  | check limit receiveSize got =>
    obtain ⟨-, ⟨bs, hl, rfl, hbs⟩, -⟩ := hok
    intro p T hT
    subst hT
    rw [ofLE_toNat hl]
    exact hF p (by simp) bs (masked_of_seen hl hbs)

/-- What a polling receiver has loaded. -/
theorem recvOk_of_loaded {pc : RecvPc} (hZ : Z = endPos (trailer v) B G)
    (h : Loaded
      (fun off b => Seen (stream (trailer v) B F) A (endPos (trailer v) B G + off) b) pc) :
    RecvOk v B F G Z A pc := by
  cases pc with
  | idle | found | clear | publish => exact h.elim
  | size limit got => exact ⟨hZ, h⟩
  | check limit receiveSize got =>
    refine ⟨hZ, h.1, ?_⟩
    intro i hi b hb
    rw [add_assoc, add_assoc, ← add_assoc 8]
    exact h.2 i hi b hb

/-- **The polling loop** finds only the next message, and only when all of it has
    arrived. -/
theorem RecvOk.poll (hV : BorderFree (trailer v)) (hz : (0 : UInt8) ∉ trailer v)
    (h : Inv v phys n B F G c Z A P C) (hn : 0 < n) {byteAt : ℕ → ℕ → UInt8}
    (hbyte : ∀ off, ∀ i < 8, byteAt off i = c.receiveBuf ((endPos (trailer v) B G + off + i) % n))
    {is : List ℕ} {pc pc' : RecvPc} (hok : RecvOk v B F G Z A pc)
    (hclean : TrailerClean v F G pc) (hs : poll v byteAt is pc = some pc') :
    RecvOk v B F G Z A pc' := by
  obtain ⟨hZ, hl, hoff⟩ : Z = endPos (trailer v) B G ∧
      Loaded (fun off b => Seen (stream (trailer v) B F) A (endPos (trailer v) B G + off) b) pc ∧
      ∀ p T, F = G ++ p :: T → pc.offset ≤ 8 + p.length := by
    cases pc with
    | idle | found | clear | publish => cases hs
    | size limit got => exact ⟨hok.1, hok.2, fun p T _ => Nat.zero_le _⟩
    | check limit receiveSize got =>
      obtain ⟨hZ, ⟨bs, hl, rfl, hbs⟩, hgot⟩ := hok
      refine ⟨hZ, ⟨⟨bs, hl, rfl, hbs⟩, ?_⟩, ?_⟩
      · intro i hi b hb
        rw [← add_assoc, ← add_assoc]
        exact hgot i hi b hb
      · intro p T hT
        subst hT
        rw [RecvPc.offset, ofLE_toNat hl]
        exact Nat.add_le_add_left (masked_of_seen hl hbs).ofLE_le 8
  have hload : ∀ i < 8, Seen (stream (trailer v) B F) A (endPos (trailer v) B G + (pc.offset + i))
      (byteAt pc.offset i) := by
    intro i hi
    rw [hbyte _ i hi, add_assoc]
    refine h.load_seen hn hZ ?_
    intro p T hT
    have := hoff p T hT
    omega
  rcases hl.poll hload hs with hl' | ⟨limit, bs, got, rfl, rfl, hlen, hbs, htr⟩
  · exact recvOk_of_loaded hZ hl'
  · have hval := ofLE_toNat hlen
    obtain ⟨p, hp, hlen', hA⟩ := detect hV (by simp [← List.length_pos_iff]) hz h.prefix_
      h.arrived_le (fun p T hT => hval ▸ hclean p T hT) hlen hbs fun i b hb => by
        rw [add_assoc, add_assoc, ← add_assoc 8]; exact htr i b hb
    exact ⟨hZ, p, ⟨hp, hA⟩, by rw [hlen']⟩

namespace Inv

/-- The ring holds the frame of a message that has been found. -/
theorem cell (h : Inv v phys n B F G c Z A P C) (hZ : Z = endPos (trailer v) B G)
    {p : List UInt8} (hp : Found v B F G A p) {i : ℕ} {b : UInt8}
    (hb : (frame (trailer v) p)[i]? = some b) :
    c.receiveBuf ((endPos (trailer v) B G + i) % n) = b := by
  obtain ⟨⟨T, rfl⟩, hA⟩ := hp
  have hi := (List.getElem?_eq_some_iff.1 hb).1
  rw [length_frame, length_trailer] at hi
  rw [endPos_found] at hA
  have hroom := h.room
  have hend := h.arrived_le
  have hcached := h.cached
  rw [h.window _ (by omega) (by omega), if_pos (by omega), List.append_assoc, List.singleton_append,
    stream_frame (trailer v) hb]

/-- The payload of a message that has been found. -/
theorem payload (h : Inv v phys n B F G c Z A P C) (hZ : Z = endPos (trailer v) B G)
    {p : List UInt8} (hp : Found v B F G A p) {bytes : List UInt8} (hl : bytes.length = p.length)
    (hb : ∀ i < p.length,
      bytes[i]? = some (c.receiveBuf ((endPos (trailer v) B G + 8 + i) % n))) : bytes = p := by
  ext i : 1
  rcases Nat.lt_or_ge i p.length with hi | hi
  · have hf : (frame (trailer v) p)[8 + i]? = some p[i] := by
      rw [frame, List.append_assoc, List.getElem?_append_right (by simp), Bytes.length_le64,
        Nat.add_sub_cancel_left, List.getElem?_append_left hi, List.getElem?_eq_getElem hi]
    rw [hb i hi, add_assoc, h.cell hZ hp hf, List.getElem?_eq_getElem hi]
  · rw [List.getElem?_eq_none (by omega), List.getElem?_eq_none hi]

/-- The frame of a found message is cleared. -/
theorem clear (h : Inv v phys n B F G c Z A P C) (hZ : Z = endPos (trailer v) B G)
    {p : List UInt8} (hp : Found v B F G A p) {m' : Mem}
    (hz : ∀ i < p.length + 16, m' ((endPos (trailer v) B G + i) % n) = 0)
    (ho : ∀ q, endPos (trailer v) B G + (p.length + 16) ≤ q → q < endPos (trailer v) B G + n →
      m' (q % n) = c.receiveBuf (q % n)) :
    Inv v phys n B F G { c with receiveBuf := m' } (endPos (trailer v) B (G ++ [p])) A P C := by
  subst hZ
  have hA := hp.2
  have hroom := h.room
  have hend := h.arrived_le
  have hcached := h.cached
  rw [endPos_found] at hA
  refine { h with window := ?_, cleared := ?_, arrived := hp.2 }
  · rw [endPos_found]
    exact h.window.clear (by omega) hz ho
  · rw [endPos_found]; exact Nat.le_add_right _ _

/-- The receiver publishes its new read position. -/
theorem publish (h : Inv v phys n B F G c Z A P C) {p : List UInt8}
    (hZ : Z = endPos (trailer v) B (G ++ [p])) (hp : Found v B F G A p) {r : UInt64}
    (hr : r = UInt64.ofNat (endPos (trailer v) B (G ++ [p]))) :
    Inv v phys n B F (G ++ [p]) { c with readPos := r } Z A P C := by
  have hcached := h.cached
  refine { h with prefix_ := hp.1, readPos := hr, cached := ?_, cleared := hZ.ge }
  rw [endPos_found]; omega

end Inv

end

end Channel
