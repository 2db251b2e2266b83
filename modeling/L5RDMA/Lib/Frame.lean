/-
  Streams of framed messages: the length of the payload as a little-endian
  64-bit word, the payload, and a fixed trailer.

  A reader that polls such a stream while it is being written sees, in place of
  each byte that has not arrived, a zero.  It may therefore read a length some
  of whose bytes are missing (`Masked`) and look for the trailer at the wrong
  place.  `detect`: if the trailer has no border, no zero byte, and does not
  occur in the payload where the length points, a trailer found means that the
  length is right and that the whole frame is there.  `Clean`: no such length
  points to a trailer.

  A reader that sees everything at one moment needs no such condition, if the
  bytes arrive front to back (`snapshot_iff`).
-/
import Mathlib.Data.List.Forall2
import Mathlib.Data.List.GetD
import L5RDMA.Lib.Bytes

namespace Frame

open Bytes

/-- No proper suffix of `V` is a prefix of it. -/
def BorderFree (V : List UInt8) : Prop := ∀ d < V.length, 0 < d → ¬ V.drop d <+: V

instance (V : List UInt8) : Decidable (BorderFree V) :=
  inferInstanceAs (Decidable (∀ d < V.length, 0 < d → ¬ V.drop d <+: V))

/-- `bs` are the bytes `cs`, some of which still read as zero. -/
def Masked (bs cs : List UInt8) : Prop := List.Forall₂ (fun b c => b = 0 ∨ b = c) bs cs

/-- The trailer `V` does not occur in `p` where an incomplete length of `p` points. -/
def Clean (V p : List UInt8) : Prop :=
  ∀ bs, Masked bs (le64 p.length) → ¬ V <+: p.drop (ofLE bs)

theorem clean_of_not_infix {V p : List UInt8} (h : ¬ V <:+: p) : Clean V p :=
  fun _ _ hV => h (hV.isInfix.trans (List.drop_suffix _ p).isInfix)

section
variable (V : List UInt8)

/-- The bytes of a message on the wire. -/
def frame (p : List UInt8) : List UInt8 := le64 p.length ++ p ++ V

theorem length_frame (p : List UInt8) : (frame V p).length = 8 + p.length + V.length := by
  simp [frame, add_assoc]

/-- The bytes of the messages `F`, the first of which starts at position `B`; zero
    beyond their end. -/
def stream (B : ℕ) (F : List (List UInt8)) (pos : ℕ) : UInt8 :=
  (F.flatMap (frame V)).getD (pos - B) 0

/-- The position after the messages `F`. -/
def endPos (B : ℕ) (F : List (List UInt8)) : ℕ := B + (F.flatMap (frame V)).length

@[simp] theorem endPos_nil (B : ℕ) : endPos V B [] = B := rfl

theorem endPos_append (B : ℕ) (F G : List (List UInt8)) :
    endPos V B (F ++ G) = endPos V B F + (G.flatMap (frame V)).length := by
  simp [endPos, add_assoc]

theorem endPos_snoc (B : ℕ) (F : List (List UInt8)) (p : List UInt8) :
    endPos V B (F ++ [p]) = endPos V B F + (8 + p.length + V.length) := by
  rw [endPos_append, List.flatMap_singleton, length_frame]

theorem base_le_endPos (B : ℕ) (F : List (List UInt8)) : B ≤ endPos V B F := Nat.le_add_right _ _

theorem endPos_mono {F G : List (List UInt8)} (h : F <+: G) (B : ℕ) :
    endPos V B F ≤ endPos V B G := by
  obtain ⟨t, rfl⟩ := h
  rw [endPos_append]; exact Nat.le_add_right _ _

/-- Later messages do not change earlier bytes. -/
theorem stream_append {B : ℕ} {F : List (List UInt8)} (G : List (List UInt8)) {pos : ℕ}
    (hB : B ≤ pos) (h : pos < endPos V B F) : stream V B (F ++ G) pos = stream V B F pos := by
  have hlt : pos - B < (F.flatMap (frame V)).length := by rw [endPos] at h; omega
  rw [stream, stream, List.flatMap_append, List.getD_append _ _ _ _ hlt]

/-- The bytes of one message of the stream. -/
theorem stream_frame {B : ℕ} {F G : List (List UInt8)} {p : List UInt8} {j : ℕ} {b : UInt8}
    (hb : (frame V p)[j]? = some b) : stream V B (F ++ p :: G) (endPos V B F + j) = b := by
  have hj : j < (frame V p).length := (List.getElem?_eq_some_iff.1 hb).1
  rw [stream, endPos, List.flatMap_append, List.flatMap_cons,
    show B + (F.flatMap (frame V)).length + j - B = (F.flatMap (frame V)).length + j by omega,
    List.getD_append_right _ _ _ _ (Nat.le_add_right _ _), Nat.add_sub_cancel_left,
    List.getD_append _ _ _ _ hj, List.getD_eq_getElem?_getD, hb]
  rfl

end

/-! ## Finding the end of a message -/

section
variable {V : List UInt8}

/-- A trailer read at offset `8 + n` of a frame, with `n` at most the length of the
    payload, is the trailer of the frame. -/
theorem trailer_at (hV : BorderFree V) (hne : V ≠ []) {p : List UInt8} {n : ℕ}
    (hn : n ≤ p.length) (hclean : ¬ V <+: p.drop n) (h : V <+: (frame V p).drop (8 + n)) :
    n = p.length := by
  have hdrop : (frame V p).drop (8 + n) = p.drop n ++ V := by
    rw [frame, List.append_assoc, List.drop_append, length_le64, List.drop_eq_nil_of_le (by simp),
      Nat.add_sub_cancel_left, List.nil_append, List.drop_append_of_le_length hn]
  rw [hdrop] at h
  by_contra hlt
  have ht : 0 < (p.drop n).length := by rw [List.length_drop]; omega
  rcases Nat.lt_or_ge (p.drop n).length V.length with hl | hl
  · -- the trailer would overlap itself
    have h1 : p.drop n <+: V := List.prefix_of_prefix_length_le (List.prefix_append _ _) h hl.le
    obtain ⟨t, rfl⟩ := h1
    have h2 : t <+: p.drop n ++ t := (List.prefix_append_right_inj _).1 h
    refine hV (p.drop n).length hl ht ?_
    rwa [List.drop_left]
  · exact hclean (List.prefix_of_prefix_length_le h (List.prefix_append _ _) hl)

theorem masked_of_get {bs cs : List UInt8} (hlen : bs.length = cs.length)
    (h : ∀ (i : ℕ) (b : UInt8), bs[i]? = some b → b = 0 ∨ cs[i]? = some b) : Masked bs cs := by
  refine List.forall₂_iff_get.2 ⟨hlen, ?_⟩
  intro i hi hi'
  rcases h i bs[i] (List.getElem?_eq_getElem hi) with h0 | hc
  · exact Or.inl h0
  · rw [List.getElem?_eq_getElem hi'] at hc
    exact Or.inr (Option.some.inj hc).symm

/-- What a reader at position `R` knows of a byte it has loaded when everything before
    `A` has arrived: it is zero, or a byte of the stream. -/
def Seen (g : ℕ → UInt8) (A pos : ℕ) (b : UInt8) : Prop := b = 0 ∨ (pos < A ∧ b = g pos)

/-- A reader that has seen something beyond the messages `G` is in front of another one. -/
theorem exists_next {B A : ℕ} {F G : List (List UInt8)} (hG : G <+: F) (hA : A ≤ endPos V B F)
    (h : endPos V B G < A) : ∃ p T, F = G ++ p :: T := by
  obtain ⟨T, rfl⟩ := hG
  cases T with
  | nil => rw [List.append_nil] at hA; omega
  | cons p T => exact ⟨p, T, rfl⟩

/-- The bytes of a length loaded in front of the message `p`. -/
theorem masked_of_stream {B : ℕ} {G T : List (List UInt8)} {p bs : List UInt8}
    (hbs : bs.length = 8)
    (hlen : ∀ (i : ℕ) b, bs[i]? = some b →
      b = 0 ∨ b = stream V B (G ++ p :: T) (endPos V B G + i)) :
    Masked bs (le64 p.length) := by
  refine masked_of_get (by simp [hbs]) ?_
  intro i b hb
  have hi : i < 8 := hbs ▸ (List.getElem?_eq_some_iff.1 hb).1
  rcases hlen i b hb with h0 | h1
  · exact Or.inl h0
  · right
    have hg := List.getElem?_eq_getElem (l := le64 p.length) (i := i) (by simpa using hi)
    have hf : (frame V p)[i]? = (le64 p.length)[i]? := by
      rw [frame, List.append_assoc, List.getElem?_append_left (by simpa using hi)]
    rw [hg, h1, stream_frame V (hf.trans hg)]

theorem masked_of_seen {B A : ℕ} {G T : List (List UInt8)} {p bs : List UInt8}
    (hbs : bs.length = 8)
    (hlen : ∀ (i : ℕ) b, bs[i]? = some b →
      Seen (stream V B (G ++ p :: T)) A (endPos V B G + i) b) :
    Masked bs (le64 p.length) :=
  masked_of_stream hbs fun i b hb => (hlen i b hb).imp_right And.right

theorem Masked.ofLE_le {bs : List UInt8} {n : ℕ} (h : Masked bs (le64 n)) : ofLE bs ≤ n := by
  refine (ofLE_le_of_masked h).trans ?_
  rw [le64, Bytes.ofLE_le]; exact Nat.mod_le _ _

/-- **Detection.**  A reader after the messages `G` that has loaded the bytes `bs` of a
    length and then the trailer where they point, which is not inside the next payload,
    has found the next message, complete. -/
theorem detect (hV : BorderFree V) (hne : V ≠ []) (hz : (0 : UInt8) ∉ V)
    {B A : ℕ} {F G : List (List UInt8)} (hG : G <+: F) (hA : A ≤ endPos V B F)
    {bs : List UInt8} (hF : ∀ p T, F = G ++ p :: T → ¬ V <+: p.drop (ofLE bs))
    (hbs : bs.length = 8)
    (hlen : ∀ (i : ℕ) b, bs[i]? = some b → Seen (stream V B F) A (endPos V B G + i) b)
    (htr : ∀ (i : ℕ) b, V[i]? = some b →
      Seen (stream V B F) A (endPos V B G + 8 + ofLE bs + i) b) :
    ∃ p, G ++ [p] <+: F ∧ ofLE bs = p.length ∧ endPos V B (G ++ [p]) ≤ A := by
  have htr' : ∀ (i : ℕ) b, V[i]? = some b → endPos V B G + 8 + ofLE bs + i < A ∧
      b = stream V B F (endPos V B G + 8 + ofLE bs + i) := by
    intro i b hb
    rcases htr i b hb with rfl | h
    · exact absurd (List.mem_of_getElem? hb) hz
    · exact h
  have hpos : 0 < V.length := List.length_pos_of_ne_nil hne
  have h0 := (htr' 0 V[0] (List.getElem?_eq_getElem hpos)).1
  obtain ⟨p, T, rfl⟩ := exists_next hG hA (by omega)
  have hmask := masked_of_seen hbs hlen
  have hn := hmask.ofLE_le
  have hmatch : V <+: (frame V p).drop (8 + ofLE bs) := by
    rw [List.prefix_iff_getElem?]
    intro i hi
    have h1 := htr' i V[i] (List.getElem?_eq_getElem hi)
    have hj : 8 + ofLE bs + i < (frame V p).length := by rw [length_frame]; omega
    rw [List.getElem?_drop, List.getElem?_eq_getElem hj, h1.2,
      show endPos V B G + 8 + ofLE bs + i = endPos V B G + (8 + ofLE bs + i) by omega,
      stream_frame V (List.getElem?_eq_getElem hj)]
  have heq := trailer_at hV hne hn (hF p T rfl) hmatch
  have hlast := htr' (V.length - 1) _ (List.getElem?_eq_getElem (by omega))
  exact ⟨p, ⟨T, by simp⟩, heq, by rw [endPos_snoc]; omega⟩

/-! ## A snapshot

Of the bytes `bs`, the first `k` have arrived. -/

/-- Byte `j` as it reads then. -/
def arrived (bs : List UInt8) (k j : ℕ) : UInt8 := if j < k then bs.getD j 0 else 0

variable {p rest : List UInt8} {k : ℕ}

theorem arrived_of_get {bs : List UInt8} {j : ℕ} {b : UInt8} (hj : j < k)
    (hb : bs[j]? = some b) : arrived bs k j = b := by
  rw [arrived, if_pos hj, List.getD_eq_getElem?_getD, hb]
  rfl

theorem frame_length {i : ℕ} (hi : i < 8) :
    (frame V p ++ rest)[i]? = (le64 p.length)[i]? := by
  rw [frame, List.append_assoc, List.append_assoc, List.getElem?_append_left (by simpa using hi)]

theorem frame_payload {i : ℕ} (hi : i < p.length) :
    (frame V p ++ rest)[8 + i]? = p[i]? := by
  rw [frame, List.append_assoc, List.append_assoc, List.getElem?_append_right (by simp),
    length_le64, Nat.add_sub_cancel_left, List.getElem?_append_left hi]

theorem frame_trailer {i : ℕ} (hi : i < V.length) :
    (frame V p ++ rest)[8 + p.length + i]? = V[i]? := by
  have hlen : (le64 p.length ++ p).length = 8 + p.length := by simp
  rw [frame, List.append_assoc, List.getElem?_append_right (by omega), hlen,
    Nat.add_sub_cancel_left, List.getElem?_append_left hi]

/-- What has arrived of the bytes `cs`, which are at offset `off`. -/
theorem map_arrived (bs cs : List UInt8) (off : ℕ) (hk : off + cs.length ≤ k)
    (h : ∀ i < cs.length, bs[off + i]? = cs[i]?) :
    (List.range cs.length).map (fun i => arrived bs k (off + i)) = cs := by
  ext i : 1
  rcases Nat.lt_or_ge i cs.length with hi | hi
  · have hget := List.getElem?_eq_getElem hi
    rw [List.getElem?_map, List.getElem?_range hi, hget, Option.map_some,
      arrived_of_get (by omega) ((h i hi).trans hget)]
  · rw [List.getElem?_eq_none (by simpa using hi), List.getElem?_eq_none hi]

theorem map_arrived_length (hk : 8 ≤ k) :
    (List.range 8).map (arrived (frame V p ++ rest) k) = le64 p.length := by
  have hlen : (le64 p.length).length = 8 := length_le64 _
  have h := map_arrived (k := k) (frame V p ++ rest) (le64 p.length) 0 (by omega) fun i hi => by
    rw [Nat.zero_add]
    exact frame_length (hlen ▸ hi)
  simpa only [hlen, Nat.zero_add] using h

theorem masked_arrived : Masked ((List.range 8).map (arrived (frame V p ++ rest) k))
    (le64 p.length) := by
  refine masked_of_get (by simp) fun i b hb => ?_
  have hi : i < 8 := by simpa using (List.getElem?_eq_some_iff.1 hb).1
  rw [List.getElem?_map, List.getElem?_range hi] at hb
  cases hb
  by_cases hk : i < k
  · right
    have hget := List.getElem?_eq_getElem (l := le64 p.length) (i := i) (by simpa using hi)
    rw [hget, arrived_of_get hk ((frame_length hi).trans hget)]
  · left
    exact if_neg hk

/-- **A snapshot is exact**: what has arrived is followed by zeros, and so no trailer is where
    the length that has arrived points before the frame is there. -/
theorem snapshot_iff (hne : V ≠ []) (hz : (0 : UInt8) ∉ V) (hp : p.length < 2 ^ 64) {n : ℕ}
    (hn : n = ofLE ((List.range 8).map (arrived (frame V p ++ rest) k))) :
    (List.range V.length).map (fun i => arrived (frame V p ++ rest) k (8 + n + i)) = V ↔
      8 + p.length + V.length ≤ k := by
  have hlength : 8 ≤ k → n = p.length := by
    intro hk
    rw [hn, map_arrived_length hk, ofLE_le64 hp]
  constructor
  · intro h
    have hpos : 0 < V.length := List.length_pos_of_ne_nil hne
    -- the last byte of the trailer is not zero
    have hlast : V.length - 1 < V.length := by omega
    have hget := congrArg (fun l : List UInt8 => l[V.length - 1]?) h
    rw [List.getElem?_map, List.getElem?_range hlast] at hget
    have hk : 8 + n + (V.length - 1) < k := by
      by_contra hk
      rw [Option.map_some, arrived, if_neg hk] at hget
      exact hz (List.mem_of_getElem? hget.symm)
    have := hlength (by omega)
    omega
  · intro hk
    rw [hlength (by omega)]
    exact map_arrived _ _ _ hk fun i hi => frame_trailer hi

end

end Frame
