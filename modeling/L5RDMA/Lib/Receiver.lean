/-
  Calls of `receive` that offer too little room.

  `Receiver` is the receiving end of a channel as a part of some system, and
  `Receiver.Laws` is what a system has to provide: the others do not see where
  the receiver is, a call that polls only moves its own program counter, what it
  finds is the next message, and if that is larger than the limit of the call,
  the call throws.

  `losesNothing`: a call whose limit is smaller than the next message then
  returns nothing and leaves the system as it would be without the call; it
  throws once the message has arrived; and a run from which such calls are left
  out ends in the same state.
-/
import L5RDMA.Lib.Channel
import L5RDMA.Lib.Run

namespace Channel

open Run Frame
open Pos (lengthOf)

/-- What the receiver does. -/
inductive RecvAct where
  /-- call `receive` with a limit, or without one -/
  | receive (limit : Option UInt64)
  /-- load some more bytes in the polling loop -/
  | load (is : List ℕ)
  /-- take the next step after the polling loop -/
  | next

/-- Where a call is that is limited to `maxSize`, until it copies a payload. -/
def RecvPc.AtCall (maxSize : UInt64) : RecvPc → Prop
  | .idle => True
  | .size limit _ | .check limit _ _ | .found limit _ => limit = some maxSize
  | .clear _ _ | .publish _ _ => False

structure Receiver (σ α : Type) where
  step : σ → α → Option σ
  act : RecvAct → α
  /-- the actions of the receiver -/
  own : α → Bool
  pc : σ → RecvPc
  withPc : σ → RecvPc → σ
  /-- byte `i` of the word at an offset from the read position -/
  byteAt : σ → ℕ → ℕ → UInt8
  readPos : σ → UInt64
  sent : σ → List (List UInt8)
  received : σ → List (List UInt8)

namespace Receiver

variable {σ α : Type} (r : Receiver σ α)

/-- The actions that are not the receiver's. -/
def others (as : List α) : List α := as.filter fun a => !r.own a

/-- From `s` to `s'`, with the actions `during` after the call, a call of `receive` that is
    limited to `maxSize`, less than the next message has. -/
structure TooSmall (s : σ) (maxSize : UInt64) (during : List α) (s' : σ) : Prop where
  idle : r.pc s = .idle
  one : ∀ limit, r.act (.receive limit) ∉ during
  run : run r.step s (r.act (.receive (some maxSize)) :: during) = some s'
  lt : ∃ p, r.received s ++ [p] <+: r.sent s' ∧ maxSize.toNat < p.length

/-- Such a call from its beginning to its end. -/
def Failed (s : σ) (call : List α) (s' : σ) : Prop :=
  ∃ maxSize during, call = r.act (.receive (some maxSize)) :: during ∧
    r.TooSmall s maxSize during s' ∧ r.pc s' = .idle

/-- The frame of `p`, with the trailer `v`, is at the read position. -/
def Landed (v : UInt64) (s : σ) (p : List UInt8) : Prop :=
  ∀ off i b, i < 8 → (frame (trailer v) p)[off + i]? = some b → r.byteAt s off i = b

/-- Calls with too little room lose nothing, in runs from `s₀` of actions that meet `D`. -/
structure LosesNothing (v : UInt64) (D : α → Prop) (s₀ : σ) : Prop where
  /-- all is as without the call, and nothing is returned -/
  quiet : ∀ acts s maxSize during s', (∀ a ∈ acts, D a) → (∀ a ∈ during, D a) →
    run r.step s₀ acts = some s → r.TooSmall s maxSize during s' →
      run r.step s (r.others during) = some (r.withPc s' .idle) ∧
        r.received s' = r.received s ∧ r.readPos s' = r.readPos s
  /-- the call throws if the message has arrived -/
  throws : ∀ acts s maxSize during s' p, (∀ a ∈ acts, D a) → (∀ a ∈ during, D a) →
    run r.step s₀ acts = some s → r.TooSmall s maxSize during s' → r.pc s' ≠ .idle →
      r.received s ++ [p] <+: r.sent s' → r.Landed v s' p →
        ∃ k ≤ 4, run r.step s' (List.replicate k (r.act (.load (List.range 8))) ++ [r.act .next]) =
          some (r.withPc s' .idle)
  /-- such calls can be left out of a run -/
  erased : ∀ acts bs, (∀ a ∈ acts, D a) → Erases r.step r.own r.Failed s₀ acts bs →
    run r.step s₀ bs = run r.step s₀ acts

/-- A step neither reads where the receiver is nor changes anything of it. -/
structure Apart (step : σ → α → Option σ) (s s' : σ) (a : α) : Prop where
  step : ∀ pc, step (r.withPc s pc) a = some (r.withPc s' pc)
  pc : r.pc s' = r.pc s
  readPos : r.readPos s' = r.readPos s
  received : r.received s' = r.received s

/-- So does `f`, which maps states. -/
structure Keeps (f : σ → σ) : Prop where
  withPc : ∀ s pc, f (r.withPc s pc) = r.withPc (f s) pc
  pc : ∀ s, r.pc (f s) = r.pc s
  readPos : ∀ s, r.readPos (f s) = r.readPos s
  received : ∀ s, r.received (f s) = r.received s

/-- What the receiving end of a channel with the trailer `v` does, in the states of the
    invariant `I`, which holds in runs of actions that meet `D`. -/
structure Laws (v : UInt64) (I : σ → Prop) (D : α → Prop) : Prop where
  inv : ∀ s a s', I s → D a → r.step s a = some s' → I s'
  withPc_self : ∀ s, r.withPc s (r.pc s) = s
  withPc_withPc : ∀ s pc pc', r.withPc (r.withPc s pc) pc' = r.withPc s pc'
  pc_withPc : ∀ s pc, r.pc (r.withPc s pc) = pc
  byteAt_withPc : ∀ s pc, r.byteAt (r.withPc s pc) = r.byteAt s
  readPos_withPc : ∀ s pc, r.readPos (r.withPc s pc) = r.readPos s
  sent_withPc : ∀ s pc, r.sent (r.withPc s pc) = r.sent s
  received_withPc : ∀ s pc, r.received (r.withPc s pc) = r.received s
  own_iff : ∀ a, r.own a = true ↔ ∃ b, a = r.act b
  admits : ∀ b, D (r.act b)
  others : ∀ s a s', I s → r.own a = false → r.step s a = some s' → r.Apart r.step s s' a
  sent : ∀ s a s', I s → r.step s a = some s' → r.sent s <+: r.sent s'
  receive : ∀ s limit s', I s → r.step s (r.act (.receive limit)) = some s' →
    r.pc s = .idle ∧ (s' = r.withPc s (.size limit .empty) ∨ s' = s)
  load : ∀ s is, I s →
    r.step s (r.act (.load is)) = (poll v (r.byteAt s) is (r.pc s)).map (r.withPc s)
  /-- the call has to throw, or is still polling -/
  next : ∀ s s' maxSize, I s → (r.pc s).AtCall maxSize → r.step s (r.act .next) = some s' →
    ∃ n, r.pc s = .found (some maxSize) n ∧ (maxSize < n → s' = r.withPc s .idle)
  next_found : ∀ s maxSize n, I s → r.pc s = .found (some maxSize) n →
    ∃ s', r.step s (r.act .next) = some s'
  /-- what is found is the next message -/
  found : ∀ s limit n, I s → r.pc s = .found limit n →
    ∃ p, r.received s ++ [p] <+: r.sent s ∧ n = lengthOf p
  fits : ∀ s p, I s → p ∈ r.sent s → p.length < 2 ^ 64

theorem poll_atCall {v : UInt64} {byteAt : ℕ → ℕ → UInt8} {is : List ℕ} {pc pc' : RecvPc}
    {maxSize : UInt64} (h : pc.AtCall maxSize) (hs : poll v byteAt is pc = some pc') :
    pc'.AtCall maxSize := by
  cases pc with
  | idle | found | clear | publish => cases hs
  | size limit got =>
    simp only [Channel.poll] at hs
    split at hs <;> (cases hs; exact h)
  | check limit n got =>
    simp only [Channel.poll] at hs
    split at hs
    · cases hs; exact h
    · split_ifs at hs <;> (cases hs; exact h)

section
variable {r : Receiver σ α} {v : UInt64} {I : σ → Prop} {D : α → Prop} {s s' : σ} {a : α}
  {as : List α} {maxSize : UInt64} {p : List UInt8}

/-- States that are mapped after each step. -/
theorem Apart.map {f : σ → σ} {step : σ → α → Option σ} (hf : r.Keeps f)
    (h : r.Apart step s s' a) : r.Apart (fun s a => (step s a).map f) s (f s') a where
  step pc := by rw [h.step pc, Option.map_some, hf.withPc]
  pc := (hf.pc s').trans h.pc
  readPos := (hf.readPos s').trans h.readPos
  received := (hf.received s').trans h.received

theorem Keeps.withPc_of_eq {f : σ → σ} (hf : r.Keeps f) (h : f s = s) (pc : RecvPc) :
    f (r.withPc s pc) = r.withPc s pc := by
  rw [hf.withPc, h]

/-- The next message is determined. -/
theorem next_unique {G T : List (List UInt8)} {q : List UInt8} (hp : G ++ [p] <+: T)
    (hq : G ++ [q] <+: T) : p = q := by
  have hlen : G.length < (G ++ [p]).length := by simp
  have hlen' : G.length < (G ++ [q]).length := by simp
  have h₁ := List.prefix_iff_getElem?.1 hp G.length hlen
  have h₂ := List.prefix_iff_getElem?.1 hq G.length hlen'
  rw [h₁] at h₂
  simpa using h₂

namespace Laws

/-- What is found is too large for the call. -/
theorem lt_of_found (h : r.Laws v I D) (hI : I s) {limit : Option UInt64} {n : UInt64}
    {T : List (List UInt8)} (hpc : r.pc s = .found limit n) (hsent : r.sent s <+: T)
    (hp : r.received s ++ [p] <+: T) (hlt : maxSize.toNat < p.length) : maxSize < n := by
  obtain ⟨q, hq, rfl⟩ := h.found s limit n hI hpc
  obtain rfl := next_unique hp (hq.trans hsent)
  have hfits := h.fits s p hI (hq.subset (by simp))
  rw [UInt64.lt_iff_toNat_lt, lengthOf, Pos.ofNat_toNat, Nat.mod_eq_of_lt hfits]
  exact hlt

/-- A step during a call that cannot succeed. -/
structure Step (r : Receiver σ α) (maxSize : UInt64) (s : σ) (a : α) (s' : σ) : Prop where
  atCall : (r.pc s').AtCall maxSize
  received : r.received s' = r.received s
  readPos : r.readPos s' = r.readPos s
  own : r.own a = true → r.withPc s' .idle = r.withPc s .idle

/-- The step changes the program counter only. -/
theorem step_withPc (h : r.Laws v I D) {pc : RecvPc} (hpc : pc.AtCall maxSize) :
    Step r maxSize s a (r.withPc s pc) where
  atCall := by rw [h.pc_withPc]; exact hpc
  received := h.received_withPc s pc
  readPos := h.readPos_withPc s pc
  own _ := h.withPc_withPc s pc .idle

theorem step_during (h : r.Laws v I D) (hI : I s) (hat : (r.pc s).AtCall maxSize)
    (hone : ∀ limit, a ≠ r.act (.receive limit))
    (hbig : ∀ n, r.pc s = .found (some maxSize) n → maxSize < n) (hs : r.step s a = some s') :
    Step r maxSize s a s' := by
  cases ha : r.own a with
  | false =>
    have hap := h.others s a s' hI ha hs
    exact ⟨hap.pc ▸ hat, hap.received, hap.readPos, fun hown => by rw [ha] at hown; cases hown⟩
  | true =>
    obtain ⟨b, rfl⟩ := (h.own_iff a).1 ha
    cases b with
    | receive limit => exact absurd rfl (hone limit)
    | load is =>
      rw [h.load s is hI, Option.map_eq_some_iff] at hs
      obtain ⟨pc, hpc, rfl⟩ := hs
      exact h.step_withPc (poll_atCall hat hpc)
    | next =>
      obtain ⟨n, hpc, hthrow⟩ := h.next s s' maxSize hI hat hs
      rw [hthrow (hbig n hpc)]
      exact h.step_withPc trivial

theorem sent_of_run (h : r.Laws v I D) (hI : I s) (hD : ∀ a ∈ as, D a)
    (hr : run r.step s as = some s') : r.sent s <+: r.sent s' := by
  refine (inv_of_run (I := fun t => I t ∧ r.sent s <+: r.sent t) ?_ ⟨hI, List.prefix_rfl⟩ hD hr).2
  rintro t a t' ⟨hI, hsent⟩ ha hs
  exact ⟨h.inv t a t' hI ha hs, hsent.trans (h.sent t a t' hI hs)⟩

/-- The steps of a call that cannot succeed, -/
theorem along_during (h : r.Laws v I D) (hI : I s) (hD : ∀ a ∈ as, D a)
    (hat : (r.pc s).AtCall maxSize) (hone : ∀ limit, r.act (.receive limit) ∉ as)
    (hr : run r.step s as = some s') (hp : r.received s ++ [p] <+: r.sent s')
    (hlt : maxSize.toNat < p.length) :
    ((r.pc s').AtCall maxSize ∧ r.received s' = r.received s ∧ r.readPos s' = r.readPos s) ∧
      Along r.step (fun s a => I s ∧ ∀ s', r.step s a = some s' → Step r maxSize s a s') s as := by
  induction as generalizing s with
  | nil => cases hr; exact ⟨⟨hat, rfl, rfl⟩, trivial⟩
  | cons a as ih =>
    have hsent := h.sent_of_run hI hD hr
    have hDas : ∀ b ∈ as, D b := fun b hb => hD b (List.mem_cons_of_mem _ hb)
    have ha : ∀ limit, a ≠ r.act (.receive limit) := fun limit he =>
      hone limit (he ▸ List.mem_cons_self)
    rw [run] at hr
    cases hs : r.step s a with
    | none => rw [hs] at hr; cases hr
    | some s₁ =>
      rw [hs] at hr
      have hbig : ∀ n, r.pc s = .found (some maxSize) n → maxSize < n := fun n hpc =>
        h.lt_of_found hI hpc hsent hp hlt
      have hstep := h.step_during hI hat ha hbig hs
      obtain ⟨⟨hat', hrec, hread⟩, halong⟩ := ih (h.inv s a s₁ hI (hD a (by simp)) hs) hDas
        hstep.atCall (fun limit hm => hone limit (List.mem_cons_of_mem _ hm)) hr
        (by rw [hstep.received]; exact hp)
      refine ⟨⟨hat', hrec.trans hstep.received, hread.trans hstep.readPos⟩, ?_⟩
      rw [Along, hs]
      refine ⟨⟨hI, fun s₂ hs₂ => ?_⟩, halong⟩
      cases hs₂
      exact hstep

/-- and that it can be left out. -/
theorem run_during (h : r.Laws v I D) (hI : I s) (hD : ∀ a ∈ as, D a)
    (hat : (r.pc s).AtCall maxSize) (hone : ∀ limit, r.act (.receive limit) ∉ as)
    (hr : run r.step s as = some s') (hp : r.received s ++ [p] <+: r.sent s')
    (hlt : maxSize.toNat < p.length) :
    run r.step (r.withPc s .idle) (r.others as) = some (r.withPc s' .idle) := by
  have halong := (h.along_during hI hD hat hone hr hp hlt).2
  refine run_filter (fun s => r.withPc s .idle) ?_ ?_ halong hr
  · intro t a t' hC hown hs
    exact (hC.2 t' hs).own hown
  · intro t a t' hC hown hs
    exact (h.others t a t' hC.1 hown hs).step .idle

/-- A call with too little room, in a state of the invariant. -/
theorem tooSmall (h : r.Laws v I D) (hI : I s) {during : List α} (hD : ∀ a ∈ during, D a)
    (hc : r.TooSmall s maxSize during s') :
    I s' ∧ (r.pc s').AtCall maxSize ∧ r.received s' = r.received s ∧ r.readPos s' = r.readPos s ∧
      run r.step s (r.others during) = some (r.withPc s' .idle) := by
  obtain ⟨hidle, hone, hr, p, hp, hlt⟩ := hc
  have hself : r.withPc s .idle = s := hidle ▸ h.withPc_self s
  rw [run] at hr
  cases hs : r.step s (r.act (.receive (some maxSize))) with
  | none => rw [hs] at hr; cases hr
  | some s₁ =>
    rw [hs] at hr
    have hI₁ := h.inv s _ s₁ hI (h.admits _) hs
    have hstep : Step r maxSize s (r.act (.receive (some maxSize))) s₁ := by
      rcases (h.receive s _ s₁ hI hs).2 with rfl | rfl
      · exact h.step_withPc rfl
      · have hstep : Step r maxSize s₁ (r.act (.receive (some maxSize))) (r.withPc s₁ .idle) :=
          h.step_withPc trivial
        rwa [hself] at hstep
    have hown := hstep.own ((h.own_iff _).2 ⟨_, rfl⟩)
    rw [hself] at hown
    rw [← hstep.received] at hp
    obtain ⟨⟨hat, hrec, hread⟩, -⟩ := h.along_during hI₁ hD hstep.atCall hone hr hp hlt
    have hrun := h.run_during hI₁ hD hstep.atCall hone hr hp hlt
    rw [hown] at hrun
    exact ⟨inv_of_run h.inv hI₁ hD hr, hat, hrec.trans hstep.received,
      hread.trans hstep.readPos, hrun⟩

/-! ### A message that has landed -/

/-- `receive` throws after at most `k` whole loads. -/
def Throws (r : Receiver σ α) (k : ℕ) (s : σ) : Prop :=
  ∃ j ≤ k, run r.step s (List.replicate j (r.act (.load (List.range 8))) ++ [r.act .next]) =
    some (r.withPc s .idle)

theorem throws_load (h : r.Laws v I D) (hI : I s) (pc : RecvPc) {k : ℕ}
    (hpoll : poll v (r.byteAt s) (List.range 8) (r.pc s) = some pc)
    (ht : I (r.withPc s pc) → Throws r k (r.withPc s pc)) : Throws r (k + 1) s := by
  have hs : r.step s (r.act (.load (List.range 8))) = some (r.withPc s pc) := by
    rw [h.load s _ hI, hpoll, Option.map_some]
  obtain ⟨j, hj, hr⟩ := ht (h.inv s _ _ hI (h.admits _) hs)
  refine ⟨j + 1, by omega, ?_⟩
  rw [List.replicate_succ, List.cons_append, run_cons hs, hr, h.withPc_withPc]

theorem throws_found (h : r.Laws v I D) (hI : I s) {n : UInt64}
    (hpc : r.pc s = .found (some maxSize) n) (hp : r.received s ++ [p] <+: r.sent s)
    (hlt : maxSize.toNat < p.length) : Throws r 0 s := by
  obtain ⟨s', hs⟩ := h.next_found s maxSize n hI hpc
  have hat : (r.pc s).AtCall maxSize := by rw [hpc]; rfl
  obtain ⟨n', hpc', hthrow⟩ := h.next s s' maxSize hI hat hs
  rw [hpc] at hpc'
  cases hpc'
  rw [hthrow (h.lt_of_found hI hpc List.prefix_rfl hp hlt)] at hs
  exact ⟨0, le_rfl, by simp only [List.replicate, List.nil_append, run_cons hs, run]⟩

/-- A whole load of a length, -/
theorem poll_size (v : UInt64) (byteAt : ℕ → ℕ → UInt8) (limit : Option UInt64) (got : Load) :
    poll v byteAt (List.range 8) (.size limit got) = some (.check limit (UInt64.ofNat
      (Bytes.ofLE ((List.range 8).map fun i => (got i).getD (byteAt 0 i)))) .empty) := by
  simp only [poll, Load.word_take_range]

/-- and of a trailer. -/
theorem poll_check (v : UInt64) (byteAt : ℕ → ℕ → UInt8) (limit : Option UInt64) (n : UInt64)
    (got : Load) :
    poll v byteAt (List.range 8) (.check limit n got) =
      if UInt64.ofNat (Bytes.ofLE ((List.range 8).map fun i =>
        (got i).getD (byteAt (8 + n.toNat) i))) = v then some (.found limit n)
      else some (.size limit .empty) := by
  simp only [poll, Load.word_take_range]

/-- The words of a frame that has landed. -/
theorem landed_words (hl : r.Landed v s p) :
    (List.range 8).map (r.byteAt s 0) = Bytes.le64 p.length ∧
      (List.range 8).map (r.byteAt s (8 + p.length)) = trailer v := by
  have hword : ∀ off (bs : List UInt8), bs.length = 8 →
      (∀ (i : ℕ) b, bs[i]? = some b → (frame (trailer v) p)[off + i]? = some b) →
      (List.range 8).map (r.byteAt s off) = bs := by
    intro off bs hbs hframe
    refine List.ext_getElem (by simp [hbs]) fun i hi hi' => ?_
    rw [List.getElem_map, List.getElem_range]
    exact hl off i _ (by omega) (hframe i _ (List.getElem?_eq_getElem hi'))
  constructor
  · refine hword 0 _ (Bytes.length_le64 _) fun i b hb => ?_
    have hi := (List.getElem?_eq_some_iff.1 hb).1
    rw [Nat.zero_add, frame, List.append_assoc, List.getElem?_append_left hi, hb]
  · refine hword (8 + p.length) _ (length_trailer v) fun i b hb => ?_
    rw [frame, List.getElem?_append_right (by simp), List.length_append, Bytes.length_le64,
      Nat.add_sub_cancel_left, hb]

variable (hp : r.received s ++ [p] <+: r.sent s) (hlt : maxSize.toNat < p.length)
  (hl : r.Landed v s p)
include hp hlt hl

/-- A call that starts to poll when the message has landed, -/
theorem throws_empty (h : r.Laws v I D) (hI : I s) (hpc : r.pc s = .size (some maxSize) .empty) :
    Throws r 2 s := by
  obtain ⟨hsize, htrailer⟩ := landed_words hl
  have hfits := h.fits s p hI (hp.subset (by simp))
  have hlen : (UInt64.ofNat p.length).toNat = p.length := by
    rw [Pos.ofNat_toNat, Nat.mod_eq_of_lt hfits]
  have hv : UInt64.ofNat (Bytes.ofLE (trailer v)) = v := by
    rw [trailer, Bytes.ofLE_le64 v.toNat_lt, UInt64.ofNat_toNat]
  refine h.throws_load hI (.check (some maxSize) (UInt64.ofNat p.length) .empty) ?_ ?_
  · rw [hpc, poll_size]
    change some (RecvPc.check _ (UInt64.ofNat (Bytes.ofLE ((List.range 8).map
      (r.byteAt s 0)))) _) = _
    rw [hsize, Bytes.ofLE_le64 hfits]
  intro hI₁
  refine h.throws_load hI₁ (.found (some maxSize) (UInt64.ofNat p.length)) ?_ ?_
  · rw [h.pc_withPc, h.byteAt_withPc, poll_check]
    change (if UInt64.ofNat (Bytes.ofLE ((List.range 8).map
      (r.byteAt s (8 + (UInt64.ofNat p.length).toNat)))) = v then _ else _) = _
    rw [hlen, htrailer, if_pos hv]
  intro hI₂
  refine h.throws_found hI₂ (h.pc_withPc _ _) ?_ hlt
  rw [h.received_withPc, h.sent_withPc, h.received_withPc, h.sent_withPc]
  exact hp

/-- that is at the trailer, -/
theorem throws_check (h : r.Laws v I D) (hI : I s) {n : UInt64} {got : Load}
    (hpc : r.pc s = .check (some maxSize) n got) : Throws r 3 s := by
  have hp' : ∀ pc, r.received (r.withPc s pc) ++ [p] <+: r.sent (r.withPc s pc) := fun pc => by
    rw [h.received_withPc, h.sent_withPc]; exact hp
  have hpoll := poll_check v (r.byteAt s) (some maxSize) n got
  rw [← hpc] at hpoll
  split_ifs at hpoll with hv
  · refine h.throws_load hI _ hpoll fun hI₁ => ?_
    obtain ⟨j, hj, hr⟩ := h.throws_found hI₁ (h.pc_withPc _ _) (hp' _) hlt
    exact ⟨j, by omega, hr⟩
  · refine h.throws_load hI _ hpoll fun hI₁ => h.throws_empty (hp' _) hlt ?_ hI₁ (h.pc_withPc _ _)
    unfold Landed
    rw [h.byteAt_withPc]
    exact hl

/-- **or anywhere else**, throws. -/
theorem throws_of_landed (h : r.Laws v I D) (hI : I s) (hat : (r.pc s).AtCall maxSize)
    (hactive : r.pc s ≠ .idle) : Throws r 4 s := by
  have hle : ∀ k ≤ 4, Throws r k s → Throws r 4 s := fun k hk ⟨j, hj, hr⟩ => ⟨j, by omega, hr⟩
  cases hpc : r.pc s with
  | idle => exact absurd hpc hactive
  | clear | publish => rw [hpc] at hat; exact hat.elim
  | found limit n =>
    rw [hpc] at hat
    obtain rfl : limit = some maxSize := hat
    exact hle 0 (by omega) (h.throws_found hI hpc hp hlt)
  | check limit n got =>
    rw [hpc] at hat
    obtain rfl : limit = some maxSize := hat
    exact hle 3 (by omega) (h.throws_check hp hlt hl hI hpc)
  | size limit got =>
    rw [hpc] at hat
    obtain rfl : limit = some maxSize := hat
    have hpoll := poll_size v (r.byteAt s) (some maxSize) got
    rw [← hpc] at hpoll
    refine h.throws_load hI _ hpoll fun hI₁ => ?_
    refine h.throws_check (p := p) ?_ hlt ?_ hI₁ (h.pc_withPc _ _)
    · rw [h.received_withPc, h.sent_withPc]; exact hp
    · unfold Landed
      rw [h.byteAt_withPc]
      exact hl

end Laws

/-- Where nothing can be sent, no call has too little room. -/
theorem losesNothing_of_nil (hinv : ∀ s a s', I s → D a → r.step s a = some s' → I s')
    (hadmits : ∀ b, D (r.act b)) (hsent : ∀ s, I s → r.sent s = []) {s₀ : σ} (h₀ : I s₀) :
    r.LosesNothing v D s₀ := by
  have hnone : ∀ s maxSize during s', I s → (∀ a ∈ during, D a) →
      ¬ r.TooSmall s maxSize during s' := by
    rintro s maxSize during s' hI hD ⟨-, -, hr, p, hp, -⟩
    have hI' := inv_of_run hinv hI
      (fun a ha => (List.mem_cons.1 ha).elim (fun he => he ▸ hadmits _) (hD a)) hr
    rw [hsent s' hI', List.prefix_nil, List.append_eq_nil_iff] at hp
    exact absurd hp.2 (by simp)
  refine ⟨?_, ?_, ?_⟩
  · intro acts s maxSize during s' hD hD' hr hc
    exact absurd hc (hnone _ _ _ _ (inv_of_run hinv h₀ hD hr) hD')
  · intro acts s maxSize during s' p hD hD' hr hc
    exact absurd hc (hnone _ _ _ _ (inv_of_run hinv h₀ hD hr) hD')
  · intro acts bs hD her
    refine her.run_eq hinv ?_ h₀ hD
    rintro s call s' hI hDc ⟨maxSize, during, rfl, hc, -⟩
    exact absurd hc (hnone _ _ _ _ hI fun a ha => hDc a (List.mem_cons_of_mem _ ha))

/-- **Calls with too little room lose nothing** where the laws hold. -/
theorem Laws.losesNothing (h : r.Laws v I D) {s₀ : σ} (h₀ : I s₀) : r.LosesNothing v D s₀ where
  quiet acts s maxSize during s' hD hD' hr hc := by
    obtain ⟨-, -, hrec, hread, hrun⟩ := h.tooSmall (inv_of_run h.inv h₀ hD hr) hD' hc
    exact ⟨hrun, hrec, hread⟩
  throws acts s maxSize during s' p hD hD' hr hc hactive hp hl := by
    obtain ⟨hI, hat, hrec, -, -⟩ := h.tooSmall (inv_of_run h.inv h₀ hD hr) hD' hc
    obtain ⟨q, hq, hlt⟩ := hc.lt
    obtain rfl := next_unique hp hq
    exact h.throws_of_landed (hrec ▸ hp) hlt hl hI hat hactive
  erased acts bs hD her := by
    refine her.run_eq h.inv ?_ h₀ hD
    rintro s call s' hI hDc ⟨maxSize, during, rfl, hc, hidle⟩
    obtain ⟨-, -, -, -, hrun⟩ := h.tooSmall hI (fun a ha => hDc a (List.mem_cons_of_mem _ ha)) hc
    refine ⟨hc.run, ?_⟩
    have hown := (h.own_iff _).2 ⟨.receive (some maxSize), rfl⟩
    rw [List.filter_cons_of_neg (by simp [hown])]
    rw [← hidle, h.withPc_self] at hrun
    exact hrun

end

end Receiver

end Channel
