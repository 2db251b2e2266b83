/-
  RDMA verbs, as far as the sender of a reliable connection sees them.

  * `Request`: a work request in the send queue.  An INLINE write carries the
    bytes it was posted with, any other write reads its local region when it
    is executed.  The queue pair executes requests in post order; of a write in
    progress, `Write.drop` is what remains.
  * `CompletionQueue`: the completions not yet polled, whether the queue is
    armed, and the channel events not yet fetched.  Arming (`requestNotify`)
    asks for one event at the next completion.
  * `Feed`: the writes in the send queue hold, in order, the bytes of a
    stream from the position that has arrived to the one that is posted.
-/
import L5RDMA.Lib.Ring

namespace Verbs

/-! ## Work requests -/

structure Write where
  localOff : ℕ
  remoteOff : ℕ
  length : ℕ
  /-- the bytes of an INLINE request -/
  inlined : Option (List UInt8)
  signaled : Bool
  id : UInt64

inductive Request where
  | write (w : Write)
  /-- a signaled read of a remote counter -/
  | read (id : UInt64)

namespace Write
variable (w : Write)

/-- Byte `i` of a write that is executed when its local region holds `m`. -/
def byte (phys : ℕ → ℕ) (m : Mem) (i : ℕ) : UInt8 :=
  match w.inlined with
  | some bs => bs.getD i 0
  | none => m (phys (w.localOff + i))

def bytes (phys : ℕ → ℕ) (m : Mem) (k : ℕ) : List UInt8 := (List.range k).map (w.byte phys m)

/-- What remains after the first `k` bytes. -/
def drop (k : ℕ) : Write :=
  { w with
    localOff := w.localOff + k, remoteOff := w.remoteOff + k, length := w.length - k
    inlined := w.inlined.map (List.drop k) }

@[simp] theorem length_bytes (phys : ℕ → ℕ) (m : Mem) (k : ℕ) :
    (w.bytes phys m k).length = k := by simp [bytes]

theorem bytes_get {phys : ℕ → ℕ} {m : Mem} {k i : ℕ} {b : UInt8}
    (h : (w.bytes phys m k)[i]? = some b) : i < k ∧ b = w.byte phys m i := by
  obtain ⟨hi, he⟩ := List.getElem?_eq_some_iff.1 h
  simp only [bytes, List.length_map, List.length_range] at hi
  simp only [bytes, List.getElem_map, List.getElem_range] at he
  exact ⟨hi, he.symm⟩

theorem byte_drop (phys : ℕ → ℕ) (m : Mem) (k i : ℕ) :
    (w.drop k).byte phys m i = w.byte phys m (k + i) := by
  unfold byte drop
  cases w.inlined with
  | none => simp [add_assoc]
  | some bs => simp [List.getD_eq_getElem?_getD]

end Write

/-- The bytes that the requests `sq` have yet to write. -/
def pendingBytes : List Request → ℕ
  | [] => 0
  | .write w :: sq => w.length + pendingBytes sq
  | .read _ :: sq => pendingBytes sq

/-- The local cells that a request has yet to read. -/
def Request.cells (phys : ℕ → ℕ) : Request → List ℕ
  | .write w =>
    match w.inlined with
    | none => (List.range w.length).map fun i => phys (w.localOff + i)
    | some _ => []
  | .read _ => []

theorem Request.cells_of_done (phys : ℕ → ℕ) {w : Write} (h : w.length = 0) :
    (Request.write w).cells phys = [] := by
  cases hin : w.inlined <;> simp [cells, hin, h]

/-- A write in progress has fewer cells to read. -/
theorem Request.cells_drop (phys : ℕ → ℕ) (w : Write) (k : ℕ) :
    (Request.write (w.drop k)).cells phys ⊆ (Request.write w).cells phys := by
  intro c hc
  cases hin : w.inlined with
  | some bs => simp [cells, Write.drop, hin] at hc
  | none =>
    simp only [cells, Write.drop, hin, Option.map_none, List.mem_map, List.mem_range] at hc ⊢
    obtain ⟨i, hi, rfl⟩ := hc
    exact ⟨k + i, by omega, by rw [add_assoc]⟩

/-- INLINE or not, a write has the bytes that its local region holds at the post. -/
theorem Write.byte_local {phys : ℕ → ℕ} {m : Mem} {w : Write} {i : ℕ} (hi : i < w.length)
    (hin : ∀ bs, w.inlined = some bs → bs = Mem.read phys m w.localOff w.length) :
    w.byte phys m i = m (phys (w.localOff + i)) := by
  unfold byte
  cases hb : w.inlined with
  | none => rfl
  | some bs => rw [hin bs hb]; simp [Mem.read, hi, List.getD_eq_getElem?_getD]

/-- A write that takes its bytes along from its local region, as it is now. -/
def Write.carry (phys : ℕ → ℕ) (m : Mem) (w : Write) : Write :=
  { w with inlined := some (w.inlined.getD (w.bytes phys m w.length)) }

theorem Write.byte_carry (phys : ℕ → ℕ) (m m' : Mem) (w : Write) {i : ℕ} (hi : i < w.length) :
    (w.carry phys m).byte phys m' i = w.byte phys m i := by
  unfold byte carry
  cases hin : w.inlined with
  | some bs => rfl
  | none => simp [bytes, byte, hin, hi, List.getD_eq_getElem?_getD]

def Request.carry (phys : ℕ → ℕ) (m : Mem) : Request → Request
  | .write w => .write (w.carry phys m)
  | .read id => .read id

@[simp] theorem Request.cells_carry (phys : ℕ → ℕ) (m : Mem) (r : Request) :
    (r.carry phys m).cells phys = [] := by
  cases r <;> rfl

/-- The bytes that a write has taken along stay. -/
@[simp] theorem Request.carry_carry (phys : ℕ → ℕ) (m m' : Mem) (r : Request) :
    (r.carry phys m).carry phys m' = r.carry phys m := by
  cases r <;> rfl

/-! ## Completions -/

structure CompletionQueue where
  /-- the ids of the completions, oldest first -/
  entries : List UInt64
  armed : Bool
  events : ℕ

namespace CompletionQueue
variable (cq : CompletionQueue)

/-- A request completes. -/
def push (id : UInt64) : CompletionQueue where
  entries := cq.entries ++ [id]
  armed := false
  events := if cq.armed then cq.events + 1 else cq.events

def poll : Option (UInt64 × CompletionQueue) :=
  match cq.entries with
  | [] => none
  | id :: entries => some (id, { cq with entries := entries })

def requestNotify : CompletionQueue := { cq with armed := true }

/-- Fetch an event; blocks while there is none. -/
def getEvent : Option CompletionQueue :=
  if cq.events = 0 then none else some { cq with events := cq.events - 1 }

end CompletionQueue

/-! ## The stream in the send queue -/

/-- The writes of the send queue hold the bytes of the stream `g` from `A` to `P`. -/
def Feed (phys : ℕ → ℕ) (n : ℕ) (g : ℕ → UInt8) (m : Mem) : ℕ → List Request → ℕ → Prop
  | A, [], P => A = P
  | A, .read _ :: sq, P => Feed phys n g m A sq P
  | A, .write w :: sq, P =>
    Ring.Maps phys n w.remoteOff A w.length ∧
    (w.inlined = none → Ring.Maps phys n w.localOff A w.length) ∧
    (∀ i < w.length, w.byte phys m i = g (A + i)) ∧ Feed phys n g m (A + w.length) sq P

namespace Feed
variable {phys : ℕ → ℕ} {n : ℕ} {g : ℕ → UInt8} {m : Mem} {A P : ℕ} {sq : List Request}

theorem le (h : Feed phys n g m A sq P) : A ≤ P := by
  induction sq generalizing A with
  | nil => exact (show A = P from h).le
  | cons r sq ih =>
    cases r with
    | read id => exact ih h
    | write w => exact (Nat.le_add_right _ _).trans (ih h.2.2.2)

/-- The first write is finished. -/
theorem pop {w : Write} (h : Feed phys n g m A (.write w :: sq) P) (hw : w.length = 0) :
    Feed phys n g m A sq P := by
  have := h.2.2.2
  rwa [hw, add_zero] at this

/-- A queued write does not reach beyond what is posted. -/
theorem add_length_le (h : Feed phys n g m A sq P) {w : Write} (hw : Request.write w ∈ sq) :
    A + w.length ≤ P := by
  induction sq generalizing A with
  | nil => cases hw
  | cons r sq ih =>
    cases r with
    | read id => exact ih h (by simpa using hw)
    | write w' =>
      rcases List.mem_cons.1 hw with he | hw
      · cases he; exact h.2.2.2.le
      · have := ih h.2.2.2 hw; omega

/-- When every queued write has arrived, so has all that is posted. -/
theorem eq_of_landed (h : Feed phys n g m A sq P)
    (hw : ∀ w, Request.write w ∈ sq → w.length = 0) : A = P := by
  induction sq generalizing A with
  | nil => exact h
  | cons r sq ih =>
    cases r with
    | read id => exact ih h fun w hm => hw w (by simp [hm])
    | write w => exact ih (h.pop (hw w (by simp))) fun w hm => hw w (by simp [hm])

/-- A request is posted. -/
theorem append {sq' : List Request} {Q : ℕ} (h : Feed phys n g m A sq P)
    (h' : Feed phys n g m P sq' Q) : Feed phys n g m A (sq ++ sq') Q := by
  induction sq generalizing A with
  | nil => cases (show A = P from h); exact h'
  | cons r sq ih =>
    cases r with
    | read id => exact ih h
    | write w => exact ⟨h.1, h.2.1, h.2.2.1, ih h.2.2.2⟩

/-- `k` bytes of the first write are executed. -/
theorem drop {w : Write} {k : ℕ} (h : Feed phys n g m A (.write w :: sq) P) (hk : k ≤ w.length) :
    Feed phys n g m (A + k) (.write (w.drop k) :: sq) P := by
  obtain ⟨hr, hl, hb, h⟩ := h
  refine ⟨hr.drop hk, ?_, ?_, ?_⟩
  · intro hi
    have hnone : w.inlined = none := by simpa [Write.drop] using hi
    exact (hl hnone).drop hk
  · intro i hi
    simp only [Write.drop] at hi
    rw [Write.byte_drop, hb (k + i) (by omega), add_assoc]
  · simpa [Write.drop, add_assoc, Nat.add_sub_cancel' hk] using h

/-- The local region changes, but no cell that a queued request has yet to read. -/
theorem congr_mem {m' : Mem} (h : Feed phys n g m A sq P)
    (hm : ∀ r ∈ sq, ∀ c ∈ r.cells phys, m' c = m c) : Feed phys n g m' A sq P := by
  induction sq generalizing A with
  | nil => exact h
  | cons r sq ih =>
    cases r with
    | read id => exact ih h fun r hr => hm r (by simp [hr])
    | write w =>
      obtain ⟨hr, hl, hb, h⟩ := h
      refine ⟨hr, hl, ?_, ih h fun r hr => hm r (by simp [hr])⟩
      intro i hi
      rw [← hb i hi]
      unfold Write.byte
      cases hin : w.inlined with
      | none =>
        refine hm (.write w) (by simp) _ ?_
        simp only [Request.cells, hin, List.mem_map, List.mem_range]
        exact ⟨i, hi, rfl⟩
      | some bs => rfl

/-- It is enough that the cells of the positions in flight do not change. -/
theorem congr_cells {m' : Mem} (h : Feed phys n g m A sq P)
    (hm : ∀ p, A ≤ p → p < P → m' (p % n) = m (p % n)) : Feed phys n g m' A sq P := by
  induction sq generalizing A with
  | nil => exact h
  | cons r sq ih =>
    cases r with
    | read id => exact ih h hm
    | write w =>
      obtain ⟨hr, hl, hb, h⟩ := h
      have hle := h.le
      refine ⟨hr, hl, ?_, ih h fun p hp => hm p (by omega)⟩
      intro i hi
      rw [← hb i hi]
      unfold Write.byte
      cases hin : w.inlined with
      | none => simp only; rw [hl hin i hi]; exact hm _ (by omega) (by omega)
      | some bs => rfl

/-- The queued writes take their bytes along. -/
theorem carry (h : Feed phys n g m A sq P) :
    Feed phys n g m A (sq.map (Request.carry phys m)) P := by
  induction sq generalizing A with
  | nil => exact h
  | cons r sq ih =>
    cases r with
    | read id => exact ih h
    | write w =>
      obtain ⟨hr, -, hb, h⟩ := h
      refine ⟨hr, fun hin => (by cases hin), ?_, ih h⟩
      intro i hi
      rw [Write.byte_carry phys m m w hi, hb i hi]

theorem pendingBytes_eq (h : Feed phys n g m A sq P) : A + pendingBytes sq = P := by
  induction sq generalizing A with
  | nil => exact h
  | cons r sq ih =>
    cases r with
    | read id => exact ih h
    | write w => rw [pendingBytes, ← add_assoc]; exact ih h.2.2.2

/-- The place of one of the queued writes. -/
theorem split {l r : List Request} {w : Write} (h : Feed phys n g m A (l ++ .write w :: r) P) :
    ∃ Q, A ≤ Q ∧ Ring.Maps phys n w.remoteOff Q w.length ∧ Q + w.length + pendingBytes r = P := by
  induction l generalizing A with
  | nil => exact ⟨A, le_rfl, h.1, h.2.2.2.pendingBytes_eq⟩
  | cons r' l ih =>
    cases r' with
    | read id => exact ih h
    | write w' =>
      obtain ⟨Q, hQ, h⟩ := ih h.2.2.2
      exact ⟨Q, (Nat.le_add_right _ _).trans hQ, h⟩

theorem congr_stream {g' : ℕ → UInt8} (h : Feed phys n g m A sq P)
    (hg : ∀ p, A ≤ p → p < P → g p = g' p) : Feed phys n g' m A sq P := by
  induction sq generalizing A with
  | nil => exact h
  | cons r sq ih =>
    cases r with
    | read id => exact ih h hg
    | write w =>
      obtain ⟨hr, hl, hb, h⟩ := h
      have hle := h.le
      refine ⟨hr, hl, ?_, ih h fun p hp => hg p (by omega)⟩
      intro i hi
      rw [hb i hi]; exact hg _ (by omega) (by omega)

end Feed

end Verbs
