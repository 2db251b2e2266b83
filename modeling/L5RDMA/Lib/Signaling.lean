/-
  Selective signaling: of the requests in a send queue only some ask for a
  completion, and a completion that is polled retires its request together
  with all earlier ones.

  The requests posted and not yet retired are a list, oldest first, with the id
  of each signaled one (`Request.signal`); `retire` is one polled completion.

  * `retire_completed`: the next completion belongs to the oldest signaled request;
  * `Lag N d i`: of requests of which every `N`-th is signaled, with id `i`, the last
    `d` are unsignaled and at most one signaled request is not yet retired;
  * `Notified`: the queue is armed or has one event, with bounds on the signaled
    requests that are still incomplete.
-/
import L5RDMA.Lib.Verbs

namespace Verbs

/-- The id with which a request is reported, if it is signaled. -/
def Request.signal : Request → Option UInt64
  | .write w => if w.signaled then some w.id else none
  | .read id => some id

/-- A polled completion retires its request and all before it. -/
def retire : List (Option UInt64) → List (Option UInt64)
  | [] => []
  | none :: l => retire l
  | some _ :: l => l

theorem retire_replicate (a : ℕ) (i : UInt64) (l : List (Option UInt64)) :
    retire (List.replicate a none ++ some i :: l) = l := by
  induction a with
  | zero => rfl
  | succ a ih => rw [List.replicate_succ, List.cons_append, retire, ih]

/-- Of the requests `done` that are complete, the oldest signaled one is polled. -/
theorem retire_completed {done : List (Option UInt64)} {i : UInt64} {ids : List UInt64}
    (h : done.filterMap id = i :: ids) (l : List (Option UInt64)) :
    ∃ done', done'.filterMap id = ids ∧ retire (done ++ l) = done' ++ l := by
  induction done with
  | nil => cases h
  | cons o done ih =>
    cases o with
    | none => exact ih h
    | some j =>
      obtain ⟨-, h⟩ := List.cons.inj h
      exact ⟨done, h, rfl⟩

theorem length_retire_le (l : List (Option UInt64)) : (retire l).length ≤ l.length := by
  induction l with
  | nil => exact le_rfl
  | cons o l ih =>
    cases o with
    | none => exact ih.trans (Nat.le_succ _)
    | some i => exact Nat.le_succ _

theorem length_retire_lt {l : List (Option UInt64)} (h : l.filterMap id ≠ []) :
    (retire l).length < l.length := by
  cases l with
  | nil => exact absurd rfl h
  | cons o l =>
    cases o with
    | none => exact Nat.lt_succ_of_le (length_retire_le l)
    | some i => exact Nat.lt_succ_self _

/-- The last request is signaled, if there is one. -/
def LastSignaled (l : List (Option UInt64)) : Prop := l = [] ∨ ∃ l' i, l = l' ++ [some i]

/-- The last request stays until it is retired. -/
theorem LastSignaled.retire {l : List (Option UInt64)} (h : LastSignaled l) :
    LastSignaled (retire l) := by
  rcases h with rfl | ⟨l, i, rfl⟩
  · left; rfl
  · induction l with
    | nil => left; rfl
    | cons o l ih =>
      cases o with
      | none => exact ih
      | some j => right; exact ⟨l, i, rfl⟩

theorem LastSignaled.eq_nil {l : List (Option UInt64)} (h : LastSignaled l)
    (hids : l.filterMap id = []) : l = [] := by
  rcases h with rfl | ⟨l, i, rfl⟩
  · rfl
  · simp [List.filterMap_append] at hids

/-! ## How far the queue lags behind -/

def Lag (N d : ℕ) (i : UInt64) (l : List (Option UInt64)) : Prop :=
  (∃ a ≤ d, l = List.replicate a none) ∨
    ∃ a < N, l = List.replicate a none ++ some i :: List.replicate d none

section
variable {N d : ℕ} {i : UInt64} {l : List (Option UInt64)}

theorem Lag.length_le (h : Lag N d i l) : l.length ≤ N + d := by
  rcases h with ⟨a, ha, rfl⟩ | ⟨a, ha, rfl⟩
  · simp; omega
  · simp; omega

theorem Lag.ids (h : Lag N d i l) : l.filterMap id = [] ∨ l.filterMap id = [i] := by
  rcases h with ⟨a, -, rfl⟩ | ⟨a, -, rfl⟩
  · left; simp
  · right; simp [List.filterMap_append]

/-- An unsignaled request is posted. -/
theorem Lag.unsignaled (h : Lag N d i l) : Lag N (d + 1) i (l ++ [none]) := by
  rcases h with ⟨a, ha, rfl⟩ | ⟨a, ha, rfl⟩
  · left; exact ⟨a + 1, by omega, by rw [List.replicate_succ']⟩
  · right; exact ⟨a, ha, by rw [List.replicate_succ', List.append_assoc, List.cons_append]⟩

/-- The `N`-th request is signaled; the one before it must be retired. -/
theorem Lag.signaled (h : Lag N d i l) (hd : d < N) (hl : l.filterMap id = []) :
    Lag N 0 i (l ++ [some i]) := by
  rcases h with ⟨a, ha, rfl⟩ | ⟨a, -, rfl⟩
  · right; exact ⟨a, by omega, rfl⟩
  · simp [List.filterMap_append] at hl

/-- Behind the requests of `l` waits a signaled one.  The completion polled next is its
    own, or that of the signaled request in `l`. -/
theorem Lag.polled (h : Lag N d i l) (j : UInt64) :
    (retire (l ++ [some j]) = [] ∧ (l ++ [some j]).filterMap id = [j]) ∨
      ∃ l', Lag N d i l' ∧ l'.filterMap id = [] ∧ retire (l ++ [some j]) = l' ++ [some j] ∧
        (l ++ [some j]).filterMap id = [i, j] := by
  rcases h with ⟨a, -, rfl⟩ | ⟨a, -, rfl⟩
  · left
    exact ⟨retire_replicate a j [], by simp [List.filterMap_append]⟩
  · right
    refine ⟨List.replicate d none, Or.inl ⟨d, le_rfl, rfl⟩, by simp, ?_, ?_⟩
    · rw [List.append_assoc, List.cons_append, retire_replicate]
    · simp [List.filterMap_append]

end

/-! ## Events -/

/-- Armed, with between `lo` and `hi + 1` of the signaled requests incomplete, or notified,
    with at most `hi`. -/
def Notified (lo hi : ℕ) (cq : CompletionQueue) (incomplete : ℕ) : Prop :=
  (cq.armed = true ∧ cq.events = 0 ∧ lo ≤ incomplete ∧ incomplete ≤ hi + 1) ∨
    (cq.armed = false ∧ cq.events = 1 ∧ incomplete ≤ hi)

section
variable {lo hi k : ℕ} {cq : CompletionQueue}

/-- A signaled request completes. -/
theorem Notified.push (h : Notified lo hi cq (k + 1)) (id : UInt64) :
    Notified lo hi (cq.push id) k := by
  rcases h with ⟨ha, he, -, hk⟩ | ⟨ha, he, hk⟩
  · right; exact ⟨rfl, by simp [CompletionQueue.push, ha, he], by omega⟩
  · right; exact ⟨rfl, by simp [CompletionQueue.push, ha, he], by omega⟩

/-- A signaled request is posted. -/
theorem Notified.post (h : Notified 0 hi cq k) : Notified 1 (hi + 1) cq (k + 1) := by
  rcases h with ⟨ha, he, -, hk⟩ | ⟨ha, he, hk⟩
  · left; exact ⟨ha, he, by omega, by omega⟩
  · right; exact ⟨ha, he, by omega⟩

/-- A signaled request is posted whose completion will be polled for. -/
theorem Notified.postPolled (h : Notified 0 hi cq k) : Notified 0 (hi + 1) cq (k + 1) := by
  rcases h.post with ⟨ha, he, -, hk⟩ | h
  · left; exact ⟨ha, he, Nat.zero_le _, hk⟩
  · right; exact h

/-- A caller that waits for an event will get one. -/
theorem Notified.wakeup (h : Notified 1 hi cq k) : 0 < cq.events ∨ cq.armed = true ∧ 0 < k := by
  rcases h with ⟨ha, -, hk, -⟩ | ⟨-, he, -⟩
  · right; exact ⟨ha, hk⟩
  · left; omega

end

end Verbs
