/-
  A shared receive queue and its completion queue.

  A write with immediate consumes one of the posted receive requests and leaves
  a completion with a key of type `κ` (the number of the queue pair it came in
  on); while none is posted it does not arrive.

  `Pooled q keys away`: there are as many requests as keys, posted, completed
  or `away` (taken out and not yet posted again, or not yet posted for the
  first time), and no two of those that are not posted have the same key.  Then
  a key that is neither completed nor away finds a posted request
  (`Pooled.posted_pos`).
-/
import Mathlib.Data.List.Basic
import Mathlib.Data.List.Nodup
import Mathlib.Data.List.Perm.Subperm
import Mathlib.Data.Nat.Notation

namespace Verbs

structure ReceiveQueue (κ : Type) where
  posted : ℕ
  completions : List κ

namespace ReceiveQueue
variable {κ : Type}

def post (q : ReceiveQueue κ) : ReceiveQueue κ := { q with posted := q.posted + 1 }

def arrive (q : ReceiveQueue κ) (k : κ) : Option (ReceiveQueue κ) :=
  if q.posted = 0 then none
  else some { posted := q.posted - 1, completions := q.completions ++ [k] }

def poll (q : ReceiveQueue κ) : Option (κ × ReceiveQueue κ) :=
  match q.completions with
  | [] => none
  | k :: l => some (k, { q with completions := l })

/-- The requests that are in one of the queues. -/
def size (q : ReceiveQueue κ) : ℕ := q.posted + q.completions.length

@[simp] theorem size_post (q : ReceiveQueue κ) : q.post.size = q.size + 1 := by
  simp only [size, post]; omega

theorem size_arrive {q q' : ReceiveQueue κ} {k : κ} (h : q.arrive k = some q') :
    q'.size = q.size := by
  unfold arrive at h
  split_ifs at h
  cases h
  simp only [size, List.length_append, List.length_singleton]
  omega

theorem size_poll {q q' : ReceiveQueue κ} {k : κ} (h : q.poll = some (k, q')) :
    q'.size + 1 = q.size := by
  unfold poll at h
  split at h
  next => cases h
  next l hl => cases h; simp only [size, hl, List.length_cons]; omega

theorem completions_poll {q q' : ReceiveQueue κ} {k : κ} (h : q.poll = some (k, q')) :
    q.completions = k :: q'.completions := by
  unfold poll at h
  split at h
  next => cases h
  next l hl => cases h; exact hl

theorem completions_arrive {q q' : ReceiveQueue κ} {k : κ} (h : q.arrive k = some q') :
    q'.completions = q.completions ++ [k] := by
  unfold arrive at h
  split_ifs at h
  cases h
  rfl

/-! ## One request for each key -/

structure Pooled (q : ReceiveQueue κ) (keys away : List κ) : Prop where
  size : q.size + away.length = keys.length
  nodup : (q.completions ++ away).Nodup
  mem : ∀ k ∈ q.completions ++ away, k ∈ keys

namespace Pooled
variable {q q' : ReceiveQueue κ} {keys away : List κ} {k : κ}

/-- A key whose request is neither completed nor away finds one that is posted. -/
theorem posted_pos (h : Pooled q keys away) (hk : k ∈ keys) (hnot : k ∉ q.completions ++ away) :
    0 < q.posted := by
  have hnodup : (k :: (q.completions ++ away)).Nodup := List.nodup_cons.2 ⟨hnot, h.nodup⟩
  have hsub : (k :: (q.completions ++ away)) ⊆ keys := by
    intro j hj
    rcases List.mem_cons.1 hj with rfl | hj
    · exact hk
    · exact h.mem j hj
  have hle := (hnodup.subperm hsub).length_le
  have hsize := h.size
  simp only [ReceiveQueue.size, List.length_cons, List.length_append] at hle hsize
  omega

theorem arrive (h : Pooled q keys away) (hk : k ∈ keys) (hnot : k ∉ q.completions ++ away)
    (hq : q.arrive k = some q') : Pooled q' keys away := by
  have hc := completions_arrive hq
  have hperm : (q'.completions ++ away).Perm (k :: (q.completions ++ away)) := by
    rw [hc, List.append_assoc]
    exact List.perm_middle
  refine ⟨by rw [size_arrive hq]; exact h.size, ?_, ?_⟩
  · exact hperm.nodup_iff.2 (List.nodup_cons.2 ⟨hnot, h.nodup⟩)
  · intro j hj
    rcases List.mem_cons.1 (hperm.mem_iff.1 hj) with rfl | hj
    · exact hk
    · exact h.mem j hj

/-- The poller takes a completion, -/
theorem poll (h : Pooled q keys away) (hq : q.poll = some (k, q')) :
    Pooled q' keys (k :: away) := by
  have hc := completions_poll hq
  have hperm : (q'.completions ++ k :: away).Perm (q.completions ++ away) := by
    rw [hc]
    exact List.perm_middle
  refine ⟨?_, hperm.nodup_iff.2 h.nodup, fun j hj => h.mem j (hperm.mem_iff.1 hj)⟩
  have := h.size
  have := size_poll hq
  rw [List.length_cons]
  omega

/-- and posts a request in its place. -/
theorem post (h : Pooled q keys (k :: away)) : Pooled q.post keys away := by
  have hperm : (q.completions ++ k :: away).Perm (k :: (q.completions ++ away)) :=
    List.perm_middle
  refine ⟨?_, (List.nodup_cons.1 (hperm.nodup_iff.1 h.nodup)).2, ?_⟩
  · have := h.size
    rw [List.length_cons] at this
    rw [size_post]
    omega
  · intro j hj
    exact h.mem j (hperm.mem_iff.2 (List.mem_cons_of_mem _ hj))

/-- A new key, for which nothing is posted yet. -/
theorem join (h : Pooled q keys away) (hk : k ∉ keys) : Pooled q (keys ++ [k]) (k :: away) := by
  have hperm : (q.completions ++ k :: away).Perm (k :: (q.completions ++ away)) :=
    List.perm_middle
  refine ⟨?_, ?_, ?_⟩
  · have := h.size
    rw [List.length_cons, List.length_append, List.length_singleton]
    omega
  · exact hperm.nodup_iff.2 (List.nodup_cons.2 ⟨fun hmem => hk (h.mem k hmem), h.nodup⟩)
  · intro j hj
    rcases List.mem_cons.1 (hperm.mem_iff.1 hj) with rfl | hj
    · simp
    · exact List.mem_append_left _ (h.mem j hj)

end Pooled

end ReceiveQueue

end Verbs
