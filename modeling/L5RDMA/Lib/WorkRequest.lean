/-
  Work request objects, which their setters change and a post sends as they are.

  The objects and slices of registered memory belong to another library, of
  which only the documented effects are known (`Laws`).  A setter changes the
  flags or the local address and keeps the rest, so that an object used again
  still has what earlier calls have set; `setFlags` alone takes flags away.

  `InlineFits n w`: if `w` is INLINE, it has at most `n` bytes.  For an object
  that is INLINE and gets other data, that is up to the length of the data
  (`inlineFits_setLocalAddress`).
-/
import Mathlib.Data.Nat.Notation
import Mathlib.Tactic.SplitIfs

namespace Verbs

inductive Opcode where
  | write
  | writeWithImm
  | read

inductive Flag where
  | SIGNALED
  | INLINE
deriving DecidableEq

/-- A call on a work request object.  A remote address is an offset in its region. -/
inductive Setter (S : Type) where
  | setLocalAddress (slice : S)
  | setRemoteAddress (offset : UInt64)
  | setId (id : UInt64)
  | setFlags (flags : List Flag)
  | setSignaled
  | setInline

namespace Setter
variable {S : Type}

/-- The flags after a call, given those before. -/
def onFlags (c : Setter S) (flags : Flag → Bool) (f : Flag) : Bool :=
  match c with
  | setFlags fs => fs.contains f
  | setSignaled => f == .SIGNALED || flags f
  | setInline => f == .INLINE || flags f
  | setLocalAddress _ | setRemoteAddress _ | setId _ => flags f

/-- The local address after a call. -/
def onSlice (c : Setter S) (slice : S) : S :=
  match c with
  | setLocalAddress s => s
  | setRemoteAddress _ | setId _ | setFlags _ | setSignaled | setInline => slice

end Setter

/-- What is used of memory regions `M`, of their slices `S`, and of work requests `W`. -/
structure WorkRequests (M S W : Type) where
  /-- register so many bytes -/
  register : UInt64 → M
  getSlice : M → UInt32 → UInt32 → S
  /-- `getSlice()`, of the whole region -/
  whole : M → S
  length : S → UInt32
  create : Opcode → W
  set : W → Setter S → W
  flags : W → Flag → Bool
  slice : W → S

namespace WorkRequests
variable {M S W : Type} (v : WorkRequests M S W)

/-- Some calls, one after the other. -/
def sets (w : W) (cs : List (Setter S)) : W := cs.foldl v.set w

def InlineFits (n : ℕ) (w : W) : Prop :=
  v.flags w .INLINE = true → (v.length (v.slice w)).toNat ≤ n

structure Laws : Prop where
  length_getSlice : ∀ m offset n, v.length (v.getSlice m offset n) = n
  length_whole : ∀ n, v.length (v.whole (v.register n)) = n.toUInt32
  flags_create : ∀ op f, v.flags (v.create op) f = false
  flags_set : ∀ w c, v.flags (v.set w c) = c.onFlags (v.flags w)
  slice_set : ∀ w c, v.slice (v.set w c) = c.onSlice (v.slice w)

section
variable {v} {n : ℕ} {w : W}

/-- What a call leaves depends on the flags and the length it leaves. -/
theorem inlineFits_set (h : v.Laws) (c : Setter S) : v.InlineFits n (v.set w c) ↔
    (c.onFlags (v.flags w) .INLINE = true → (v.length (c.onSlice (v.slice w))).toNat ≤ n) := by
  rw [InlineFits, h.flags_set, h.slice_set]

/-- Flags that are set anew do not depend on earlier calls. -/
theorem flags_setFlags (h : v.Laws) (fs : List Flag) (f : Flag) :
    v.flags (v.set w (.setFlags fs)) f = fs.contains f := by
  rw [h.flags_set, Setter.onFlags]

/-- An object that is INLINE stays so when it gets other data. -/
theorem inlineFits_setLocalAddress (h : v.Laws) (hinline : v.flags w .INLINE = true) (s : S) :
    v.InlineFits n (v.set w (.setLocalAddress s)) ↔ (v.length s).toNat ≤ n := by
  rw [inlineFits_set h, Setter.onFlags, Setter.onSlice, hinline]
  exact ⟨fun hle => hle rfl, fun hle _ => hle⟩

theorem inlineFits_of_le (hle : (v.length (v.slice w)).toNat ≤ n) : v.InlineFits n w :=
  fun _ => hle

/-! Calls that are made or not. -/

variable {p : Prop} [Decidable p] {f : Flag}

theorem flags_setInlineIf (h : v.Laws) :
    v.flags (if p then v.set w .setInline else w) f =
      (decide (p ∧ f = .INLINE) || v.flags w f) := by
  split_ifs with hp
  · rw [h.flags_set, Setter.onFlags]
    cases f <;> simp [hp]
  · simp [hp]

theorem flags_setSignaledIf (h : v.Laws) :
    v.flags (if p then v.set w .setSignaled else w) f =
      (decide (p ∧ f = .SIGNALED) || v.flags w f) := by
  split_ifs with hp
  · rw [h.flags_set, Setter.onFlags]
    cases f <;> simp [hp]
  · simp [hp]

theorem slice_setInlineIf (h : v.Laws) :
    v.slice (if p then v.set w .setInline else w) = v.slice w := by
  split_ifs
  · exact h.slice_set w _
  · rfl

theorem slice_setSignaledIf (h : v.Laws) :
    v.slice (if p then v.set w .setSignaled else w) = v.slice w := by
  split_ifs
  · exact h.slice_set w _
  · rfl

end

end WorkRequests

/-! ### Requests that are what was set -/

structure PlainRequest where
  flags : Flag → Bool
  /-- offset and length -/
  slice : UInt32 × UInt32

/-- A memory region is its length. -/
def plain : WorkRequests UInt64 (UInt32 × UInt32) PlainRequest where
  register n := n
  getSlice _ offset n := (offset, n)
  whole n := (0, n.toUInt32)
  length s := s.2
  create _ := ⟨fun _ => false, (0, 0)⟩
  set w c := ⟨c.onFlags w.flags, c.onSlice w.slice⟩
  flags := PlainRequest.flags
  slice := PlainRequest.slice

theorem plain_laws : plain.Laws where
  length_getSlice _ _ _ := rfl
  length_whole _ := rfl
  flags_create _ _ := rfl
  flags_set _ _ := rfl
  slice_set _ _ := rfl

end Verbs
