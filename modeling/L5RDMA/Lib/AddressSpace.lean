/-
  Address spaces.

  A space says for each address which byte of which object is there, if any.
  The objects' bytes are kept apart from the spaces, so that several addresses,
  of one space or of several, may be one byte.

  * `map`, `unmap`: ranges of addresses are mapped to the start of an object, and
    unmapped;
  * `Maps`, `Twice`: an object is mapped to a range, once, or twice in a row;
  * `load_of_twice`, `store_of_twice`: a range to which an object of `n` bytes is
    mapped twice is its memory, with indices modulo `n`.
-/
import L5RDMA.Lib.Bytes
import Mathlib.Logic.Function.Basic

namespace L5RDMA

variable {φ : Type}

abbrev AddressSpace (φ : Type) := ℕ → Option (φ × ℕ)

namespace AddressSpace

/-- Nothing is mapped. -/
def empty : AddressSpace φ := fun _ => none

def map (sp : AddressSpace φ) (addr len : ℕ) (o : φ) : AddressSpace φ := fun a =>
  if addr ≤ a ∧ a < addr + len then some (o, a - addr) else sp a

def unmap (sp : AddressSpace φ) (addr len : ℕ) : AddressSpace φ := fun a =>
  if addr ≤ a ∧ a < addr + len then none else sp a

/-- Nothing is mapped to the range. -/
def Free (sp : AddressSpace φ) (addr len : ℕ) : Prop := ∀ i < len, (sp (addr + i)).isNone = true

instance (sp : AddressSpace φ) (addr len : ℕ) : Decidable (sp.Free addr len) :=
  inferInstanceAs (Decidable (∀ i < len, (sp (addr + i)).isNone = true))

/-- The range is mapped to the start of `o`. -/
def Maps (sp : AddressSpace φ) (addr len : ℕ) (o : φ) : Prop :=
  ∀ i < len, sp (addr + i) = some (o, i)

/-- `o` is mapped to the range of `n` bytes and to the next. -/
def Twice (sp : AddressSpace φ) (addr n : ℕ) (o : φ) : Prop :=
  sp.Maps addr n o ∧ sp.Maps (addr + n) n o

section
variable {sp : AddressSpace φ} {addr len addr' len' n a : ℕ} {o o' : φ}

theorem map_of_lt (h : a < addr) : sp.map addr len o a = sp a := if_neg fun h' => by omega

theorem map_of_ge (h : addr + len ≤ a) : sp.map addr len o a = sp a := if_neg fun h' => by omega

theorem maps_map : (sp.map addr len o).Maps addr len o := by
  intro i hi
  rw [map, if_pos ⟨Nat.le_add_right _ _, by omega⟩, Nat.add_sub_cancel_left]

theorem unmap_of_lt (h : a < addr) : sp.unmap addr len a = sp a := if_neg fun h' => by omega

theorem unmap_of_ge (h : addr + len ≤ a) : sp.unmap addr len a = sp a := if_neg fun h' => by omega

/-- Only the range matters. -/
theorem Maps.congr {sp' : AddressSpace φ} (h : sp.Maps addr len o)
    (hsp : ∀ a, addr ≤ a → a < addr + len → sp' a = sp a) : sp'.Maps addr len o :=
  fun i hi => (hsp _ (Nat.le_add_right _ _) (by omega)).trans (h i hi)

theorem Twice.congr {sp' : AddressSpace φ} (h : sp.Twice addr n o)
    (hsp : ∀ a, addr ≤ a → a < addr + 2 * n → sp' a = sp a) : sp'.Twice addr n o :=
  ⟨h.1.congr fun a h₁ h₂ => hsp a h₁ (by omega),
    h.2.congr fun a h₁ h₂ => hsp a (by omega) (by omega)⟩

/-- The second mapping of the two leaves the first as it is. -/
theorem Maps.twice (h : sp.Maps addr n o) : (sp.map (addr + n) n o).Twice addr n o :=
  ⟨h.congr fun _ _ ha => map_of_lt ha, maps_map⟩

/-- **The addresses are the bytes of the object, modulo its length.** -/
theorem Twice.eq_mod (h : sp.Twice addr n o) (ha : a < 2 * n) :
    sp (addr + a) = some (o, a % n) := by
  rcases Nat.lt_or_ge a n with hlt | hge
  · rw [Nat.mod_eq_of_lt hlt]
    exact h.1 a hlt
  · obtain ⟨i, rfl⟩ := Nat.exists_eq_add_of_le hge
    rw [Nat.add_mod_left, Nat.mod_eq_of_lt (by omega), ← Nat.add_assoc]
    exact h.2 i (by omega)

end

/-! ## Loads and stores -/

/-- The bytes of the objects. -/
abbrev Objects (φ : Type) := φ → Mem

variable [DecidableEq φ]

/-- The bytes from `addr` on; nothing if one is not mapped. -/
def load (sp : AddressSpace φ) (m : Objects φ) (addr : ℕ) : ℕ → Option (List UInt8)
  | 0 => some []
  | len + 1 =>
    match sp addr, load sp m (addr + 1) len with
    | some (o, i), some bs => some (m o i :: bs)
    | _, _ => none

/-- Copy `bs` to the addresses from `addr` on. -/
def store (sp : AddressSpace φ) (m : Objects φ) (addr : ℕ) : List UInt8 → Option (Objects φ)
  | [] => some m
  | b :: bs =>
    match sp addr with
    | some (o, i) =>
      store sp (Function.update m o fun j => if j = i then b else m o j) (addr + 1) bs
    | none => none

section
variable {sp : AddressSpace φ} {m : Objects φ} {addr off n len : ℕ} {bs : List UInt8} {o : φ}

omit [DecidableEq φ] in
theorem read_succ (phys : ℕ → ℕ) (m : Mem) (off len : ℕ) :
    Mem.read phys m off (len + 1) = m (phys off) :: Mem.read phys m (off + 1) len := by
  rw [Mem.read, List.range_succ_eq_map, List.map_cons, List.map_map, Mem.read]
  congr 1
  refine List.map_congr_left fun i _ => ?_
  rw [Function.comp_apply, Nat.succ_eq_add_one, Nat.add_comm i, Nat.add_assoc]

omit [DecidableEq φ] in
theorem load_of_twice (h : sp.Twice addr n o) (hle : off + len ≤ 2 * n) :
    sp.load m (addr + off) len = some (Mem.read (· % n) (m o) off len) := by
  induction len generalizing off with
  | zero => rfl
  | succ len ih =>
    rw [read_succ, load, h.eq_mod (by omega), Nat.add_assoc, ih (by omega)]

theorem store_of_twice (h : sp.Twice addr n o) (hle : off + bs.length ≤ 2 * n) :
    sp.store m (addr + off) bs =
      some (Function.update m o (Mem.write (· % n) (m o) off bs)) := by
  induction bs generalizing off m with
  | nil => rw [Mem.write, Function.update_eq_self]; rfl
  | cons b bs ih =>
    rw [List.length_cons] at hle
    rw [store, h.eq_mod (by omega)]
    dsimp only
    rw [Nat.add_assoc, ih (by omega), Function.update_idem, Function.update_self, Mem.write]

end

end AddressSpace

end L5RDMA
