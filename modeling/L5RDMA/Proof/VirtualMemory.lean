/-
  The rings of `mmapRingBuffer` are mapped twice, and stay so.

  * `Call.Claims`: the addresses that a call has mapped.  No two calls of one
    process claim the same (`Inv`), since the kernel chooses only free addresses
    and what a call fixes is its own;
  * `stays_mapped`: of a call that has returned, in every state behind it.  A size
    that is a byte more than whole pages is left out (`Machine.Stray`): if its
    reservation fails, the second half may be mapped over anything;
  * `mmapRingBuffer_outcome`: whether a call returns or throws, and what;
  * `shared_ring`: two rings of one file are the same bytes, in whatever
    processes they are.
-/
import L5RDMA.VirtualMemory

namespace L5RDMA

namespace VirtualMemory

open Run
open AddressSpace (Maps Twice)

variable {mc : Machine}

/-! ## Pages -/

section
variable (mc) (n : ℕ)

theorem Machine.le_roundUp : n ≤ mc.roundUp n := by
  have h := Nat.div_add_mod (n + mc.page - 1) mc.page
  have hlt := Nat.mod_lt (n + mc.page - 1) mc.page_pos
  have hpos := mc.page_pos
  rw [Machine.roundUp, Nat.mul_comm]
  omega

theorem Machine.roundUp_mono {n n' : ℕ} (h : n ≤ n') : mc.roundUp n ≤ mc.roundUp n' :=
  Nat.mul_le_mul_right _ (Nat.div_le_div_right (by omega))

theorem Machine.roundUp_of_dvd {n : ℕ} (h : mc.page ∣ n) : mc.roundUp n = n := by
  obtain ⟨k, rfl⟩ := h
  have hpos := mc.page_pos
  rw [Machine.roundUp, Nat.add_sub_assoc hpos, Nat.mul_add_div hpos,
    Nat.div_eq_of_lt (by omega), Nat.add_zero, Nat.mul_comm]

/-- `MAP_FAILED` is not the start of a page. -/
theorem Machine.not_dvd_mapFailed : ¬ mc.page ∣ mapFailed := by
  intro h
  have h2 : 2 ∣ mapFailed := mc.even.trans h
  revert h2
  decide

end

/-! ## What a call has mapped -/

/-- Where it starts. -/
def Call.base (call : Call) : Option ℕ :=
  match call.pc with
  | .first ptr | .second ptr | .memset ptr | .returned ptr => held ptr
  | .threw _ leaked => leaked
  | .ftruncate | .reserve | .map | .segfault => none

def Call.Claims (mc : Machine) (call : Call) (a : ℕ) : Prop :=
  ∃ ptr ∈ call.base, ptr ≤ a ∧ a < ptr + mc.roundUp call.mapLength

/-- The second half would be at the start of a page if the first were at `MAP_FAILED`. -/
def Machine.Stray (mc : Machine) (size : ℕ) : Prop := 0 < size ∧ mc.page ∣ size - 1

/-- There is room for the ring at `ptr`. -/
def Call.Reserved (mc : Machine) (call : Call) (ptr : ℕ) : Prop :=
  mc.page ∣ ptr ∧ ptr + 2 * call.size.toNat ≤ mc.top

/-- What is there, of a call of `mmapRingBuffer`, -/
def Call.Ring (mc : Machine) (call : Call) (sp : AddressSpace Object) : Prop :=
  match call.pc with
  | .reserve => call.size.toNat < 2 ^ 63
  | .first ptr => call.size.toNat < 2 ^ 63 ∧ (ptr = mapFailed ∨ call.Reserved mc ptr)
  | .second ptr =>
    call.size.toNat < 2 ^ 63 ∧ (ptr = mapFailed ∨ 0 < call.size.toNat ∧ call.Reserved mc ptr ∧
      sp.Maps ptr (mc.roundUp call.size.toNat) (.file call.file))
  | .memset ptr | .returned ptr =>
    call.size.toNat < 2 ^ 63 ∧ (ptr = mapFailed ∧ call.size.toNat = 0 ∨
      mc.page ∣ ptr ∧ mc.page ∣ call.size.toNat ∧ sp.Twice ptr call.size.toNat (.file call.file))
  | .map => False
  | .ftruncate | .threw _ _ | .segfault => True

/-- and of `malloc_shared`. -/
def Call.Shared (mc : Machine) (call : Call) (sp : AddressSpace Object) : Prop :=
  match call.pc with
  | .memset ptr | .returned ptr =>
    ptr = mapFailed ∨ mc.page ∣ ptr ∧
      sp.Maps ptr (mc.roundUp call.size.toNat) (.file call.file)
  | .reserve | .first _ | .second _ => False
  | .ftruncate | .map | .threw _ _ | .segfault => True

def Call.Holds (mc : Machine) (call : Call) (sp : AddressSpace Object) : Prop :=
  match call.function with
  | .mmapRingBuffer _ => ¬ mc.Stray call.size.toNat ∧ call.Ring mc sp
  | .mallocShared _ => call.Shared mc sp

section
variable {call : Call} {sp sp' : AddressSpace Object} {a ptr : ℕ}

theorem Call.twiceSize_eq (h : call.size.toNat < 2 ^ 63) :
    call.twiceSize = 2 * call.size.toNat := by
  have h2 : (2 : UInt64).toNat = 2 := rfl
  rw [Call.twiceSize, UInt64.toNat_mul, h2]
  omega

theorem ne_mapFailed (h : mc.page ∣ ptr) : ptr ≠ mapFailed := by
  rintro rfl
  exact mc.not_dvd_mapFailed h

theorem held_of_dvd (h : mc.page ∣ ptr) : held ptr = some ptr := if_neg (ne_mapFailed h)

@[simp] theorem held_mapFailed : held mapFailed = none := if_pos rfl

/-- Behind a reservation that has failed, the second half begins below the end of the first. -/
theorem Call.secondHalf_mapFailed (h : call.size.toNat < 2 ^ 63) (hpos : 0 < call.size.toNat) :
    call.secondHalf mapFailed = call.size.toNat - 1 := by
  rw [Call.secondHalf, mapFailed]
  omega

theorem Call.secondHalf_of_zero (h : call.size.toNat = 0) :
    call.secondHalf mapFailed = mapFailed := by
  rw [Call.secondHalf, h, mapFailed]; rfl

theorem Call.Reserved.secondHalf_eq (h : call.Reserved mc ptr) :
    call.secondHalf ptr = ptr + call.size.toNat := by
  have hend := h.2.trans mc.top_le
  exact Nat.mod_eq_of_lt (by omega)

theorem Call.Reserved.secondHalf_ne (h : call.Reserved mc ptr) :
    mapFailed ≠ call.secondHalf ptr := by
  have hend := h.2.trans mc.top_le
  rw [h.secondHalf_eq, mapFailed]
  omega

theorem Call.claims_iff {base : Option ℕ} (h : call.base = base) : call.Claims mc a ↔
    ∃ ptr ∈ base, ptr ≤ a ∧ a < ptr + mc.roundUp call.mapLength := by
  rw [Call.Claims, h]

theorem Call.claims_some (h : call.base = some ptr) :
    call.Claims mc a ↔ ptr ≤ a ∧ a < ptr + mc.roundUp call.mapLength := by
  rw [Call.claims_iff h]
  exact ⟨fun ⟨_, hp, ha⟩ => by cases hp; exact ha, fun ha => ⟨ptr, rfl, ha⟩⟩

theorem Call.not_claims (h : call.base = none) : ¬ call.Claims mc a := by
  rw [Call.claims_iff h]
  rintro ⟨_, hp, -⟩
  cases hp

theorem Call.mapLength_ring {init : Bool} (hf : call.function = .mmapRingBuffer init)
    (h : call.size.toNat < 2 ^ 63) : call.mapLength = 2 * call.size.toNat := by
  rw [Call.mapLength, hf]
  exact Call.twiceSize_eq h

theorem Call.mapLength_shared {byName : Bool} (hf : call.function = .mallocShared byName) :
    call.mapLength = call.size.toNat := by
  rw [Call.mapLength, hf]

/-- The call has mapped memory at `ptr`, if `mmap` has not failed. -/
def Pc.At (pc : Pc) (ptr : ℕ) : Prop :=
  pc = .first ptr ∨ pc = .second ptr ∨ pc = .memset ptr ∨ pc = .returned ptr

theorem Call.base_of_at (hpc : call.pc.At ptr) : call.base = held ptr := by
  rw [Call.base]
  obtain hpc | hpc | hpc | hpc := hpc <;> rw [hpc]

theorem Call.base_some (hpc : call.pc.At ptr) (h : mc.page ∣ ptr) : call.base = some ptr :=
  (Call.base_of_at hpc).trans (held_of_dvd h)

theorem Call.mapped_at (call : Call) (ptr : ℕ) : (call.mapped ptr).pc.At ptr := by
  obtain ⟨proc, function, file, size, pc⟩ := call
  obtain (_ | _) | (_ | _) := function <;> simp [Call.mapped, Pc.At]

/-- What is mapped where the call claims it stays so if only other addresses change. -/
theorem Call.maps_congr {n : ℕ} {o : Object} (hbase : call.base = some ptr)
    (hle : n ≤ mc.roundUp call.mapLength) (h : sp.Maps ptr n o)
    (hsp : ∀ a, call.Claims mc a → sp' a = sp a) : sp'.Maps ptr n o :=
  h.congr fun a h₁ h₂ => hsp a ((Call.claims_some hbase).2 ⟨h₁, by omega⟩)

theorem Call.twice_congr {n : ℕ} {o : Object} (hbase : call.base = some ptr)
    (hle : 2 * n ≤ mc.roundUp call.mapLength) (h : sp.Twice ptr n o)
    (hsp : ∀ a, call.Claims mc a → sp' a = sp a) : sp'.Twice ptr n o :=
  h.congr fun a h₁ h₂ => hsp a ((Call.claims_some hbase).2 ⟨h₁, by omega⟩)

/-- Only what a call claims matters to it. -/
theorem Call.Holds.congr (h : call.Holds mc sp) (hsp : ∀ a, call.Claims mc a → sp' a = sp a) :
    call.Holds mc sp' := by
  unfold Call.Holds at h ⊢
  cases hf : call.function with
  | mmapRingBuffer init =>
    simp only [hf, Call.Ring] at h ⊢
    cases hpc : call.pc with
    | second ptr =>
      simp only [hpc] at h ⊢
      obtain ⟨hsound, hlt, rfl | ⟨hpos, hroom, hmaps⟩⟩ := h
      · exact ⟨hsound, hlt, Or.inl rfl⟩
      have hle : mc.roundUp call.size.toNat ≤ mc.roundUp call.mapLength := by
        rw [Call.mapLength_ring hf hlt]
        exact mc.roundUp_mono (by omega)
      have hbase : call.base = some ptr := Call.base_some (by simp [hpc, Pc.At]) hroom.1
      exact ⟨hsound, hlt, Or.inr ⟨hpos, hroom, Call.maps_congr hbase hle hmaps hsp⟩⟩
    | memset ptr | returned ptr =>
      simp only [hpc] at h ⊢
      obtain ⟨hsound, hlt, hzero | ⟨hpage, hdvd, htwice⟩⟩ := h
      · exact ⟨hsound, hlt, Or.inl hzero⟩
      have hle : 2 * call.size.toNat ≤ mc.roundUp call.mapLength := by
        rw [Call.mapLength_ring hf hlt]
        exact mc.le_roundUp _
      have hbase : call.base = some ptr := Call.base_some (by simp [hpc, Pc.At]) hpage
      exact ⟨hsound, hlt, Or.inr ⟨hpage, hdvd, Call.twice_congr hbase hle htwice hsp⟩⟩
    | reserve | first => simpa only [hpc] using h
    | map => simp only [hpc, and_false] at h
    | ftruncate | threw | segfault => exact ⟨h.1, trivial⟩
  | mallocShared byName =>
    simp only [hf, Call.Shared] at h ⊢
    cases hpc : call.pc with
    | memset ptr | returned ptr =>
      simp only [hpc] at h ⊢
      obtain rfl | ⟨hpage, hmaps⟩ := h
      · exact Or.inl rfl
      · have hbase : call.base = some ptr := Call.base_some (by simp [hpc, Pc.At]) hpage
        have hle : mc.roundUp call.size.toNat ≤ mc.roundUp call.mapLength := by
          rw [Call.mapLength_shared hf]
        exact Or.inr ⟨hpage, Call.maps_congr hbase hle hmaps hsp⟩
    | reserve | first | second => simp only [hpc] at h
    | ftruncate | map | threw | segfault => simp only

end

/-- The calls hold what they need, and what they claim is mapped and nobody else's. -/
structure Inv (mc : Machine) (s : State) : Prop where
  holds : ∀ c call, s.calls c = some call → call.Holds mc (s.spaces call.proc)
  mapped : ∀ c call, s.calls c = some call → ∀ a, call.Claims mc a →
    s.spaces call.proc a ≠ none
  apart : ∀ c c' call call', s.calls c = some call → s.calls c' = some call' → c ≠ c' →
    call.proc = call'.proc → ∀ a, call.Claims mc a → ¬ call'.Claims mc a

/-- The call `c` has taken a step. -/
theorem calls_cases {s s' : State} {c c' : ℕ} {call call' : Call}
    (hcalls : s'.calls = Function.update s.calls c (some call)) (h : s'.calls c' = some call') :
    c' = c ∧ call' = call ∨ c' ≠ c ∧ s.calls c' = some call' := by
  rw [hcalls] at h
  by_cases hne : c' = c
  · subst hne
    rw [Function.update_self] at h
    exact Or.inl ⟨rfl, (Option.some.inj h).symm⟩
  · rw [Function.update_of_ne hne] at h
    exact Or.inr ⟨hne, h⟩

/-- The call `c` is over. -/
theorem calls_cases_none {s s' : State} {c c' : ℕ} {call' : Call}
    (hcalls : s'.calls = Function.update s.calls c none) (h : s'.calls c' = some call') :
    c' ≠ c ∧ s.calls c' = some call' := by
  rw [hcalls] at h
  by_cases hne : c' = c
  · subst hne
    rw [Function.update_self] at h
    cases h
  · rw [Function.update_of_ne hne] at h
    exact ⟨hne, h⟩

section
variable {s s' : State} {c : ℕ} {call : Call} {sp : AddressSpace Object}

theorem inv_init (spaces : ℕ → AddressSpace Object) (length : ℕ → ℕ)
    (memory : AddressSpace.Objects Object) : Inv mc (init spaces length memory) where
  holds _ _ h := by cases h
  mapped _ _ h := by cases h
  apart _ _ _ _ h := by cases h

/-- A step of the call `c`, which leaves what is not its own as it is. -/
theorem Inv.update (h : Inv mc s) (hcalls : s'.calls = Function.update s.calls c (some call))
    (hspaces : s'.spaces = Function.update s.spaces call.proc sp) (hholds : call.Holds mc sp)
    (hmapped : ∀ a, call.Claims mc a → sp a ≠ none)
    (hframe : ∀ a, ¬ call.Claims mc a → sp a = s.spaces call.proc a)
    (hclaims : ∀ a, call.Claims mc a → s.spaces call.proc a = none ∨
      ∃ old, s.calls c = some old ∧ old.proc = call.proc ∧ old.Claims mc a) : Inv mc s' := by
  -- what is another call's is not claimed
  have hothers : ∀ c' call', c' ≠ c → s.calls c' = some call' → call'.proc = call.proc →
      ∀ a, call'.Claims mc a → ¬ call.Claims mc a := by
    intro c' call' hne hcall' hproc a ha hclaim
    rcases hclaims a hclaim with hnone | ⟨old, hold, hproc', holdclaim⟩
    · exact h.mapped c' call' hcall' a ha (by rw [hproc]; exact hnone)
    · exact h.apart c' c call' old hcall' hold hne (hproc.trans hproc'.symm) a ha holdclaim
  have hspace : ∀ c' call', c' ≠ c → s.calls c' = some call' → ∀ a, call'.Claims mc a →
      s'.spaces call'.proc a = s.spaces call'.proc a := by
    intro c' call' hne hcall' a ha
    rw [hspaces]
    by_cases hproc : call'.proc = call.proc
    · rw [hproc, Function.update_self]
      exact hframe a (hothers c' call' hne hcall' hproc a ha)
    · rw [Function.update_of_ne hproc]
  have hself : s'.spaces call.proc = sp := by rw [hspaces, Function.update_self]
  constructor
  · intro c' call' hcall'
    rcases calls_cases hcalls hcall' with ⟨rfl, rfl⟩ | ⟨hne, hcall'⟩
    · rw [hself]
      exact hholds
    · exact (h.holds c' call' hcall').congr (hspace c' call' hne hcall')
  · intro c' call' hcall' a ha
    rcases calls_cases hcalls hcall' with ⟨rfl, rfl⟩ | ⟨hne, hcall'⟩
    · rw [hself]
      exact hmapped a ha
    · rw [hspace c' call' hne hcall' a ha]
      exact h.mapped c' call' hcall' a ha
  · intro c₁ c₂ call₁ call₂ h₁ h₂ hne hproc a ha
    rcases calls_cases hcalls h₁ with ⟨rfl, rfl⟩ | ⟨hc₁, h₁⟩
    · rcases calls_cases hcalls h₂ with ⟨rfl, rfl⟩ | ⟨hc₂, h₂⟩
      · exact absurd rfl hne
      · exact fun h₂' => hothers c₂ call₂ hc₂ h₂ hproc.symm a h₂' ha
    · rcases calls_cases hcalls h₂ with ⟨rfl, rfl⟩ | ⟨hc₂, h₂⟩
      · exact hothers c₁ call₁ hc₁ h₁ hproc a ha
      · exact h.apart c₁ c₂ call₁ call₂ h₁ h₂ hne hproc a ha

/-- A step of the call `c` that maps nothing. -/
theorem Inv.setCall (h : Inv mc s) (hcalls : s'.calls = Function.update s.calls c (some call))
    (hspaces : s'.spaces = s.spaces) (hholds : call.Holds mc (s.spaces call.proc))
    (hclaims : ∀ a, call.Claims mc a →
      ∃ old, s.calls c = some old ∧ old.proc = call.proc ∧ old.Claims mc a) : Inv mc s' := by
  refine h.update hcalls (by rw [hspaces, Function.update_eq_self]) hholds (fun a ha => ?_)
    (fun _ _ => rfl) fun a ha => Or.inr (hclaims a ha)
  obtain ⟨old, hold, hproc, holdclaim⟩ := hclaims a ha
  rw [← hproc]
  exact h.mapped c old hold a holdclaim

/-- A call that has returned is over, and its memory unmapped. -/
theorem Inv.destroy (h : Inv mc s) (hcall : s.calls c = some call)
    (hcalls : s'.calls = Function.update s.calls c none)
    (hspaces : s'.spaces = Function.update s.spaces call.proc sp)
    (hframe : ∀ a, ¬ call.Claims mc a → sp a = s.spaces call.proc a) : Inv mc s' := by
  have hspace : ∀ c' call', c' ≠ c → s.calls c' = some call' → ∀ a, call'.Claims mc a →
      s'.spaces call'.proc a = s.spaces call'.proc a := by
    intro c' call' hne hcall' a ha
    rw [hspaces]
    by_cases hproc : call'.proc = call.proc
    · rw [hproc, Function.update_self]
      exact hframe a (h.apart c' c call' call hcall' hcall hne hproc a ha)
    · rw [Function.update_of_ne hproc]
  constructor
  · intro c' call' hcall'
    obtain ⟨hne, hcall'⟩ := calls_cases_none hcalls hcall'
    exact (h.holds c' call' hcall').congr (hspace c' call' hne hcall')
  · intro c' call' hcall' a ha
    obtain ⟨hne, hcall'⟩ := calls_cases_none hcalls hcall'
    rw [hspace c' call' hne hcall' a ha]
    exact h.mapped c' call' hcall' a ha
  · intro c₁ c₂ call₁ call₂ h₁ h₂ hc
    exact h.apart c₁ c₂ call₁ call₂ (calls_cases_none hcalls h₁).2
      (calls_cases_none hcalls h₂).2 hc

end

/-! ## Steps -/

section
variable {s s' : State} {c : ℕ} {call : Call} {ptr : ℕ} {sp : AddressSpace Object}

/-- The call has claimed this before. -/
theorem claims_of_base {call' : Call} (hcall : s.calls c = some call)
    (hproc : call.proc = call'.proc) (hbase : call'.base = call.base)
    (hlength : call'.mapLength = call.mapLength) :
    ∀ a, call'.Claims mc a → ∃ old, s.calls c = some old ∧ old.proc = call'.proc ∧
      old.Claims mc a := by
  intro a ha
  refine ⟨call, hcall, hproc, ?_⟩
  rwa [Call.Claims, hbase, hlength] at ha

/-- The kernel finds free memory. -/
theorem Inv.mapFree (h : Inv mc s) (call : Call) (o : Object) {addr : ℕ}
    (hmay : mc.MayMap (s.spaces call.proc) call.mapLength (.addr addr))
    (hbase : call.base = some addr)
    (hcalls : s'.calls = Function.update s.calls c (some call))
    (hspaces : s'.spaces = Function.update s.spaces call.proc
      ((s.spaces call.proc).map addr (mc.roundUp call.mapLength) o))
    (hholds : call.Holds mc ((s.spaces call.proc).map addr (mc.roundUp call.mapLength) o)) :
    Inv mc s' := by
  obtain ⟨-, -, -, hfree⟩ := hmay
  refine h.update hcalls hspaces hholds (fun a ha => ?_) (fun a ha => ?_) fun a ha => Or.inl ?_
  · obtain ⟨i, rfl⟩ := Nat.exists_eq_add_of_le ((Call.claims_some hbase).1 ha).1
    have hi := ((Call.claims_some hbase).1 ha).2
    rw [AddressSpace.maps_map i (by omega)]
    exact Option.some_ne_none _
  · rw [Call.claims_some hbase, not_and_or, not_le, not_lt] at ha
    rcases ha with ha | ha
    · exact AddressSpace.map_of_lt ha
    · exact AddressSpace.map_of_ge ha
  · obtain ⟨i, rfl⟩ := Nat.exists_eq_add_of_le ((Call.claims_some hbase).1 ha).1
    have hi := ((Call.claims_some hbase).1 ha).2
    exact Option.isNone_iff_eq_none.1 (hfree i (by omega))

/-- A mapping inside of what the call has claimed. -/
theorem Inv.mapFixed (h : Inv mc s) (call' : Call) {addr len : ℕ} {o : Object}
    (hcall : s.calls c = some call) (hproc : call.proc = call'.proc)
    (hbase : call.base = some ptr) (hbase' : call'.base = some ptr)
    (hlength : call'.mapLength = call.mapLength) (hle : ptr ≤ addr)
    (hend : addr + len ≤ ptr + mc.roundUp call.mapLength)
    (hcalls : s'.calls = Function.update s.calls c (some call'))
    (hspaces : s'.spaces = Function.update s.spaces call'.proc
      ((s.spaces call'.proc).map addr len o))
    (hholds : call'.Holds mc ((s.spaces call'.proc).map addr len o)) : Inv mc s' := by
  have hclaims (a : ℕ) (ha : call'.Claims mc a) :=
    claims_of_base hcall hproc (hbase'.trans hbase.symm) hlength a ha
  have hold : ∀ a, call'.Claims mc a → s.spaces call'.proc a ≠ none := by
    intro a ha
    obtain ⟨old, hold, hproc, hclaim⟩ := hclaims a ha
    rw [← hproc]
    exact h.mapped c old hold a hclaim
  refine h.update hcalls hspaces hholds (fun a ha => ?_) (fun a ha => ?_) fun a ha =>
    Or.inr (hclaims a ha)
  · rw [AddressSpace.map]
    split_ifs
    · exact Option.some_ne_none _
    · exact hold a ha
  · rw [Call.claims_some hbase', hlength, not_and_or, not_le, not_lt] at ha
    rcases ha with ha | ha
    · exact AddressSpace.map_of_lt (by omega)
    · exact AddressSpace.map_of_ge (by omega)

end

section
variable {s s' : State} {c : ℕ} {call : Call} {ptr : ℕ}

theorem inv_ftruncate {ok : Bool} (h : Inv mc s) (hcall : s.calls c = some call)
    (hs : s.ftruncate c call ok = some s') : Inv mc s' := by
  have hholds := h.holds c call hcall
  cases ok with
  | true =>
    rw [State.ftruncate] at hs
    split_ifs at hs with hlt
    cases hf : call.function with
    | mmapRingBuffer init =>
      simp only [hf] at hs
      cases hs
      refine h.setCall rfl rfl ?_ fun a ha => absurd ha (Call.not_claims rfl)
      simp only [Call.Holds, hf, Call.Ring] at hholds ⊢
      exact ⟨hholds.1, hlt⟩
    | mallocShared byName =>
      simp only [hf] at hs
      cases hs
      refine h.setCall rfl rfl ?_ fun a ha => absurd ha (Call.not_claims rfl)
      simp only [Call.Holds, Call.Shared]
  | false =>
    cases hs
    refine h.setCall rfl rfl ?_ fun a ha => absurd ha (Call.not_claims rfl)
    cases hf : call.function with
    | mmapRingBuffer init =>
      simp only [Call.Holds, hf, Call.Ring] at hholds ⊢
      exact ⟨hholds.1, trivial⟩
    | mallocShared byName => simp only [Call.Holds, Call.Shared]

/-- A call that is at one of the mappings of a ring is one of `mmapRingBuffer`. -/
theorem exists_ring (h : Inv mc s) (hcall : s.calls c = some call)
    (hpc : call.pc = .reserve ∨ (∃ ptr, call.pc = .first ptr) ∨ ∃ ptr, call.pc = .second ptr) :
    ∃ init, call.function = .mmapRingBuffer init := by
  have hholds := h.holds c call hcall
  cases hf : call.function with
  | mmapRingBuffer init => exact ⟨init, rfl⟩
  | mallocShared byName =>
    obtain hpc | ⟨ptr, hpc⟩ | ⟨ptr, hpc⟩ := hpc <;>
      simp only [Call.Holds, hf, Call.Shared, hpc] at hholds

theorem inv_reserve {r : Result} (h : Inv mc s) (hcall : s.calls c = some call)
    (hpc : call.pc = .reserve) (hs : s.mmap mc c call r = some s') : Inv mc s' := by
  obtain ⟨init, hf⟩ := exists_ring h hcall (Or.inl hpc)
  obtain ⟨hsound, hlt⟩ : ¬ mc.Stray call.size.toNat ∧ call.size.toNat < 2 ^ 63 := by
    have hholds := h.holds c call hcall
    simpa only [Call.Holds, hf, Call.Ring, hpc] using hholds
  have htwice : call.twiceSize = call.mapLength := by rw [Call.mapLength, hf]
  simp only [State.mmap, hpc] at hs
  obtain ⟨hmay, hs⟩ := Option.ite_none_right_eq_some.1 hs
  cases r with
  | addr a =>
    cases hs
    obtain ⟨-, hpage, hend, -⟩ := id hmay
    have hroom : call.Reserved mc a := by
      have hle := mc.le_roundUp call.twiceSize
      rw [Call.twiceSize_eq hlt] at hle hend
      exact ⟨hpage, by omega⟩
    refine h.mapFree { call with pc := .first a } .anonymous (htwice ▸ hmay) ?_ rfl ?_ ?_
    · exact (Call.base_of_at (Or.inl rfl)).trans (held_of_dvd hpage)
    · simp only [State.setCall, State.setSpace, htwice]; rfl
    · simp only [Call.Holds, hf, Call.Ring]
      exact ⟨hsound, hlt, Or.inr hroom⟩
  | failed errno =>
    cases hs
    refine h.setCall rfl rfl ?_ fun a ha => ?_
    · simp only [Call.Holds, hf, Call.Ring]
      exact ⟨hsound, hlt, Or.inl rfl⟩
    · exact absurd ha (Call.not_claims ((Call.base_of_at (Or.inl rfl)).trans held_mapFailed))

theorem inv_first {r : Result} (h : Inv mc s) (hcall : s.calls c = some call)
    (hpc : call.pc = .first ptr) (hs : s.mmap mc c call r = some s') : Inv mc s' := by
  obtain ⟨init, hf⟩ := exists_ring h hcall (Or.inr (Or.inl ⟨ptr, hpc⟩))
  have hholds := h.holds c call hcall
  simp only [Call.Holds, hf, Call.Ring, hpc] at hholds
  obtain ⟨hsound, hlt, hptr⟩ := hholds
  have hbase : call.base = held ptr := Call.base_of_at (Or.inl hpc)
  simp only [State.mmap, hpc] at hs
  obtain ⟨hmay, hs⟩ := Option.ite_none_right_eq_some.1 hs
  cases hs
  cases r with
  | addr a =>
    obtain ⟨rfl, hpage, hpos, -⟩ := hmay
    have hroom : call.Reserved mc a := hptr.resolve_left (ne_mapFailed hpage)
    have hheld := held_of_dvd hpage
    have hle : mc.roundUp call.size.toNat ≤ mc.roundUp call.mapLength := by
      rw [Call.mapLength_ring hf hlt]
      exact mc.roundUp_mono (by omega)
    refine h.mapFixed { call with pc := .second a } hcall rfl (hbase.trans hheld) hheld rfl le_rfl
      (by omega) ?_ rfl ?_
    · rw [Result.ptr, if_pos rfl]; rfl
    · simp only [Call.Holds, hf, Call.Ring]
      exact ⟨hsound, hlt, Or.inr ⟨hpos, hroom, AddressSpace.maps_map⟩⟩
  | failed errno =>
    rw [Result.ptr]
    split_ifs with hfailed
    · -- the reservation has failed, and nobody notices
      refine h.setCall rfl rfl ?_ fun a ha => ?_
      · simp only [Call.Holds, hf, Call.Ring]
        exact ⟨hsound, hlt, Or.inl hfailed.symm⟩
      · exact absurd ha (Call.not_claims (by rw [← hfailed]; exact held_mapFailed))
    · refine h.setCall rfl rfl ?_ (claims_of_base hcall rfl hbase.symm rfl)
      simp only [Call.Holds, hf, Call.Ring]
      exact ⟨hsound, trivial⟩

theorem inv_second {r : Result} (h : Inv mc s) (hcall : s.calls c = some call)
    (hpc : call.pc = .second ptr) (hs : s.mmap mc c call r = some s') : Inv mc s' := by
  obtain ⟨init, hf⟩ := exists_ring h hcall (Or.inr (Or.inr ⟨ptr, hpc⟩))
  have hbase : call.base = held ptr := Call.base_of_at (Or.inr (Or.inl hpc))
  have hbase' : (call.mapped ptr).base = held ptr := Call.base_of_at (call.mapped_at ptr)
  have hholds := h.holds c call hcall
  simp only [Call.Holds, hf, Call.Ring, hpc] at hholds
  obtain ⟨hsound, hlt, hptr⟩ := hholds
  simp only [State.mmap, hpc] at hs
  obtain ⟨hmay, hs⟩ := Option.ite_none_right_eq_some.1 hs
  cases hs
  cases r with
  | addr a =>
    obtain ⟨rfl, hsecond, hpos, -⟩ := hmay
    obtain rfl | ⟨-, hroom, hmaps⟩ := hptr
    · -- no such size is mapped
      rw [Call.secondHalf_mapFailed hlt hpos] at hsecond
      exact absurd ⟨hpos, hsecond⟩ hsound
    rw [hroom.secondHalf_eq] at hsecond ⊢
    -- the second half begins where the first ends
    have hdvd : mc.page ∣ call.size.toNat := (Nat.dvd_add_right hroom.1).1 hsecond
    have hround : mc.roundUp call.size.toNat = call.size.toNat := mc.roundUp_of_dvd hdvd
    have hheld := held_of_dvd hroom.1
    have hle := mc.le_roundUp call.mapLength
    rw [Call.mapLength_ring hf hlt] at hle
    refine h.mapFixed (call.mapped ptr) hcall rfl (hbase.trans hheld) (hbase'.trans hheld) rfl
      (Nat.le_add_right _ _) ?_ ?_ rfl ?_
    · rw [Call.mapLength_ring hf hlt, hround]; omega
    · rw [Result.ptr, if_pos rfl]; rfl
    · rw [hround] at hmaps ⊢
      have htwice := hmaps.twice
      cases init <;> simp only [Call.Holds, Call.mapped, hf, Call.Ring] <;>
        exact ⟨hsound, hlt, Or.inr ⟨hroom.1, hdvd, htwice⟩⟩
  | failed errno =>
    rw [Result.ptr]
    split_ifs with hfailed
    · -- only without a byte
      obtain rfl | ⟨-, hroom, -⟩ := hptr
      · have hzero : call.size.toNat = 0 := by
          by_contra hpos
          rw [Call.secondHalf_mapFailed hlt (Nat.pos_of_ne_zero hpos), mapFailed] at hfailed
          omega
        refine h.setCall rfl rfl ?_ fun a ha =>
          absurd ha (Call.not_claims (hbase'.trans held_mapFailed))
        cases init <;> simp only [Call.Holds, Call.mapped, hf, Call.Ring] <;>
          exact ⟨hsound, hlt, Or.inl ⟨trivial, hzero⟩⟩
      · exact absurd hfailed hroom.secondHalf_ne
    · refine h.setCall rfl rfl ?_ (claims_of_base hcall rfl hbase.symm rfl)
      simp only [Call.Holds, hf, Call.Ring]
      exact ⟨hsound, trivial⟩

theorem inv_map {r : Result} (h : Inv mc s) (hcall : s.calls c = some call)
    (hpc : call.pc = .map) (hs : s.mmap mc c call r = some s') : Inv mc s' := by
  have hholds := h.holds c call hcall
  obtain ⟨byName, hf⟩ : ∃ byName, call.function = .mallocShared byName := by
    cases hf : call.function with
    | mmapRingBuffer init => simp only [Call.Holds, hf, Call.Ring, hpc, and_false] at hholds
    | mallocShared byName => exact ⟨byName, rfl⟩
  simp only [State.mmap, hpc] at hs
  obtain ⟨hmay, hs⟩ := Option.ite_none_right_eq_some.1 hs
  cases hs
  cases r with
  | addr a =>
    have hlength : (call.mapped a).mapLength = call.size.toNat := Call.mapLength_shared hf
    refine h.mapFree (call.mapped a) (.file call.file) (hlength ▸ hmay)
      ((Call.base_of_at (call.mapped_at a)).trans (held_of_dvd hmay.2.1)) rfl
      (by rw [hlength]; rfl) ?_
    rw [hlength]
    have hmaps : ((s.spaces call.proc).map a (mc.roundUp call.size.toNat) (.file call.file)).Maps a
      (mc.roundUp call.size.toNat) (.file call.file) := AddressSpace.maps_map
    cases byName <;> simp only [Call.Holds, Call.mapped, hf, Call.Shared] <;>
      exact Or.inr ⟨hmay.2.1, hmaps⟩
  | failed errno =>
    refine h.setCall rfl rfl ?_ fun a ha => absurd ha
      (Call.not_claims ((Call.base_of_at (call.mapped_at mapFailed)).trans held_mapFailed))
    cases byName <;> simp only [Call.Holds, Call.mapped, hf, Call.Shared, Result.ptr, true_or]

theorem inv_memset (h : Inv mc s) (hcall : s.calls c = some call) (hpc : call.pc = .memset ptr) :
    Inv mc (s.memset mc c call ptr) := by
  have hholds := h.holds c call hcall
  rw [State.memset]
  cases (s.view mc call.proc).store s.memory ptr (List.replicate call.size.toNat 0) with
  | some memory =>
    refine h.setCall rfl rfl ?_ (claims_of_base hcall rfl ?_ rfl)
    · cases hf : call.function <;>
        simp only [Call.Holds, hf, Call.Ring, Call.Shared, hpc] at hholds ⊢ <;> exact hholds
    · rw [Call.base, Call.base, hpc]
  | none =>
    refine h.setCall rfl rfl ?_ fun a ha => absurd ha (Call.not_claims rfl)
    cases hf : call.function <;> simp only [Call.Holds, hf, Call.Ring, Call.Shared] at hholds ⊢
    exact ⟨hholds.1, trivial⟩

theorem inv_destroy (h : Inv mc s) (hcall : s.calls c = some call) (hpc : call.pc = .returned ptr) :
    Inv mc { s.unmap mc call ptr with calls := Function.update s.calls c none } := by
  rw [State.unmap]
  split_ifs with hpage
  · have hbase : call.base = some ptr := Call.base_some (by simp [hpc, Pc.At]) hpage
    refine h.destroy hcall rfl rfl fun a ha => ?_
    rw [Call.claims_some hbase, not_and_or, not_le, not_lt] at ha
    rcases ha with ha | ha
    · exact AddressSpace.unmap_of_lt ha
    · exact AddressSpace.unmap_of_ge ha
  · exact h.destroy hcall rfl (Function.update_eq_self call.proc s.spaces).symm fun _ _ => rfl

/-- No ring has a byte more than whole pages. -/
def Act.Sound (mc : Machine) : Act → Prop
  | .call _ _ (.mmapRingBuffer _) _ size => ¬ mc.Stray size.toNat
  | _ => True

theorem step_inv {a : Act} (h : Inv mc s) (ha : a.Sound mc) (hs : step mc s a = some s') :
    Inv mc s' := by
  cases a with
  | call c proc function file size =>
    simp only [step] at hs
    split at hs
    · cases hs
    · cases hs
      obtain init | (_ | _) := function
      · exact h.setCall rfl rfl ⟨ha, trivial⟩ fun a ha => absurd ha (Call.not_claims rfl)
      · exact h.setCall rfl rfl trivial fun a ha => absurd ha (Call.not_claims rfl)
      · exact h.setCall rfl rfl trivial fun a ha => absurd ha (Call.not_claims rfl)
  | ftruncate c ok =>
    simp only [step] at hs
    split at hs
    case h_2 => cases hs
    case h_1 call hcall =>
      obtain ⟨-, hs⟩ := Option.ite_none_right_eq_some.1 hs
      exact inv_ftruncate h hcall hs
  | mmap c r =>
    simp only [step] at hs
    split at hs
    case h_2 => cases hs
    case h_1 call hcall =>
      cases hpc : call.pc with
      | reserve => exact inv_reserve h hcall hpc hs
      | first ptr => exact inv_first h hcall hpc hs
      | second ptr => exact inv_second h hcall hpc hs
      | map => exact inv_map h hcall hpc hs
      | ftruncate | memset | returned | threw | segfault =>
        simp only [State.mmap, hpc] at hs
        cases hs
  | memset c =>
    simp only [step] at hs
    split at hs
    case h_2 => cases hs
    case h_1 call hcall =>
      split at hs
      case h_2 => cases hs
      case h_1 ptr hpc =>
        cases hs
        exact inv_memset h hcall hpc
  | store c off bs =>
    simp only [step] at hs
    split at hs
    case h_2 => cases hs
    case h_1 call hcall =>
      split at hs
      case h_2 => cases hs
      case h_1 ptr hpc =>
        obtain ⟨memory, -, rfl⟩ := Option.map_eq_some_iff.1 hs
        exact ⟨h.holds, h.mapped, h.apart⟩
  | destroy c =>
    simp only [step] at hs
    split at hs
    case h_2 => cases hs
    case h_1 call hcall =>
      split at hs
      case h_2 => cases hs
      case h_1 ptr hpc =>
        cases hs
        exact inv_destroy h hcall hpc

end

/-! ## Runs -/

section
variable {spaces : ℕ → AddressSpace Object} {length : ℕ → ℕ} {memory : AddressSpace.Objects Object}
  {as : List Act} {s : State} {c : ℕ} {call : Call} {ptr : ℕ} {b : Bool}

theorem inv_of_run (hr : run (step mc) (init spaces length memory) as = some s)
    (hsound : ∀ a ∈ as, a.Sound mc) : Inv mc s :=
  Run.inv_of_run (fun _ _ _ hi ha hs => step_inv hi ha hs) (inv_init spaces length memory) hsound hr

/-- **A ring stays mapped twice** as long as it lives, whatever other calls the processes make, and
    its memory is nobody else's. -/
theorem stays_mapped (hr : run (step mc) (init spaces length memory) as = some s)
    (hsound : ∀ a ∈ as, a.Sound mc) (hcall : s.calls c = some call)
    (hf : call.function = .mmapRingBuffer b) (hpc : call.pc = .returned ptr) :
    (∀ i < 2 * call.size.toNat,
        s.spaces call.proc (ptr + i) = some (.file call.file, i % call.size.toNat)) ∧
      ∀ c' call', c' ≠ c → s.calls c' = some call' → call'.proc = call.proc →
        ∀ i < 2 * call.size.toNat, ¬ call'.Claims mc (ptr + i) := by
  have hinv := inv_of_run hr hsound
  have hholds := hinv.holds c call hcall
  simp only [Call.Holds, hf, Call.Ring, hpc] at hholds
  obtain ⟨-, hlt, ⟨-, hzero⟩ | ⟨hpage, -, htwice⟩⟩ := hholds
  · -- there are no such bytes
    refine ⟨fun i hi => ?_, fun c' call' _ _ _ i hi => ?_⟩ <;> omega
  refine ⟨fun i hi => htwice.eq_mod hi, fun c' call' hne hcall' hproc i hi => ?_⟩
  refine hinv.apart c c' call call' hcall hcall' (Ne.symm hne) hproc.symm _ ?_
  have hbase : call.base = some ptr := Call.base_some (by simp [hpc, Pc.At]) hpage
  rw [Call.claims_some hbase, Call.mapLength_ring hf hlt]
  have hle := mc.le_roundUp (2 * call.size.toNat)
  omega

end

/-- A machine with pages of two bytes. -/
def tiny : Machine where
  page := 2
  top := 64
  page_pos := by decide
  even := by decide
  top_le := by decide

/-- Nothing is mapped, and the files are empty. -/
abbrev fresh : State := init (fun _ => .empty) (fun _ => 0) fun _ _ => 0

/-- The call `c` of `mmapRingBuffer` by `proc`, for the file 7, that gets the address `a`. -/
def ringOfTwo (c proc a : ℕ) : List Act :=
  [.call c proc (.mmapRingBuffer false) 7 2, .ftruncate c true, .mmap c (.addr a),
    .mmap c (.addr a), .mmap c (.addr (a + 2))]

theorem stays_mapped_ofTwo : ∃ s call,
    run (step tiny) fresh (ringOfTwo 0 0 8 ++ ringOfTwo 1 0 16) = some s ∧
      s.calls 0 = some call ∧ call.pc = .returned 8 ∧
      (∀ i < 2 * call.size.toNat,
        s.spaces call.proc (8 + i) = some (.file call.file, i % call.size.toNat)) ∧
      ∀ c' call', c' ≠ 0 → s.calls c' = some call' → call'.proc = call.proc →
        ∀ i < 2 * call.size.toNat, ¬ call'.Claims tiny (8 + i) := by
  obtain ⟨s, hr⟩ : ∃ s, run (step tiny) fresh (ringOfTwo 0 0 8 ++ ringOfTwo 1 0 16) = some s :=
    ⟨_, rfl⟩
  have hcall : s.calls 0 = some ⟨0, .mmapRingBuffer false, 7, 2, .returned 8⟩ := by
    cases hr; rfl
  have hsound : ∀ a ∈ ringOfTwo 0 0 8 ++ ringOfTwo 1 0 16, a.Sound tiny := by
    simp [ringOfTwo, Act.Sound, Machine.Stray, tiny]
  exact ⟨s, _, hr, hcall, rfl, stays_mapped hr hsound hcall rfl rfl⟩

/-- Beside the ring, a call for nine bytes whose reservation fails. -/
def strayRing : List Act :=
  [.call 1 0 (.mmapRingBuffer false) 9 9, .ftruncate 1 true, .mmap 1 (.failed (.other "ENOMEM")),
    .mmap 1 (.failed .einval), .mmap 1 (.addr 8)]

/- Why a byte more than whole pages is left out: `mmapRingBuffer` may return `MAP_FAILED`, and it
   has mapped its file over the other ring. -/
example : ((run (step tiny) fresh (ringOfTwo 0 0 8 ++ strayRing)).map fun s =>
    ((s.calls 0).map Call.pc, (s.calls 1).map Call.pc, s.spaces 0 8)) =
      some (some (.returned 8), some (.returned mapFailed), some (.file 9, 0)) := by
  decide

/-! ## Outcomes -/

/-- A system call fails only if its arguments are refused. -/
def Plain (s : State) : Act → Prop
  | .ftruncate c false => ∀ call, s.calls c = some call → 2 ^ 63 ≤ call.size.toNat
  | .mmap _ (.failed (.other _)) => False
  | _ => True

/-- What `mmapRingBuffer` throws for a size, if anything. -/
def Machine.thrown (mc : Machine) (size : ℕ) : Option String :=
  if 2 ^ 63 ≤ size then some "ftruncate failed"
  else if mc.page ∣ size then none
  else some "mmaping the second wraparound failed Invalid argument"

/-- Where the memory is: without a byte there is none. -/
def Call.Placed (mc : Machine) (call : Call) (ptr : ℕ) : Prop :=
  ptr = mapFailed ∧ call.size.toNat = 0 ∨ 0 < call.size.toNat ∧ call.Reserved mc ptr

/-- A call that has mapped its file, or has not. -/
theorem calls_mapFile (s : State) (c : ℕ) (call call' : Call) (r : Result) :
    ((s.mapFile mc call r).setCall c call').calls = Function.update s.calls c (some call') := by
  cases r <;> rfl

theorem length_mapFile (s : State) (c : ℕ) (call call' : Call) (r : Result) :
    ((s.mapFile mc call r).setCall c call').length = s.length := by
  cases r <;> rfl

/-- What a call of `mmapRingBuffer` is going to do, where it is. -/
def Call.Planned (mc : Machine) (call : Call) : Prop :=
  match call.pc with
  | .reserve => call.size.toNat < 2 ^ 63
  | .first ptr | .second ptr => call.size.toNat < 2 ^ 63 ∧ call.Placed mc ptr
  | .memset ptr | .returned ptr =>
    mc.Mappable call.size.toNat ∧ (ptr = mapFailed ↔ call.size.toNat = 0)
  | .threw what leaked =>
    mc.thrown call.size.toNat = some what ∧
      (leaked.isSome = true ↔ call.size.toNat < 2 ^ 63 ∧ ¬ mc.page ∣ call.size.toNat)
  | .map => False
  | .ftruncate | .segfault => True

section
variable {s s' : State} {c : ℕ} {call : Call} {ptr : ℕ} {b : Bool} {r : Result}

theorem thrown_of_ge {n : ℕ} (h : 2 ^ 63 ≤ n) : mc.thrown n = some "ftruncate failed" := if_pos h

theorem thrown_of_not_dvd {n : ℕ} (h : n < 2 ^ 63) (hdvd : ¬ mc.page ∣ n) :
    mc.thrown n = some "mmaping the second wraparound failed Invalid argument" := by
  rw [Machine.thrown, if_neg (by omega), if_neg hdvd]

/-- A size for which it returns is none for which it throws. -/
theorem thrown_of_mappable {n : ℕ} (h : mc.Mappable n) : mc.thrown n = none := by
  have htop := mc.top_le
  have hend := h.2
  rw [Machine.thrown, if_pos h.1]
  split_ifs with hge
  · have hpos : 0 < n := by omega
    have hle : 2 * n ≤ 2 ^ 63 := hend.trans htop
    omega
  · rfl

theorem planned_ftruncate {ok : Bool} (hcall : s.calls c = some call)
    (hf : call.function = .mmapRingBuffer b) (hplain : Plain s (.ftruncate c ok))
    (hs : s.ftruncate c call ok = some s') :
    ∃ call', s'.calls = Function.update s.calls c (some call') ∧ call'.Planned mc := by
  cases ok with
  | true =>
    obtain ⟨hlt, hs⟩ := Option.ite_none_right_eq_some.1 hs
    simp only [hf] at hs
    cases hs
    exact ⟨_, rfl, hlt⟩
  | false =>
    cases hs
    have hge := hplain call hcall
    exact ⟨_, rfl, thrown_of_ge hge, iff_of_false Bool.noConfusion fun h => hge.not_gt h.1⟩

theorem planned_reserve (h : call.size.toNat < 2 ^ 63) (hpc : call.pc = .reserve)
    (hplain : Plain s (.mmap c r)) (hs : s.mmap mc c call r = some s') :
    ∃ call', s'.calls = Function.update s.calls c (some call') ∧ call'.Planned mc := by
  simp only [State.mmap, hpc] at hs
  obtain ⟨hmay, hs⟩ := Option.ite_none_right_eq_some.1 hs
  have htwice := Call.twiceSize_eq h
  cases r with
  | addr a =>
    cases hs
    obtain ⟨hpos, hpage, hend, -⟩ := hmay
    have hle := mc.le_roundUp call.twiceSize
    have hpos : 0 < call.size.toNat := by omega
    have hroom : a + 2 * call.size.toNat ≤ mc.top := by
      rw [htwice] at hle hend
      omega
    exact ⟨{ call with pc := .first a }, rfl, h, Or.inr ⟨hpos, hpage, hroom⟩⟩
  | failed errno =>
    cases hs
    cases errno with
    | other text => exact hplain.elim
    | einval =>
      have hmay : call.twiceSize = 0 := hmay
      have hzero : call.size.toNat = 0 := by omega
      exact ⟨_, rfl, h, Or.inl ⟨rfl, hzero⟩⟩

theorem planned_first (h : call.size.toNat < 2 ^ 63) (hplaced : call.Placed mc ptr)
    (hpc : call.pc = .first ptr) (hplain : Plain s (.mmap c r))
    (hs : s.mmap mc c call r = some s') :
    ∃ call', s'.calls = Function.update s.calls c (some call') ∧ call'.Planned mc := by
  simp only [State.mmap, hpc] at hs
  obtain ⟨hmay, hs⟩ := Option.ite_none_right_eq_some.1 hs
  -- it does not throw
  have hptr : r.ptr = ptr := by
    cases r with
    | addr a => exact hmay.1
    | failed errno =>
      cases errno with
      | other text => exact hplain.elim
      | einval =>
        obtain ⟨rfl, -⟩ | ⟨hpos, hroom⟩ := hplaced
        · rfl
        · exact absurd ⟨hroom.1, hpos⟩ hmay
  rw [if_pos hptr] at hs
  cases hs
  exact ⟨{ call with pc := .second ptr }, calls_mapFile .., h, hplaced⟩

theorem planned_second (hf : call.function = .mmapRingBuffer b) (h : call.size.toNat < 2 ^ 63)
    (hplaced : call.Placed mc ptr) (hpc : call.pc = .second ptr) (hplain : Plain s (.mmap c r))
    (hs : s.mmap mc c call r = some s') :
    ∃ call', s'.calls = Function.update s.calls c (some call') ∧ call'.Planned mc := by
  simp only [State.mmap, hpc] at hs
  obtain ⟨hmay, hs⟩ := Option.ite_none_right_eq_some.1 hs
  have hmapped (hmappable : mc.Mappable call.size.toNat)
      (hptr : ptr = mapFailed ↔ call.size.toNat = 0) : (call.mapped ptr).Planned mc := by
    cases b <;> simpa only [Call.Planned, Call.mapped, hf] using And.intro hmappable hptr
  cases r with
  | addr a =>
    obtain ⟨rfl, hsecond, hpos, hend⟩ := hmay
    obtain ⟨-, hzero⟩ | ⟨-, hroom⟩ := hplaced
    · omega
    rw [Result.ptr, if_pos rfl] at hs
    cases hs
    rw [hroom.secondHalf_eq] at hsecond hend
    have hdvd : mc.page ∣ call.size.toNat := (Nat.dvd_add_right hroom.1).1 hsecond
    have hle := mc.le_roundUp call.size.toNat
    refine ⟨call.mapped ptr, rfl, hmapped ⟨hdvd, by omega⟩ (iff_of_false ?_ hpos.ne')⟩
    exact ne_mapFailed hroom.1
  | failed errno =>
    cases errno with
    | other text => exact hplain.elim
    | einval =>
      obtain ⟨rfl, hzero⟩ | ⟨hpos, hroom⟩ := hplaced
      · rw [Result.ptr, Call.secondHalf_of_zero hzero, if_pos rfl] at hs
        cases hs
        refine ⟨call.mapped mapFailed, rfl, hmapped ?_ (iff_of_true rfl hzero)⟩
        rw [hzero]
        exact ⟨Nat.dvd_zero _, Nat.zero_le _⟩
      · rw [Result.ptr, if_neg hroom.secondHalf_ne] at hs
        cases hs
        have hdvd : ¬ mc.page ∣ call.size.toNat := fun hdvd =>
          hmay ⟨hroom.secondHalf_eq ▸ (Nat.dvd_add_right hroom.1).2 hdvd, hpos⟩
        refine ⟨_, rfl, thrown_of_not_dvd h hdvd, ?_⟩
        rw [held_of_dvd hroom.1]
        exact iff_of_true rfl ⟨h, hdvd⟩

theorem planned_mmap (hf : call.function = .mmapRingBuffer b) (h : call.Planned mc)
    (hplain : Plain s (.mmap c r)) (hs : s.mmap mc c call r = some s') :
    ∃ call', s'.calls = Function.update s.calls c (some call') ∧ call'.Planned mc := by
  unfold Call.Planned at h
  cases hpc : call.pc with
  | reserve =>
    simp only [hpc] at h
    exact planned_reserve h hpc hplain hs
  | first ptr =>
    simp only [hpc] at h
    exact planned_first h.1 h.2 hpc hplain hs
  | second ptr =>
    simp only [hpc] at h
    exact planned_second hf h.1 h.2 hpc hplain hs
  | map => simp only [hpc] at h
  | ftruncate | memset | returned | threw | segfault =>
    simp only [State.mmap, hpc] at hs
    cases hs

/-- The calls of `mmapRingBuffer` do what is planned. -/
def AllPlanned (mc : Machine) (s : State) : Prop := ∀ c call init, s.calls c = some call →
  call.function = .mmapRingBuffer init → call.Planned mc

theorem AllPlanned.update (h : AllPlanned mc s)
    (hcalls : s'.calls = Function.update s.calls c (some call))
    (hcall : ∀ init, call.function = .mmapRingBuffer init → call.Planned mc) :
    AllPlanned mc s' := by
  intro c' call' init hcall' hf
  rcases calls_cases hcalls hcall' with ⟨rfl, rfl⟩ | ⟨-, hcall'⟩
  · exact hcall init hf
  · exact h c' call' init hcall' hf

theorem mmap_calls (hs : s.mmap mc c call r = some s') :
    ∃ call', s'.calls = Function.update s.calls c (some call') ∧
      call'.function = call.function := by
  cases hpc : call.pc with
  | reserve =>
    simp only [State.mmap, hpc] at hs
    obtain ⟨-, hs⟩ := Option.ite_none_right_eq_some.1 hs
    cases r <;> cases hs <;> exact ⟨_, rfl, rfl⟩
  | first ptr =>
    simp only [State.mmap, hpc] at hs
    obtain ⟨-, hs⟩ := Option.ite_none_right_eq_some.1 hs
    cases hs
    exact ⟨_, calls_mapFile .., rfl⟩
  | second ptr =>
    simp only [State.mmap, hpc] at hs
    obtain ⟨-, hs⟩ := Option.ite_none_right_eq_some.1 hs
    cases hs
    refine ⟨_, calls_mapFile .., ?_⟩
    split_ifs <;> rfl
  | map =>
    simp only [State.mmap, hpc] at hs
    obtain ⟨-, hs⟩ := Option.ite_none_right_eq_some.1 hs
    cases hs
    exact ⟨_, calls_mapFile .., rfl⟩
  | ftruncate | memset | returned | threw | segfault =>
    simp only [State.mmap, hpc] at hs
    cases hs

theorem ftruncate_calls {ok : Bool} (hs : s.ftruncate c call ok = some s') :
    ∃ call', s'.calls = Function.update s.calls c (some call') ∧
      call'.function = call.function := by
  cases ok with
  | true =>
    obtain ⟨-, hs⟩ := Option.ite_none_right_eq_some.1 hs
    cases hs
    exact ⟨_, rfl, rfl⟩
  | false => cases hs; exact ⟨_, rfl, rfl⟩

theorem step_planned {a : Act} (h : AllPlanned mc s) (hplain : Plain s a)
    (hs : step mc s a = some s') : AllPlanned mc s' := by
  -- a call of another function stays one
  have hother {c : ℕ} {call : Call} (hfunction : ∀ init, call.function ≠ .mmapRingBuffer init)
      (h' : ∃ call', s'.calls = Function.update s.calls c (some call') ∧
        call'.function = call.function) : AllPlanned mc s' := by
    obtain ⟨call', hcalls, hf⟩ := h'
    exact h.update hcalls fun init hf' => absurd (hf.symm.trans hf') (hfunction init)
  have hring {c : ℕ} (h' : ∃ call', s'.calls = Function.update s.calls c (some call') ∧
      call'.Planned mc) : AllPlanned mc s' := by
    obtain ⟨call', hcalls, hp⟩ := h'
    exact h.update hcalls fun _ _ => hp
  cases a with
  | call c proc function file size =>
    simp only [step] at hs
    split at hs
    · cases hs
    · cases hs
      refine h.update rfl fun init hf => ?_
      obtain rfl : function = .mmapRingBuffer init := hf
      trivial
  | ftruncate c ok =>
    simp only [step] at hs
    split at hs
    case h_2 => cases hs
    case h_1 call hcall =>
      obtain ⟨-, hs⟩ := Option.ite_none_right_eq_some.1 hs
      cases hf : call.function with
      | mmapRingBuffer init => exact hring (planned_ftruncate hcall hf hplain hs)
      | mallocShared byName => exact hother (by simp [hf]) (ftruncate_calls hs)
  | mmap c r =>
    simp only [step] at hs
    split at hs
    case h_2 => cases hs
    case h_1 call hcall =>
      cases hf : call.function with
      | mmapRingBuffer init =>
        exact hring (planned_mmap hf (h c call init hcall hf) hplain hs)
      | mallocShared byName => exact hother (by simp [hf]) (mmap_calls hs)
  | memset c =>
    simp only [step] at hs
    split at hs
    case h_2 => cases hs
    case h_1 call hcall =>
      split at hs
      case h_2 => cases hs
      case h_1 ptr hpc =>
        cases hs
        rw [State.memset]
        split
        · refine h.update rfl fun init hf => ?_
          have hp := h c call init hcall hf
          simpa only [Call.Planned, hpc] using hp
        · exact h.update rfl fun _ _ => trivial
  | store c off bs =>
    simp only [step] at hs
    split at hs
    case h_2 => cases hs
    case h_1 call hcall =>
      split at hs
      case h_2 => cases hs
      case h_1 ptr hpc =>
        obtain ⟨memory, -, rfl⟩ := Option.map_eq_some_iff.1 hs
        exact h
  | destroy c =>
    simp only [step] at hs
    split at hs
    case h_2 => cases hs
    case h_1 call hcall =>
      split at hs
      case h_2 => cases hs
      case h_1 ptr hpc =>
        cases hs
        intro c' call' init hcall'
        exact h c' call' init (calls_cases_none rfl hcall').2

end

/-- A ring that is not whole pages. -/
def ringOfThree : List Act :=
  [.call 0 0 (.mmapRingBuffer true) 7 3, .ftruncate 0 true, .mmap 0 (.addr 8), .mmap 0 (.addr 8),
    .mmap 0 (.failed .einval)]

/-- A ring of no byte: neither the reservation nor what follows it is noticed to fail. -/
def ringOfNone : List Act :=
  [.call 1 0 (.mmapRingBuffer true) 8 0, .ftruncate 1 true, .mmap 1 (.failed .einval),
    .mmap 1 (.failed .einval), .mmap 1 (.failed .einval), .memset 1]

/-- Behind its `ftruncate`, and it has not failed. -/
def Pc.truncated : Pc → Bool
  | .reserve | .first _ | .second _ | .memset _ | .returned _ => true
  | .ftruncate | .map | .threw _ _ | .segfault => false

/-- The calls for the file `f` are for `n` bytes, and this is its length. -/
structure Sized (f n : ℕ) (s : State) : Prop where
  size : ∀ c call, s.calls c = some call → call.file = f → call.size.toNat = n
  length : ∀ c call init, s.calls c = some call → call.file = f →
    call.function = .mmapRingBuffer init → call.pc.truncated = true → s.length f = n

/-- No call of the run has another size for `f`. -/
def Act.SizeOf (f n : ℕ) : Act → Prop
  | .call _ _ _ file size => file = f → size.toNat = n
  | _ => True

section
variable {s s' : State} {c f n : ℕ} {call call' : Call} {ptr : ℕ} {b : Bool} {r : Result}

/-- A step of the call `c` that leaves the file's length as it is. -/
theorem Sized.update (h : Sized f n s)
    (hcalls : s'.calls = Function.update s.calls c (some call'))
    (hlength : s'.length = s.length) (hsize : call'.file = f → call'.size.toNat = n)
    (htruncated : ∀ init, call'.file = f → call'.function = .mmapRingBuffer init →
      call'.pc.truncated = true → s.length f = n) : Sized f n s' := by
  constructor
  · intro c' call₁ hc hfile
    rcases calls_cases hcalls hc with ⟨rfl, rfl⟩ | ⟨-, hc⟩
    · exact hsize hfile
    · exact h.size c' call₁ hc hfile
  · intro c' call₁ init hc hfile hf ht
    rw [hlength]
    rcases calls_cases hcalls hc with ⟨rfl, rfl⟩ | ⟨-, hc⟩
    · exact htruncated init hfile hf ht
    · exact h.length c' call₁ init hc hfile hf ht

/-- A step of the call `c` behind its `ftruncate`. -/
theorem Sized.next (h : Sized f n s) (hcall : s.calls c = some call)
    (hcalls : s'.calls = Function.update s.calls c (some call'))
    (hlength : s'.length = s.length) (hfile : call'.file = call.file)
    (hsize : call'.size = call.size) (hfunction : call'.function = call.function)
    (ht : call'.pc.truncated = true → call.pc.truncated = true ∨ ∃ byName,
      call.function = .mallocShared byName) : Sized f n s' := by
  refine h.update hcalls hlength (fun hf => ?_) fun init hf hring htruncated => ?_
  · rw [hsize]
    exact h.size c call hcall (hfile.symm.trans hf)
  · rcases ht htruncated with ht | ⟨byName, hb⟩
    · exact h.length c call init hcall (hfile.symm.trans hf) (hfunction.symm.trans hring) ht
    · rw [hfunction, hb] at hring
      cases hring

theorem sized_mmap (h : Sized f n s) (hinv : Inv mc s) (hcall : s.calls c = some call)
    (hs : s.mmap mc c call r = some s') : Sized f n s' := by
  cases hpc : call.pc with
  | reserve =>
    simp only [State.mmap, hpc] at hs
    obtain ⟨-, hs⟩ := Option.ite_none_right_eq_some.1 hs
    cases r <;> cases hs <;>
      exact h.next hcall rfl rfl rfl rfl rfl fun _ => by simp [hpc, Pc.truncated]
  | first ptr =>
    simp only [State.mmap, hpc] at hs
    obtain ⟨-, hs⟩ := Option.ite_none_right_eq_some.1 hs
    cases hs
    exact h.next hcall (calls_mapFile ..) (length_mapFile ..) rfl rfl rfl fun _ => by
      simp [hpc, Pc.truncated]
  | second ptr =>
    simp only [State.mmap, hpc] at hs
    obtain ⟨-, hs⟩ := Option.ite_none_right_eq_some.1 hs
    cases hs
    refine h.next hcall (calls_mapFile ..) (length_mapFile ..) ?_ ?_ ?_ fun _ => by
      simp [hpc, Pc.truncated]
    all_goals split_ifs <;> rfl
  | map =>
    have hholds := hinv.holds c call hcall
    have hf : ∃ byName, call.function = .mallocShared byName := by
      cases hf : call.function with
      | mmapRingBuffer init => simp only [Call.Holds, hf, Call.Ring, hpc, and_false] at hholds
      | mallocShared byName => exact ⟨byName, rfl⟩
    simp only [State.mmap, hpc] at hs
    obtain ⟨-, hs⟩ := Option.ite_none_right_eq_some.1 hs
    cases hs
    exact h.next hcall (calls_mapFile ..) (length_mapFile ..) rfl rfl rfl fun _ => Or.inr hf
  | ftruncate | memset | returned | threw | segfault =>
    simp only [State.mmap, hpc] at hs
    cases hs

theorem sized_ftruncate {ok : Bool} (h : Sized f n s) (hcall : s.calls c = some call)
    (hs : s.ftruncate c call ok = some s') : Sized f n s' := by
  cases ok with
  | false => cases hs; exact h.next hcall rfl rfl rfl rfl rfl Bool.noConfusion
  | true =>
    obtain ⟨-, hs⟩ := Option.ite_none_right_eq_some.1 hs
    cases hs
    refine ⟨fun c' call₁ hc hf => ?_, fun c' call₁ init hc hf hring ht => ?_⟩
    · rcases calls_cases rfl hc with ⟨rfl, rfl⟩ | ⟨-, hc⟩
      · exact h.size c' call hcall hf
      · exact h.size c' call₁ hc hf
    · by_cases hfile : call.file = f
      · -- the file gets the length that it has for all
        simp only [State.setCall, State.truncate, hfile, Function.update_self]
        exact h.size c call hcall hfile
      · simp only [State.setCall, State.truncate, Function.update_of_ne (Ne.symm hfile)]
        rcases calls_cases rfl hc with ⟨rfl, rfl⟩ | ⟨-, hc⟩
        · exact absurd hf hfile
        · exact h.length c' call₁ init hc hf hring ht

theorem step_sized {a : Act} (hinv : Inv mc s) (h : Sized f n s) (ha : a.SizeOf f n)
    (hs : step mc s a = some s') : Sized f n s' := by
  cases a with
  | call c proc function file size =>
    simp only [step] at hs
    split at hs
    · cases hs
    · cases hs
      refine h.update rfl rfl ha fun init _ hf ht => ?_
      obtain rfl : function = .mmapRingBuffer init := hf
      cases ht
  | ftruncate c ok =>
    simp only [step] at hs
    split at hs
    case h_2 => cases hs
    case h_1 call hcall =>
      obtain ⟨-, hs⟩ := Option.ite_none_right_eq_some.1 hs
      exact sized_ftruncate h hcall hs
  | mmap c r =>
    simp only [step] at hs
    split at hs
    case h_2 => cases hs
    case h_1 call hcall => exact sized_mmap h hinv hcall hs
  | memset c =>
    simp only [step] at hs
    split at hs
    case h_2 => cases hs
    case h_1 call hcall =>
      split at hs
      case h_2 => cases hs
      case h_1 ptr hpc =>
        cases hs
        rw [State.memset]
        split
        · exact h.next hcall rfl rfl rfl rfl rfl fun _ => by simp [hpc, Pc.truncated]
        · exact h.next hcall rfl rfl rfl rfl rfl Bool.noConfusion
  | store c off bs =>
    simp only [step] at hs
    split at hs
    case h_2 => cases hs
    case h_1 call hcall =>
      split at hs
      case h_2 => cases hs
      case h_1 ptr hpc =>
        obtain ⟨memory, -, rfl⟩ := Option.map_eq_some_iff.1 hs
        exact ⟨h.size, h.length⟩
  | destroy c =>
    simp only [step] at hs
    split at hs
    case h_2 => cases hs
    case h_1 call hcall =>
      split at hs
      case h_2 => cases hs
      case h_1 ptr hpc =>
        cases hs
        have hlength : (s.unmap mc call ptr).length = s.length := by
          rw [State.unmap]
          split_ifs <;> rfl
        refine ⟨fun c' call' hc => h.size c' call' (calls_cases_none rfl hc).2,
          fun c' call' init hc hf hring ht => ?_⟩
        exact (congrFun hlength f).trans
          (h.length c' call' init (calls_cases_none rfl hc).2 hf hring ht)

/-- What a process that has a ring of the file sees of it. -/
theorem view_twice (hinv : Inv mc s) (h : Sized f n s) (hcall : s.calls c = some call)
    (hf : call.function = .mmapRingBuffer b) (hfile : call.file = f)
    (hpc : call.pc = .returned ptr) : (s.view mc call.proc).Twice ptr n (.file f) := by
  have hholds := hinv.holds c call hcall
  simp only [Call.Holds, hf, Call.Ring, hpc] at hholds
  obtain ⟨-, -, ⟨-, hzero⟩ | ⟨-, -, htwice⟩⟩ := hholds
  · obtain rfl : n = 0 := (h.size c call hcall hfile).symm.trans hzero
    exact ⟨fun i hi => absurd hi (Nat.not_lt_zero i), fun i hi => absurd hi (Nat.not_lt_zero i)⟩
  have hlength := h.length c call b hcall hfile hf (by rw [hpc]; rfl)
  rw [h.size c call hcall hfile, hfile] at htwice
  have hle := mc.le_roundUp n
  constructor
  · intro i hi
    rw [State.view, htwice.1 i hi]
    exact if_pos (by rw [hlength]; omega)
  · intro i hi
    rw [State.view, htwice.2 i hi]
    exact if_pos (by rw [hlength]; omega)

/-- **Two rings of one file are one ring**, in whatever processes they are: an index is a byte of
    the file modulo the size, and what the one stores the other loads. -/
theorem shared_ring {spaces : ℕ → AddressSpace Object} {length : ℕ → ℕ}
    {memory : AddressSpace.Objects Object} {as : List Act} {c' : ℕ} {ptr' : ℕ} {b' : Bool}
    (hr : run (step mc) (init spaces length memory) as = some s)
    (hsound : ∀ a ∈ as, a.Sound mc) (hsize : ∀ a ∈ as, a.SizeOf f n)
    (hcall : s.calls c = some call) (hf : call.function = .mmapRingBuffer b)
    (hfile : call.file = f) (hpc : call.pc = .returned ptr)
    (hcall' : s.calls c' = some call') (hf' : call'.function = .mmapRingBuffer b')
    (hfile' : call'.file = f) (hpc' : call'.pc = .returned ptr') {off : ℕ} {bs : List UInt8}
    (hle : off + bs.length ≤ 2 * n) :
    ∃ s', step mc s (.store c off bs) = some s' ∧ ∀ off' len, off' + len ≤ 2 * n →
      s.load mc c' off' len = some (Mem.read (· % n) (s.memory (.file f)) off' len) ∧
      s'.load mc c' off' len =
        some (Mem.read (· % n) (Mem.write (· % n) (s.memory (.file f)) off bs) off' len) := by
  have hall : Inv mc s ∧ Sized f n s := by
    refine Run.inv_of_run (I := fun s => Inv mc s ∧ Sized f n s)
      (D := fun a => a.Sound mc ∧ a.SizeOf f n)
      (fun s a s' h ha hs => ⟨step_inv h.1 ha.1 hs, step_sized h.1 h.2 ha.2 hs⟩)
      ⟨inv_init .., ⟨fun _ _ h => ?_, fun _ _ _ h => ?_⟩⟩
      (fun a ha => ⟨hsound a ha, hsize a ha⟩) hr <;> cases h
  obtain ⟨hinv, hsized⟩ := hall
  have hstore := AddressSpace.store_of_twice (m := s.memory)
    (view_twice hinv hsized hcall hf hfile hpc) hle
  have htwice := view_twice hinv hsized hcall' hf' hfile' hpc'
  let ring := Mem.write (· % n) (s.memory (.file f)) off bs
  refine ⟨{ s with memory := Function.update s.memory (.file f) ring }, ?_, fun off' len hlen => ?_⟩
  · simp only [step, hcall, hpc, hstore, Option.map_some, ring]
  constructor
  · simp only [State.load, hcall', hpc']
    exact AddressSpace.load_of_twice htwice hlen
  · simp only [State.load, hcall', hpc']
    refine (AddressSpace.load_of_twice htwice hlen).trans ?_
    simp only [Function.update_self, ring]

end

/-- Two processes map the file 7. -/
theorem shared_ring_ofTwo : ∃ s,
    run (step tiny) fresh (ringOfTwo 0 0 8 ++ ringOfTwo 1 1 8) = some s ∧
    ∃ s', step tiny s (.store 0 1 [5, 6]) = some s' ∧ ∀ off' len, off' + len ≤ 2 * 2 →
      s.load tiny 1 off' len = some (Mem.read (· % 2) (s.memory (.file 7)) off' len) ∧
      s'.load tiny 1 off' len =
        some (Mem.read (· % 2) (Mem.write (· % 2) (s.memory (.file 7)) 1 [5, 6]) off' len) := by
  obtain ⟨s, hr⟩ : ∃ s, run (step tiny) fresh (ringOfTwo 0 0 8 ++ ringOfTwo 1 1 8) = some s :=
    ⟨_, rfl⟩
  have hsize : ∀ a ∈ ringOfTwo 0 0 8 ++ ringOfTwo 1 1 8, a.SizeOf 7 2 := by
    simp [ringOfTwo, Act.SizeOf]
  have hcall : s.calls 0 = some ⟨0, .mmapRingBuffer false, 7, 2, .returned 8⟩ := by
    cases hr; rfl
  have hcall' : s.calls 1 = some ⟨1, .mmapRingBuffer false, 7, 2, .returned 8⟩ := by
    cases hr; rfl
  have hsound : ∀ a ∈ ringOfTwo 0 0 8 ++ ringOfTwo 1 1 8, a.Sound tiny := by
    simp [ringOfTwo, Act.Sound, Machine.Stray, tiny]
  exact ⟨s, hr, shared_ring hr hsound hsize hcall rfl rfl rfl hcall' rfl rfl rfl (by decide)⟩

end VirtualMemory

end L5RDMA
