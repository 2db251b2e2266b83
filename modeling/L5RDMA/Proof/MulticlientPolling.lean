/-
  What polling finds.

  `look_eq_some`, `look_eq_none`: one look of a server finds a client whose
  request is announced (its bell is set, or the size in its slot is not zero)
  if there is one where it looks.

  `ReceiveStep`: what a step of `receive` can do, for both servers.

  `exists_returned`: while some request is announced, the server finds and
  returns one, whatever index it has reached.
-/
import L5RDMA.Lib.CompareMask
import L5RDMA.MulticlientPolling

namespace L5RDMA

open Multiclient

open CompareMask (Lanes)

namespace MulticlientRDMATransportServer

/-! ## The mask -/

/-- A bit of the mask is set where the comparison fails. -/
theorem getLsbD_compl_movemask {v : List UInt8} {j : ℕ} {b : UInt8} (hb : v[j]? = some b)
    (hj : j < 32) : (~~~ movemask v).getLsbD j = !b.toBitVec.msb := by
  rw [movemask, BitVec.getLsbD_not, BitVec.getLsbD_setWidth, BitVec.getLsbD_ofBoolListLE]
  simp [hj, hb, List.getD_eq_getElem?_getD]

theorem msb_cmpeqZero (b : UInt8) :
    (if b = 0 then (0xFF : UInt8) else 0).toBitVec.msb = decide (b = 0) := by
  by_cases hb : b = 0
  · rw [if_pos hb, decide_eq_true hb]
    rfl
  · rw [if_neg hb, decide_eq_false hb]
    rfl

theorem getLsbD_cmpMask (doorBells : ℕ → UInt8) (i : ℕ) {j : ℕ} (hj : j < 16) :
    (cmpMask doorBells i).getLsbD j = decide (doorBells (i + j) ≠ 0) := by
  have hb : (cmpeqZero ((List.range 16).map fun j => doorBells (i + j)))[j]? =
      some (if doorBells (i + j) = 0 then 0xFF else 0) := by
    simp [cmpeqZero, hj]
  rw [cmpMask, BitVec.getLsbD_setWidth, getLsbD_compl_movemask hb (by omega), msb_cmpeqZero]
  simp [hj]

theorem cmpMask_eq_zero {doorBells : ℕ → UInt8} {i : ℕ} (h : cmpMask doorBells i = 0) {j : ℕ}
    (hj : j < 16) : doorBells (i + j) = 0 := by
  have hbit := getLsbD_cmpMask doorBells i hj
  rw [h] at hbit
  simpa using hbit

theorem setWidth_eq_zero_iff {m : BitVec 16} : m.setWidth 32 = 0#32 ↔ m = 0 := by
  constructor
  · intro h
    have := congrArg (BitVec.setWidth 16) h
    simpa using this
  · rintro rfl
    rfl

/-- One bit for each bell. -/
theorem lanes_cmpMask (doorBells : ℕ → UInt8) (i : ℕ) :
    Lanes 1 16 (fun k => doorBells (i + k) ≠ 0) ((cmpMask doorBells i).setWidth 32) := by
  intro j
  rw [BitVec.getLsbD_setWidth, Nat.div_one, Nat.one_mul]
  by_cases hj : j < 16
  · rw [getLsbD_cmpMask doorBells i hj]
    simp [hj, show j < 32 by omega]
  · simp [hj, BitVec.getLsbD_of_ge _ j (Nat.le_of_not_lt hj)]

/-- The client that is chosen is one whose bell is set. -/
theorem senderOf_spec {doorBells : ℕ → UInt8} {i : ℕ} (h : cmpMask doorBells i ≠ 0) :
    doorBells (senderOf (cmpMask doorBells i) i) ≠ 0 := by
  obtain ⟨k, -, hset, hclz⟩ := (lanes_cmpMask doorBells i).highest Nat.one_pos
    (mt setWidth_eq_zero_iff.1 h)
  have hsender : senderOf (cmpMask doorBells i) i = i + k := by
    rw [senderOf]
    omega
  rwa [hsender]

end MulticlientRDMATransportServer

namespace Multiclient

open Run MulticlientRDMATransportServer

/-- The sign of a request in the server's memory. -/
def Announced (k : Polling) (s : Slots) (c : ℕ) : Prop :=
  match k with
  | .doorbell => s.doorBells c ≠ 0
  | .distinctMr => sizeWord (s.receives c) ≠ 0

namespace Polling

/-! ## One look -/

/-- How far the loop goes, -/
def bound (k : Polling) (s : Slots) : ℕ :=
  match k with
  | doorbell => s.maxClients
  | distinctMr => s.count

/-- in which steps, -/
def stride : Polling → ℕ
  | doorbell => 16
  | distinctMr => 1

/-- which client it finds, -/
def look (k : Polling) (s : Slots) (i : ℕ) : Option ℕ :=
  match k with
  | doorbell =>
    if cmpMask s.doorBells i ≠ 0 then some (senderOf (cmpMask s.doorBells i) i) else none
  | distinctMr => if sizeWord (s.receives i) ≠ 0 then some i else none

/-- and what it does then. -/
def found (k : Polling) (maxSize : UInt64) (c : ℕ) : ServePc :=
  match k with
  | doorbell => .clear maxSize c
  | distinctMr => .size maxSize c

def afterLook (k : Polling) (s : Slots) (maxSize : UInt64) (i : ℕ) : ServePc :=
  if i < k.bound s then
    match k.look s i with
    | some c => k.found maxSize c
    | none => .poll maxSize (i + k.stride)
  else .poll maxSize 0

variable {k : Polling} {s : Slots} {maxSize : UInt64} {c i : ℕ}

theorem stride_pos : 0 < k.stride := by cases k <;> decide

@[simp] theorem announced_pc (pc : ServePc) :
    Announced k { s with pc := pc } c ↔ Announced k s c := by cases k <;> rfl

@[simp] theorem bound_pc (pc : ServePc) : k.bound { s with pc := pc } = k.bound s := by
  cases k <;> rfl

theorem afterLook_of_lt (h : i < k.bound s) : k.afterLook s maxSize i = match k.look s i with
    | some c => k.found maxSize c
    | none => .poll maxSize (i + k.stride) := if_pos h

theorem afterLook_of_le (h : k.bound s ≤ i) : k.afterLook s maxSize i = .poll maxSize 0 :=
  if_neg (Nat.not_lt.2 h)

theorem receiveStep_poll (hpc : s.pc = .poll maxSize i) :
    k.receiveStep s = some { s with pc := k.afterLook s maxSize i } := by
  rcases Nat.lt_or_ge i (k.bound s) with hi | hi
  · rw [afterLook_of_lt hi]
    cases k with
    | doorbell =>
      have hi : i < s.maxClients := hi
      simp only [receiveStep, MulticlientRDMATransportServer.receiveStep, hpc, look, if_pos hi]
      split_ifs <;> rfl
    | distinctMr =>
      have hi : i < s.count := hi
      simp only [receiveStep, MulticlientRDMADistinctMrTransportServer.receiveStep, hpc, look,
        if_pos hi]
      split_ifs <;> rfl
  · rw [afterLook_of_le hi]
    cases k with
    | doorbell =>
      have hi : ¬ i < s.maxClients := Nat.not_lt.2 hi
      simp only [receiveStep, MulticlientRDMATransportServer.receiveStep, hpc, if_neg hi]
    | distinctMr =>
      have hi : ¬ i < s.count := Nat.not_lt.2 hi
      simp only [receiveStep, MulticlientRDMADistinctMrTransportServer.receiveStep, hpc, if_neg hi]

/-- A step of either server. -/
inductive ReceiveStep (k : Polling) (s : Slots) : Slots → Prop
  | poll {maxSize : UInt64} {i : ℕ} (hpc : s.pc = .poll maxSize i) :
      ReceiveStep k s { s with pc := k.afterLook s maxSize i }
  | clear {maxSize : UInt64} {c : ℕ} (hk : k = doorbell) (hpc : s.pc = .clear maxSize c) :
      ReceiveStep k s
        { s with doorBells := Function.update s.doorBells c 0, pc := .size maxSize c }
  | size {maxSize : UInt64} {c : ℕ} (hpc : s.pc = .size maxSize c) :
      ReceiveStep k s { s with pc := .copy maxSize c (sizeWord (s.receives c)) }
  | throw {maxSize size : UInt64} {c : ℕ} (hpc : s.pc = .copy maxSize c size)
      (hmax : maxSize < size) : ReceiveStep k s { s with pc := .idle }
  | deliver {maxSize size : UInt64} {c : ℕ} (hk : k = doorbell)
      (hpc : s.pc = .copy maxSize c size) :
      ReceiveStep k s
        { s with
          pc := .idle
          returned := s.returned ++ [(c, Mem.read id (s.receives c) 8 size.toNat)] }
  | copy {maxSize size : UInt64} {c : ℕ} (hk : k = distinctMr)
      (hpc : s.pc = .copy maxSize c size) :
      ReceiveStep k s { s with pc := .reset c (Mem.read id (s.receives c) 8 size.toNat) }
  | reset {c : ℕ} {bytes : List UInt8} (hk : k = distinctMr) (hpc : s.pc = .reset c bytes) :
      ReceiveStep k s
        { s with
          receives := Function.update s.receives c (Mem.write id (s.receives c) 0 [0])
          pc := .idle
          returned := s.returned ++ [(c, bytes)] }

theorem receiveStep_cases {s' : Slots} (hs : k.receiveStep s = some s') : ReceiveStep k s s' := by
  cases hpc : s.pc with
  | poll maxSize i =>
    rw [receiveStep_poll hpc] at hs
    cases hs
    exact .poll hpc
  | idle =>
    cases k with
    | doorbell => simp [receiveStep, MulticlientRDMATransportServer.receiveStep, hpc] at hs
    | distinctMr =>
      simp [receiveStep, MulticlientRDMADistinctMrTransportServer.receiveStep, hpc] at hs
  | clear maxSize c =>
    cases k with
    | doorbell =>
      simp only [receiveStep, MulticlientRDMATransportServer.receiveStep, hpc] at hs
      cases hs
      exact .clear rfl hpc
    | distinctMr =>
      simp [receiveStep, MulticlientRDMADistinctMrTransportServer.receiveStep, hpc] at hs
  | size maxSize c =>
    cases k with
    | doorbell =>
      simp only [receiveStep, MulticlientRDMATransportServer.receiveStep, hpc] at hs
      cases hs
      exact .size hpc
    | distinctMr =>
      simp only [receiveStep, MulticlientRDMADistinctMrTransportServer.receiveStep, hpc] at hs
      cases hs
      exact .size hpc
  | copy maxSize c size =>
    cases k with
    | doorbell =>
      simp only [receiveStep, MulticlientRDMATransportServer.receiveStep, hpc] at hs
      split_ifs at hs with hmax
      · cases hs
        exact .throw hpc hmax
      · cases hs
        exact .deliver rfl hpc
    | distinctMr =>
      simp only [receiveStep, MulticlientRDMADistinctMrTransportServer.receiveStep, hpc] at hs
      split_ifs at hs with hmax
      · cases hs
        exact .throw hpc hmax
      · cases hs
        exact .copy rfl hpc
  | reset c bytes =>
    cases k with
    | doorbell => simp [receiveStep, MulticlientRDMATransportServer.receiveStep, hpc] at hs
    | distinctMr =>
      simp only [receiveStep, MulticlientRDMADistinctMrTransportServer.receiveStep, hpc] at hs
      cases hs
      exact .reset rfl hpc

theorem ReceiveStep.not_idle {s' : Slots} (h : ReceiveStep k s s') : s.pc ≠ .idle := by
  cases h with
  | poll hpc | clear _ hpc | size hpc | throw hpc | deliver _ hpc | copy _ hpc | reset _ hpc =>
    rw [hpc]
    exact ServePc.noConfusion

/-- `receive` accepts nobody. -/
theorem receiveStep_frame {s' : Slots} (hs : k.receiveStep s = some s') :
    s'.count = s.count ∧ s'.maxClients = s.maxClients := by
  cases receiveStep_cases hs <;> exact ⟨rfl, rfl⟩

theorem look_eq_some (h : k.look s i = some c) : Announced k s c := by
  cases k with
  | doorbell =>
    simp only [look] at h
    split_ifs at h with hmask
    cases h
    exact senderOf_spec hmask
  | distinctMr =>
    simp only [look] at h
    split_ifs at h with hsize
    cases h
    exact hsize

theorem look_eq_none (h : k.look s i = none) (hi : i ≤ c) (hc : c < i + k.stride) :
    ¬ Announced k s c := by
  cases k with
  | doorbell =>
    simp only [look] at h
    split_ifs at h with hmask
    obtain ⟨j, rfl⟩ := Nat.exists_eq_add_of_le hi
    have hj : j < 16 := by simpa [stride] using hc
    exact fun hne => hne (cmpMask_eq_zero (not_not.1 hmask) hj)
  | distinctMr =>
    simp only [look] at h
    split_ifs at h with hsize
    obtain rfl : i = c := by simp only [stride] at hc; omega
    exact hsize

/-! ## Looking on -/

/-- The server on its own. -/
def serveStep (k : Polling) (s : Slots) (_ : Unit) : Option Slots := k.receiveStep s

theorem run_look (hpc : s.pc = .poll maxSize i) (n : ℕ) :
    run k.serveStep s (List.replicate (n + 1) ()) =
      run k.serveStep { s with pc := k.afterLook s maxSize i } (List.replicate n ()) :=
  run_cons (receiveStep_poll hpc) _

/-- From an index at or before that of a request, a request is found. -/
theorem exists_found_from (hc : Announced k s c) (hb : c < k.bound s) (m : ℕ) :
    ∀ i, s.pc = .poll maxSize i → i ≤ c → c < i + k.stride * m →
      ∃ n d, run k.serveStep s (List.replicate n ()) =
        some { s with pc := k.found maxSize d } ∧ Announced k s d := by
  induction m generalizing s with
  | zero => intro i _ hi hc'; omega
  | succ m ih =>
    intro i hpc hi hc'
    have hlook : k.afterLook s maxSize i = _ := afterLook_of_lt (hi.trans_lt hb)
    cases hf : k.look s i with
    | some d =>
      rw [hf] at hlook
      exact ⟨1, d, by rw [run_look hpc, hlook]; rfl, look_eq_some hf⟩
    | none =>
      rw [hf] at hlook
      have hi' : i + k.stride ≤ c := by
        by_contra hlt
        exact look_eq_none hf hi (by omega) hc
      obtain ⟨n, d, hr, hd⟩ := ih (s := { s with pc := .poll maxSize (i + k.stride) })
        ((announced_pc _).2 hc) (by rwa [bound_pc]) (i + k.stride) rfl hi'
        (by rw [Nat.mul_succ] at hc'; omega)
      exact ⟨n + 1, d, by rw [run_look hpc, hlook]; exact hr, (announced_pc _).1 hd⟩

/-- The loop starts over, if it has found nothing until then. -/
theorem exists_restart (m : ℕ) :
    ∀ i, s.pc = .poll maxSize i → k.bound s ≤ i + k.stride * m →
      ∃ n, run k.serveStep s (List.replicate n ()) = some { s with pc := .poll maxSize 0 } ∨
        ∃ d, run k.serveStep s (List.replicate n ()) =
          some { s with pc := k.found maxSize d } ∧ Announced k s d := by
  induction m generalizing s with
  | zero =>
    intro i hpc hi
    have hlook : k.afterLook s maxSize i = _ := afterLook_of_le (by omega)
    exact ⟨1, Or.inl (by rw [run_look hpc, hlook]; rfl)⟩
  | succ m ih =>
    intro i hpc hi
    by_cases hlt : i < k.bound s
    · have hlook : k.afterLook s maxSize i = _ := afterLook_of_lt hlt
      cases hf : k.look s i with
      | some d =>
        rw [hf] at hlook
        exact ⟨1, Or.inr ⟨d, by rw [run_look hpc, hlook]; rfl, look_eq_some hf⟩⟩
      | none =>
        rw [hf] at hlook
        obtain ⟨n, hr⟩ := ih (s := { s with pc := .poll maxSize (i + k.stride) })
          (i + k.stride) rfl (by rw [Nat.mul_succ] at hi; rw [bound_pc]; omega)
        refine ⟨n + 1, ?_⟩
        rw [run_look hpc, hlook]
        exact hr.imp_right fun ⟨d, hr, hd⟩ => ⟨d, hr, (announced_pc _).1 hd⟩
    · have hlook : k.afterLook s maxSize i = _ := afterLook_of_le (Nat.not_lt.1 hlt)
      exact ⟨1, Or.inl (by rw [run_look hpc, hlook]; rfl)⟩

theorem exists_found (hc : Announced k s c) (hb : c < k.bound s) (hpc : s.pc = .poll maxSize i) :
    ∃ n d, run k.serveStep s (List.replicate n ()) =
      some { s with pc := k.found maxSize d } ∧ Announced k s d := by
  have hpos := k.stride_pos
  obtain ⟨n, hr | ⟨d, hr, hd⟩⟩ := exists_restart (k := k) (k.bound s) i hpc
    (by have := Nat.le_mul_of_pos_left (k.bound s) hpos; omega)
  · have hpc₀ : ({ s with pc := .poll maxSize 0 } : Slots).pc = .poll maxSize 0 := rfl
    obtain ⟨n', d, hr', hd⟩ := exists_found_from (k := k) ((announced_pc _).2 hc)
      (by rwa [bound_pc]) (c + 1) 0 hpc₀ (Nat.zero_le _)
      (by have := Nat.le_mul_of_pos_left (c + 1) hpos; omega)
    refine ⟨n + n', d, ?_, (announced_pc _).1 hd⟩
    rw [List.replicate_add]
    exact (run_append hr _).trans hr'
  · exact ⟨n, d, hr, hd⟩

/-! ## The request is returned -/

/-- A request that was found is returned, if it fits. -/
theorem run_found (hpc : s.pc = k.found maxSize c) (hmax : sizeWord (s.receives c) ≤ maxSize) :
    ∃ s', run k.serveStep s (List.replicate 3 ()) = some s' ∧ s'.returned = s.returned ++
      [(c, Mem.read id (s.receives c) 8 (sizeWord (s.receives c)).toNat)] := by
  have hmax' : ¬ maxSize < sizeWord (s.receives c) := UInt64.not_lt.2 hmax
  cases k with
  | doorbell =>
    have hpc : s.pc = .clear maxSize c := hpc
    refine ⟨_, by
      simp only [List.replicate, run, serveStep, receiveStep,
        MulticlientRDMATransportServer.receiveStep, hpc, hmax', if_false]
      rfl, rfl⟩
  | distinctMr =>
    have hpc : s.pc = .size maxSize c := hpc
    refine ⟨_, by
      simp only [List.replicate, run, serveStep, receiveStep,
        MulticlientRDMADistinctMrTransportServer.receiveStep, hpc, hmax', if_false]
      rfl, rfl⟩

/-- **While a request is announced, the server returns one.** -/
theorem exists_returned (hc : Announced k s c) (hb : c < k.bound s) (hpc : s.pc = .poll maxSize i)
    (hmax : ∀ d, Announced k s d → sizeWord (s.receives d) ≤ maxSize) :
    ∃ n d s', run k.serveStep s (List.replicate n ()) = some s' ∧ Announced k s d ∧
      s'.returned = s.returned ++
        [(d, Mem.read id (s.receives d) 8 (sizeWord (s.receives d)).toNat)] := by
  obtain ⟨n, d, hr, hd⟩ := exists_found hc hb hpc
  obtain ⟨s', hr', hs'⟩ := run_found (k := k) (s := { s with pc := k.found maxSize d }) rfl
    (hmax d hd)
  refine ⟨n + 3, d, s', ?_, hd, hs'⟩
  rw [List.replicate_add]
  exact (run_append hr _).trans hr'

end Polling

end Multiclient

end L5RDMA
