/-
  Two programs that exchange messages of known lengths.

  A script is a list of operations: `put` writes a message, `get` reads one of a
  known length and stores it in the program's variables, `act` does something
  else to them.  At `fails` the program throws.

  * `exec`: what a script does to the variables if it is given the bytes of the
    other end;
  * `Follows`: where an end is in its script.  It is kept by every step
    (`pair_of_run`), so an end that has finished has done exactly `exec`, and
    the other one has put all that this one asks for (`Follows.finished`);
  * `Reaches cap p₁ q₁ a b p q`: the scripts `p` and `q` can run until `p₁` and
    `q₁` are left, with `a` and `b` tokens on the way at the beginning;
  * `Completes cap p q`: they can run to their ends.  If they can, every run can
    be completed (`completes_of_run`);
  * `not_finished_of_puts`: if both put too much before they get anything, they
    cannot.
-/
import L5RDMA.Lib.Duplex

namespace Duplex

open Run

inductive Op (τ υ : Type) where
  | put (msg : List τ)
  | get (size : ℕ) (store : List τ → υ → υ)
  | act (f : υ → υ)
  | fails

/-- What is still to do, and the variables. -/
structure Script (τ υ : Type) where
  todo : List (Op τ υ)
  vars : υ

variable {τ υ : Type}

def Script.call : Script τ υ → Call τ (Script τ υ)
  | ⟨[], _⟩ => .stop
  | ⟨.put msg :: todo, v⟩ => .write msg ⟨todo, v⟩
  | ⟨.get size store :: todo, v⟩ => .read size fun ts => ⟨todo, store ts v⟩
  | ⟨.act f :: todo, v⟩ => .change ⟨todo, f v⟩
  | ⟨.fails :: _, _⟩ => .stop

/-- The tokens that a script writes. -/
def puts : List (Op τ υ) → List τ
  | [] | .fails :: _ => []
  | .put msg :: todo => msg ++ puts todo
  | .get _ _ :: todo | .act _ :: todo => puts todo

/-- How many tokens a script reads. -/
def asks : List (Op τ υ) → ℕ
  | [] | .fails :: _ => 0
  | .get size _ :: todo => size + asks todo
  | .put _ :: todo | .act _ :: todo => asks todo

/-- What a script makes of its variables if it is given the tokens `inp`. -/
def exec : List (Op τ υ) → List τ → υ → υ
  | [], _, v | .fails :: _, _, v => v
  | .put _ :: todo, inp, v => exec todo inp v
  | .get size store :: todo, inp, v => exec todo (inp.drop size) (store (inp.take size) v)
  | .act f :: todo, inp, v => exec todo inp (f v)

abbrev scripts : Side → Script τ υ → Call τ (Script τ υ) := fun _ => Script.call

/-- What an operation does to the variables keeps `P`. -/
def Op.Keeps (P : υ → Prop) : Op τ υ → Prop
  | put _ | fails => True
  | get _ store => ∀ ts v, P v → P (store ts v)
  | act f => ∀ v, P v → P (f v)

theorem exec_keeps {P : υ → Prop} {todo : List (Op τ υ)} (h : ∀ op ∈ todo, op.Keeps P)
    {inp : List τ} {v : υ} (hv : P v) : P (exec todo inp v) := by
  induction todo generalizing inp v with
  | nil => exact hv
  | cons op todo ih =>
    rw [List.forall_mem_cons] at h
    cases op with
    | put msg => exact ih h.2 hv
    | get size store => exact ih h.2 (h.1 _ _ hv)
    | act f => exact ih h.2 (h.1 _ hv)
    | fails => exact hv

theorem puts_append {p : List (Op τ υ)} (h : .fails ∉ p) (q : List (Op τ υ)) :
    puts (p ++ q) = puts p ++ puts q := by
  induction p with
  | nil => rfl
  | cons op p ih =>
    rw [List.mem_cons, not_or] at h
    cases op with
    | put msg => exact (congrArg (msg ++ ·) (ih h.2)).trans (List.append_assoc ..).symm
    | get size store => exact ih h.2
    | act f => exact ih h.2
    | fails => exact absurd rfl h.1

/-- What puts nothing more is behind the last `put`. -/
theorem suffix_of_puts_nil {ops todo p q : List (Op τ υ)} {msg : List τ} (hfails : .fails ∉ ops)
    (hops : ops = p ++ .put msg :: q) (hmsg : msg ≠ []) (hsuf : todo <:+ ops)
    (hputs : puts todo = []) : todo <:+ q := by
  have hput : Op.put msg :: q <:+ ops := ⟨p, hops.symm⟩
  rcases List.suffix_or_suffix_of_suffix hsuf hput with h | ⟨more, rfl⟩
  · rcases List.suffix_cons_iff.1 h with rfl | h
    · exact absurd (List.append_eq_nil_iff.1 hputs).1 hmsg
    · exact h
  · have hmore : Op.fails ∉ more := fun hmem =>
      hfails (hsuf.mem (List.mem_append_left _ hmem))
    rw [puts_append hmore] at hputs
    exact absurd (List.append_eq_nil_iff.1 (List.append_eq_nil_iff.1 hputs).2).1 hmsg

/-! ## Where an end is -/

/-- `todo` is left of `ops`, and the variables are `v`. -/
def After (ops : List (Op τ υ)) (v₀ : υ) (todo : List (Op τ υ)) (v : υ) : Prop :=
  ∃ done, ops = done ++ todo ∧ .fails ∉ done ∧
    ∀ P : υ → Prop, (∀ op ∈ done, op.Keeps P) → P v₀ → P v

theorem After.suffix {ops todo : List (Op τ υ)} {v₀ v : υ} (h : After ops v₀ todo v) :
    todo <:+ ops := by
  obtain ⟨done, rfl, -, -⟩ := h
  exact ⟨done, rfl⟩

theorem After.next {ops todo : List (Op τ υ)} {op : Op τ υ} {v₀ v v' : υ}
    (h : After ops v₀ (op :: todo) v) (hop : op ≠ .fails)
    (hv : ∀ P : υ → Prop, op.Keeps P → P v → P v') : After ops v₀ todo v' := by
  obtain ⟨done, rfl, hdone, hkept⟩ := h
  refine ⟨done ++ [op], by rw [List.append_assoc]; rfl, ?_, fun P hP hv₀ => ?_⟩
  · rw [List.mem_append, List.mem_singleton, not_or]
    exact ⟨hdone, fun h => hop h.symm⟩
  · rw [List.forall_mem_append, List.forall_mem_singleton] at hP
    exact hv P hP.2 (hkept P hP.1 hv₀)

/-- An end that runs the script `ops` from the variables `v₀` on, and is given the tokens
    `inp`. -/
inductive Follows (ops : List (Op τ υ)) (v₀ : υ) (inp : List τ) : End τ (Script τ υ) → Prop
  | between {x : Script τ υ} {threw : Bool} {sent : List τ} {taken : ℕ}
      (hafter : After ops v₀ x.todo x.vars)
      (hsent : sent ++ puts x.todo = puts ops) (htaken : taken + asks x.todo = asks ops)
      (hexec : exec x.todo (inp.drop taken) x.vars = exec ops inp v₀) :
      Follows ops v₀ inp ⟨.between x, threw, sent, taken⟩
  | writing {msg rest : List τ} {todo : List (Op τ υ)} {v : υ} {threw : Bool} {sent : List τ}
      {taken : ℕ} (hrest : rest ≠ [])
      (hafter : After ops v₀ (.put msg :: todo) v)
      (hsent : sent ++ (rest ++ puts todo) = puts ops) (htaken : taken + asks todo = asks ops)
      (hexec : exec todo (inp.drop taken) v = exec ops inp v₀) :
      Follows ops v₀ inp
        ⟨.writing ⟨.put msg :: todo, v⟩ rest ⟨todo, v⟩, threw, sent, taken⟩
  | reading {size left : ℕ} {got : List τ} {store : List τ → υ → υ} {todo : List (Op τ υ)} {v : υ}
      {threw : Bool} {sent : List τ} {taken : ℕ} (hleft : 0 < left)
      (hsize : got.length + left = size) (hafter : After ops v₀ (.get size store :: todo) v)
      (hsent : sent ++ puts todo = puts ops) (htaken : taken + (left + asks todo) = asks ops)
      (hexec : exec todo ((inp.drop taken).drop left)
        (store (got ++ (inp.drop taken).take left) v) = exec ops inp v₀) :
      Follows ops v₀ inp
        ⟨.reading ⟨.get size store :: todo, v⟩ got left fun ts => ⟨todo, store ts v⟩, threw, sent,
          taken⟩

section
variable {ops : List (Op τ υ)} {v₀ : υ} {inp : List τ} {cap : ℕ} {p p' q : End τ (Script τ υ)}

theorem follows_start : Follows ops v₀ inp ⟨.between ⟨ops, v₀⟩, false, [], 0⟩ :=
  .between ⟨[], rfl, by simp, fun _ _ hv => hv⟩ rfl (Nat.zero_add _) rfl

theorem Follows.throw (h : Follows ops v₀ inp p) : Follows ops v₀ inp p.throw := by
  cases h with
  | between hafter hsent htaken hexec => exact .between hafter hsent htaken hexec
  | writing hrest hafter hsent htaken hexec => exact .writing hrest hafter hsent htaken hexec
  | reading hleft hsize hafter hsent htaken hexec =>
    exact .reading hleft hsize hafter hsent htaken hexec

/-- An end behind an operation, or in the `write` or `read` that it is. -/
theorem Follows.call {x : Script τ υ} {pos : Pos τ (Script τ υ)}
    (h : Follows ops v₀ inp p) (hpos : p.pos = .between x) (hcall : x.call.start x = some pos) :
    Follows ops v₀ inp { p with pos := pos } := by
  obtain ⟨pos₀, threw, sent, taken⟩ := p
  obtain rfl : pos₀ = .between x := hpos
  obtain ⟨todo, v⟩ := x
  cases h with
  | between hafter hsent htaken hexec =>
    cases todo with
    | nil => cases hcall
    | cons op todo =>
      cases op with
      | put msg =>
        cases hcall
        cases msg with
        | nil =>
          rw [Pos.write_nil]
          exact .between (hafter.next nofun fun _ _ hv => hv) hsent htaken hexec
        | cons t msg =>
          rw [Pos.write_cons]
          exact .writing (by simp) hafter hsent htaken hexec
      | get size store =>
        cases hcall
        cases size with
        | zero =>
          rw [Pos.read_zero]
          exact .between (hafter.next nofun fun _ hP hv => hP _ _ hv) hsent
            (by simpa [asks] using htaken) (by simpa [exec] using hexec)
        | succ n =>
          rw [Pos.read_succ]
          exact .reading (Nat.succ_pos n) (Nat.zero_add _) hafter hsent htaken hexec
      | act f =>
        cases hcall
        exact .between (hafter.next nofun fun _ hP hv => hP _ hv) hsent htaken hexec
      | fails => cases hcall

/-- One step of an end whose other end sends a part of `inp`. -/
theorem Follows.advance (h : Follows ops v₀ inp p) (hq : q.sent <+: inp)
    (ha : End.Advance cap Script.call p q p') : Follows ops v₀ inp p' := by
  cases ha with
  | call hpos hcall => exact h.call hpos hcall
  | @write x t rest next hpos hroom =>
    cases h with
    | between => cases hpos
    | reading => cases hpos
    | writing hrest hafter hsent htaken hexec =>
      cases hpos
      rw [List.cons_append, ← List.singleton_append, ← List.append_assoc] at hsent
      cases rest with
      | nil =>
        rw [Pos.write_nil]
        exact .between (hafter.next nofun fun _ _ hv => hv) hsent htaken hexec
      | cons u rest =>
        rw [Pos.write_cons]
        exact .writing (by simp) hafter hsent htaken hexec
  | @read x t got left next hpos ht =>
    cases h with
    | between => cases hpos
    | writing => cases hpos
    | @reading size _ _ store todo v threw sent taken hleft hsize hafter hsent htaken hexec =>
      cases hpos
      -- the token that is taken is the next of `inp`
      have hinp : inp.drop taken = t :: inp.drop (taken + 1) := by
        obtain ⟨hlt, hget⟩ := List.getElem?_eq_some_iff.1 ht
        have hlt' : taken < inp.length := hlt.trans_le hq.length_le
        rw [List.drop_eq_getElem_cons hlt', ← hget, hq.getElem hlt]
      obtain ⟨n, rfl⟩ := Nat.exists_eq_add_of_lt hleft
      rw [Nat.zero_add] at hsize htaken hexec ⊢
      rw [hinp, List.drop_succ_cons, List.take_succ_cons] at hexec
      rw [Nat.add_sub_cancel]
      cases n with
      | zero =>
        rw [Pos.read_zero]
        exact .between (hafter.next nofun fun _ hP hv => hP _ _ hv) hsent
          (by dsimp only; omega) hexec
      | succ n =>
        rw [Pos.read_succ]
        refine .reading (Nat.succ_pos n) ?_ hafter hsent (by dsimp only; omega) ?_
        · rw [List.length_append, List.length_singleton]; omega
        · rw [List.append_assoc]; exact hexec

/-- An end sends the tokens of its script. -/
theorem Follows.sent_le (h : Follows ops v₀ inp p) : p.sent <+: puts ops := by
  cases h with
  | between _ hsent => exact ⟨_, hsent⟩
  | writing _ _ hsent => exact ⟨_, hsent⟩
  | reading _ _ _ hsent => exact ⟨_, hsent⟩

/-- What is left of the script makes of the variables what the whole script does. -/
theorem Follows.exists_exec (h : Follows ops v₀ inp p) :
    After ops v₀ p.pos.state.todo p.pos.state.vars ∧
      ∃ inp', exec p.pos.state.todo inp' p.pos.state.vars = exec ops inp v₀ := by
  cases h with
  | between hafter _ _ hexec => exact ⟨hafter, _, hexec⟩
  | writing _ hafter _ _ hexec => exact ⟨hafter, _, hexec⟩
  | @reading size left got store todo v threw sent taken _ hsize hafter _ _ hexec =>
    refine ⟨hafter, got ++ inp.drop taken, ?_⟩
    subst hsize
    show exec todo ((got ++ inp.drop taken).drop (got.length + left))
      (store ((got ++ inp.drop taken).take (got.length + left)) v) = _
    rw [← List.drop_drop, List.drop_left, List.take_length_add_append]
    exact hexec

/-- An end that has sent everything has nothing left to put. -/
theorem Follows.puts_todo (h : Follows ops v₀ inp p) (hsent : p.sent = puts ops) :
    puts p.pos.state.todo = [] := by
  cases h with
  | between _ hs => exact List.append_right_eq_self.1 (hs.trans hsent.symm)
  | reading _ _ _ hs => exact List.append_right_eq_self.1 (hs.trans hsent.symm)
  | writing hrest _ hs =>
    have := List.append_right_eq_self.1 (hs.trans hsent.symm)
    exact absurd (List.append_eq_nil_iff.1 this).1 hrest

/-- The script is at its end. -/
def End.Finished (p : End τ (Script τ υ)) (v : υ) : Prop :=
  p.pos = .between ⟨[], v⟩ ∧ p.threw = false

theorem Follows.finished {v : υ} (h : Follows ops v₀ inp p) (hf : p.Finished v) :
    v = exec ops inp v₀ ∧ p.taken = asks ops ∧ .fails ∉ ops := by
  obtain ⟨hpos, -⟩ := hf
  cases h with
  | between hafter _ htaken hexec =>
    cases hpos
    obtain ⟨done, hops, hdone, -⟩ := hafter
    exact ⟨hexec, htaken, by rwa [hops, List.append_nil]⟩
  | writing => cases hpos
  | reading => cases hpos

end

/-! ## Both ends -/

section
variable {ops : Side → List (Op τ υ)} {v₀ : Side → υ} {cap : ℕ} {s s' : State τ (Script τ υ)}

/-- Each end runs its script on what the other one's puts. -/
def Pair (ops : Side → List (Op τ υ)) (v₀ : Side → υ) (cap : ℕ) (s : State τ (Script τ υ)) : Prop :=
  Bounded cap s ∧ ∀ e : Side, Follows (ops e) (v₀ e) (puts (ops e.other)) (s e)

/-- The start of two scripts. -/
def begin_ (ops : Side → List (Op τ υ)) (v₀ : Side → υ) : State τ (Script τ υ) :=
  start fun e => ⟨ops e, v₀ e⟩

theorem pair_begin : Pair ops v₀ cap (begin_ ops v₀) :=
  ⟨bounded_start cap _, fun _ => follows_start⟩

theorem Pair.step {a : Act} (h : Pair ops v₀ cap s) (hs : step cap scripts s a = some s') :
    Pair ops v₀ cap s' := by
  refine ⟨h.1.step hs, fun e => ?_⟩
  cases a with
  | go e' =>
    obtain ⟨p, hp, rfl⟩ := advance_eq_some hs
    by_cases he : e = e'
    · subst he
      rw [Function.update_self]
      exact (h.2 e).advance (h.2 e.other).sent_le (End.advance_cases hp).2
    · rw [Function.update_of_ne he]; exact h.2 e
  | throw e' =>
    cases hs
    by_cases he : e = e'
    · subst he
      rw [Function.update_self]
      exact (h.2 e).throw
    · rw [Function.update_of_ne he]; exact h.2 e

theorem pair_of_run {as : List Act} (hr : run (step cap scripts) (begin_ ops v₀) as = some s) :
    Pair ops v₀ cap s :=
  inv_of_run (D := fun _ => True) (fun _ _ _ hi _ hs => hi.step hs) pair_begin
    (fun _ _ => trivial) hr

/-- **An end that has finished** has done all of its script with what the other one puts. -/
theorem Pair.finished {e : Side} {v : υ} (h : Pair ops v₀ cap s) (hf : (s e).Finished v) :
    v = exec (ops e) (puts (ops e.other)) (v₀ e) :=
  ((h.2 e).finished hf).1

/-- It has read no more than the other one puts. -/
theorem Pair.asks_le {e : Side} {v : υ} (h : Pair ops v₀ cap s) (hf : (s e).Finished v) :
    asks (ops e) ≤ (puts (ops e.other)).length := by
  have htaken := ((h.2 e).finished hf).2.1
  have hbound := (h.1 e.other).1
  rw [Side.other_other] at hbound
  have := (h.2 e.other).sent_le.length_le
  omega

/-- It has met no `fails`. -/
theorem Pair.fails_not_mem {e : Side} {v : υ} (h : Pair ops v₀ cap s) (hf : (s e).Finished v) :
    .fails ∉ ops e := ((h.2 e).finished hf).2.2

/-- **An end that has finished knows** that the other is behind its last `put`, and so what it
    has made of its variables that is not changed any more. -/
theorem Pair.other_of_finished {e : Side} {v : υ} (h : Pair ops v₀ cap s) (hf : (s e).Finished v)
    (hasks : asks (ops e) = (puts (ops e.other)).length) {β : Type} {f : υ → β} {msg : List τ}
    {p q : List (Op τ υ)} (hfails : .fails ∉ ops e.other) (hops : ops e.other = p ++ .put msg :: q)
    (hmsg : msg ≠ []) (hq : ∀ c, ∀ op ∈ q, op.Keeps fun v => f v = c) :
    f (s e.other).pos.state.vars = f (exec (ops e.other) (puts (ops e)) (v₀ e.other)) := by
  have hother := h.2 e.other
  have htaken := ((h.2 e).finished hf).2.1
  have hbound := (h.1 e.other).1
  rw [Side.other_other] at hbound hother
  have hsent : (s e.other).sent = puts (ops e.other) :=
    hother.sent_le.eq_of_length_le (by omega)
  obtain ⟨hafter, inp, hexec⟩ := hother.exists_exec
  have htodo := suffix_of_puts_nil hfails hops hmsg hafter.suffix (hother.puts_todo hsent)
  rw [← hexec]
  exact (exec_keeps (fun op hop => hq _ op (htodo.mem hop)) rfl).symm

end

/-! ## Completing a run -/

/-- The scripts `p` and `q` can run until `p₁` and `q₁` are left, from a state with `a` tokens on
    the way to the right and `b` to the left. -/
inductive Reaches (cap : ℕ) (p₁ q₁ : List (Op τ υ)) :
    ℕ → ℕ → List (Op τ υ) → List (Op τ υ) → Prop
  | stop (a b : ℕ) : Reaches cap p₁ q₁ a b p₁ q₁
  | putLeft {a b : ℕ} {msg : List τ} {p q : List (Op τ υ)} (hroom : a + msg.length ≤ cap)
      (h : Reaches cap p₁ q₁ (a + msg.length) b p q) : Reaches cap p₁ q₁ a b (.put msg :: p) q
  | putRight {a b : ℕ} {msg : List τ} {p q : List (Op τ υ)} (hroom : b + msg.length ≤ cap)
      (h : Reaches cap p₁ q₁ a (b + msg.length) p q) : Reaches cap p₁ q₁ a b p (.put msg :: q)
  | getLeft {a b size : ℕ} {store : List τ → υ → υ} {p q : List (Op τ υ)} (hle : size ≤ b)
      (h : Reaches cap p₁ q₁ a (b - size) p q) : Reaches cap p₁ q₁ a b (.get size store :: p) q
  | getRight {a b size : ℕ} {store : List τ → υ → υ} {p q : List (Op τ υ)} (hle : size ≤ a)
      (h : Reaches cap p₁ q₁ (a - size) b p q) : Reaches cap p₁ q₁ a b p (.get size store :: q)
  | actLeft {a b : ℕ} {f : υ → υ} {p q : List (Op τ υ)} (h : Reaches cap p₁ q₁ a b p q) :
      Reaches cap p₁ q₁ a b (.act f :: p) q
  | actRight {a b : ℕ} {f : υ → υ} {p q : List (Op τ υ)} (h : Reaches cap p₁ q₁ a b p q) :
      Reaches cap p₁ q₁ a b p (.act f :: q)

/-- The operation is an `act`. -/
def Op.IsAct : Op τ υ → Prop
  | act _ => True
  | _ => False

theorem Reaches.actsLeft {cap a b : ℕ} {p p' q p₁ q₁ : List (Op τ υ)} (hp : ∀ op ∈ p, op.IsAct)
    (h : Reaches cap p₁ q₁ a b p' q) : Reaches cap p₁ q₁ a b (p ++ p') q := by
  induction p with
  | nil => exact h
  | cons op p ih =>
    rw [List.forall_mem_cons] at hp
    cases op with
    | act f => exact .actLeft (ih hp.2)
    | put | get | fails => exact hp.1.elim

theorem Reaches.actsRight {cap a b : ℕ} {p q q' p₁ q₁ : List (Op τ υ)} (hq : ∀ op ∈ q, op.IsAct)
    (h : Reaches cap p₁ q₁ a b p q') : Reaches cap p₁ q₁ a b p (q ++ q') := by
  induction q with
  | nil => exact h
  | cons op q ih =>
    rw [List.forall_mem_cons] at hq
    cases op with
    | act f => exact .actRight (ih hq.2)
    | put | get | fails => exact hq.1.elim

/-- Both scripts can run to their ends. -/
abbrev Completes (cap : ℕ) : List (Op τ υ) → List (Op τ υ) → Prop := Reaches cap [] [] 0 0

section
variable {cap : ℕ} {s t : State τ (Script τ υ)} {e : Side} {todo : List (Op τ υ)}

/-- An end is between two calls and has `todo` to do. -/
def Stands (s : State τ (Script τ υ)) (e : Side) (todo : List (Op τ υ)) : Prop :=
  (∃ v, (s e).pos = .between ⟨todo, v⟩) ∧ (s e).threw = false

theorem Stands.finished (h : Stands s e []) : ∃ v, (s e).Finished v := by
  obtain ⟨⟨v, hpos⟩, hthrew⟩ := h
  exact ⟨v, hpos, hthrew⟩

theorem stands_update {p : End τ (Script τ υ)} {v : υ} (hpos : p.pos = .between ⟨todo, v⟩)
    (hthrew : p.threw = false) : Stands (Function.update s e p) e todo := by
  rw [Stands, Function.update_self]
  exact ⟨⟨v, hpos⟩, hthrew⟩

theorem Stands.of_eq (h : Stands s e todo) (he : t e = s e) : Stands t e todo := by
  rw [Stands, he]; exact h

/-- The end `e` runs one operation. -/
theorem Stands.run_put {msg : List τ} {a : ℕ} (h : Stands s e (.put msg :: todo))
    (ha : (s e).sent.length = (s e.other).taken + a) (hroom : a + msg.length ≤ cap) :
    ∃ as t, run (advance cap scripts) s as = some t ∧ Stands t e todo ∧
      (t e).sent.length = (s e).sent.length + msg.length ∧ (t e).taken = (s e).taken ∧
      t e.other = s e.other := by
  obtain ⟨⟨v, hpos⟩, hthrew⟩ := h
  let x : Script τ υ := ⟨.put msg :: todo, v⟩
  let p : End τ (Script τ υ) := { s e with pos := .write x msg ⟨todo, v⟩ }
  have hstep : advance cap scripts s e = some (Function.update s e p) :=
    advance_of cap scripts hthrew (.call hpos rfl)
  have hp : Function.update s e p e = p := Function.update_self ..
  have hq : Function.update s e p e.other = s e.other := Function.update_of_ne (Side.other_ne e) ..
  have hbefore : (Function.update s e p e).pos = .write x (msg ++ []) ⟨todo, v⟩ := by
    rw [hp, List.append_nil]
  have hwrite := run_write cap scripts (by rw [hp]; exact hthrew) hbefore
    (by rw [hp, hq, length_stream]; dsimp only [p]; omega)
  rw [hp, Function.update_idem] at hwrite
  refine ⟨e :: List.replicate msg.length e, Function.update s e (p.wrote x msg [] ⟨todo, v⟩),
    by rw [run_cons hstep]; exact hwrite,
    stands_update (Pos.write_nil x _) hthrew, ?_, ?_, Function.update_of_ne (Side.other_ne e) ..⟩
  · rw [Function.update_self, End.wrote, List.length_append]
  · rw [Function.update_self]; rfl

theorem Stands.run_get (cap : ℕ) {size : ℕ} {store : List τ → υ → υ}
    (h : Stands s e (.get size store :: todo))
    (hle : (s e).taken + size ≤ (s e.other).sent.length) :
    ∃ as t, run (advance cap scripts) s as = some t ∧ Stands t e todo ∧
      (t e).sent.length = (s e).sent.length ∧ (t e).taken = (s e).taken + size ∧
      t e.other = s e.other := by
  obtain ⟨⟨v, hpos⟩, hthrew⟩ := h
  obtain ⟨ts, more, hts, rfl⟩ : ∃ ts more, (s e.other).stream (s e) = ts ++ more ∧
      ts.length = size := by
    refine ⟨_, _, (List.take_append_drop size _).symm, ?_⟩
    rw [List.length_take, length_stream]
    omega
  let x : Script τ υ := ⟨.get ts.length store :: todo, v⟩
  let next : List τ → Script τ υ := fun ts => ⟨todo, store ts v⟩
  let p : End τ (Script τ υ) := { s e with pos := .read x [] ts.length next }
  have hstep : advance cap scripts s e = some (Function.update s e p) :=
    advance_of cap scripts hthrew (.call hpos rfl)
  have hp : Function.update s e p e = p := Function.update_self ..
  have hq : Function.update s e p e.other = s e.other := Function.update_of_ne (Side.other_ne e) ..
  have hbefore : (Function.update s e p e).pos = .read x [] (ts.length + 0) next := by rw [hp]; rfl
  have hread := run_read cap scripts (by rw [hp]; exact hthrew) hbefore (by rw [hp, hq]; exact hts)
  rw [hp, Function.update_idem] at hread
  refine ⟨e :: List.replicate ts.length e, Function.update s e (p.took x ts ts.length 0 next),
    by rw [run_cons hstep]; exact hread,
    stands_update (Pos.read_zero x _ _) hthrew, ?_, ?_, Function.update_of_ne (Side.other_ne e) ..⟩
  · rw [Function.update_self]; rfl
  · rw [Function.update_self]; rfl

theorem Stands.run_act (cap : ℕ) {f : υ → υ} (h : Stands s e (.act f :: todo)) :
    ∃ as t, run (advance cap scripts) s as = some t ∧ Stands t e todo ∧
      (t e).sent.length = (s e).sent.length ∧ (t e).taken = (s e).taken ∧
      t e.other = s e.other := by
  obtain ⟨⟨v, hpos⟩, hthrew⟩ := h
  refine ⟨[e], _, by rw [run_cons (advance_of cap scripts hthrew (.call hpos rfl))]; rfl, ?_⟩
  refine ⟨stands_update rfl hthrew, ?_, ?_, Function.update_of_ne (Side.other_ne e) ..⟩
  · rw [Function.update_self]
  · rw [Function.update_self]

theorem Reaches.exists_run {a b : ℕ} {p q p₁ q₁ : List (Op τ υ)} (h : Reaches cap p₁ q₁ a b p q)
    (hp : Stands s .left p) (hq : Stands s .right q)
    (ha : (s .left).sent.length = (s .right).taken + a)
    (hb : (s .right).sent.length = (s .left).taken + b) :
    ∃ as t, run (advance cap scripts) s as = some t ∧ Stands t .left p₁ ∧ Stands t .right q₁ := by
  induction h generalizing s with
  | stop => exact ⟨[], s, rfl, hp, hq⟩
  | putLeft hroom _ ih =>
    obtain ⟨as, t, hr, hp', hsent, htaken, hother⟩ :=
      hp.run_put ha hroom
    have hother : t .right = s .right := hother
    obtain ⟨bs, u, hr', hu⟩ := ih hp' (hq.of_eq hother) (by rw [hother]; omega)
      (by rw [hother]; omega)
    exact ⟨as ++ bs, u, by rw [run_append hr, hr'], hu⟩
  | putRight hroom _ ih =>
    obtain ⟨as, t, hr, hq', hsent, htaken, hother⟩ :=
      hq.run_put hb hroom
    have hother : t .left = s .left := hother
    obtain ⟨bs, u, hr', hu⟩ := ih (hp.of_eq hother) hq' (by rw [hother]; omega)
      (by rw [hother]; omega)
    exact ⟨as ++ bs, u, by rw [run_append hr, hr'], hu⟩
  | getLeft hle _ ih =>
    obtain ⟨as, t, hr, hp', hsent, htaken, hother⟩ :=
      hp.run_get cap (show _ ≤ (s .right).sent.length by omega)
    have hother : t .right = s .right := hother
    obtain ⟨bs, u, hr', hu⟩ := ih hp' (hq.of_eq hother) (by rw [hother]; omega)
      (by rw [hother]; omega)
    exact ⟨as ++ bs, u, by rw [run_append hr, hr'], hu⟩
  | getRight hle _ ih =>
    obtain ⟨as, t, hr, hq', hsent, htaken, hother⟩ :=
      hq.run_get cap (show _ ≤ (s .left).sent.length by omega)
    have hother : t .left = s .left := hother
    obtain ⟨bs, u, hr', hu⟩ := ih (hp.of_eq hother) hq' (by rw [hother]; omega)
      (by rw [hother]; omega)
    exact ⟨as ++ bs, u, by rw [run_append hr, hr'], hu⟩
  | actLeft _ ih =>
    obtain ⟨as, t, hr, hp', hsent, htaken, hother⟩ := hp.run_act cap
    have hother : t .right = s .right := hother
    obtain ⟨bs, u, hr', hu⟩ := ih hp' (hq.of_eq hother) (by rw [hother]; omega)
      (by rw [hother]; omega)
    exact ⟨as ++ bs, u, by rw [run_append hr, hr'], hu⟩
  | actRight _ ih =>
    obtain ⟨as, t, hr, hq', hsent, htaken, hother⟩ := hq.run_act cap
    have hother : t .left = s .left := hother
    obtain ⟨bs, u, hr', hu⟩ := ih (hp.of_eq hother) hq' (by rw [hother]; omega)
      (by rw [hother]; omega)
    exact ⟨as ++ bs, u, by rw [run_append hr, hr'], hu⟩

theorem final_of_stands (h : ∀ e, Stands s e []) : Final (advance cap scripts) s := by
  intro e
  obtain ⟨⟨v, hpos⟩, hthrew⟩ := h e
  rw [advance, End.advance, if_neg (by simp [hthrew])]
  simp only [hpos, scripts, Script.call, Call.start]
  rfl

/-- **Scripts that can** run so far do so from their start on. -/
theorem Reaches.exists_run_begin {ops : Side → List (Op τ υ)} {p₁ q₁ : List (Op τ υ)}
    (h : Reaches cap p₁ q₁ 0 0 (ops .left) (ops .right)) (v₀ : Side → υ) :
    ∃ as t, run (advance cap scripts) (begin_ ops v₀) as = some t ∧ Stands t .left p₁ ∧
      Stands t .right q₁ :=
  h.exists_run ⟨⟨_, rfl⟩, rfl⟩ ⟨⟨_, rfl⟩, rfl⟩ rfl rfl

/-- **Every run can be completed**, and there is a bound on the length of all of them. -/
theorem completes_of_run {ops : Side → List (Op τ υ)}
    (h : Completes cap (ops .left) (ops .right)) (v₀ : Side → υ) :
    ∃ n, ∀ as t, run (advance cap scripts) (begin_ ops v₀) as = some t →
      ∃ bs u, run (advance cap scripts) t bs = some u ∧ (∀ e, Stands u e []) ∧
        as.length + bs.length = n := by
  obtain ⟨cs, f, hf, hleft, hright⟩ := h.exists_run_begin v₀
  have hfin : ∀ e, Stands f e [] := fun e => by cases e <;> assumption
  refine ⟨cs.length, fun as t hr => ?_⟩
  obtain ⟨bs, hbs, hperm⟩ :=
    (commutes cap scripts).completes hf (final_of_stands hfin) hr
  exact ⟨bs, f, hbs, hfin, by rw [← List.length_append, hperm.length_eq]⟩

/-- What a script puts before it gets anything. -/
def firstPuts : List (Op τ υ) → List τ
  | .put msg :: todo => msg ++ firstPuts todo
  | .act _ :: todo => firstPuts todo
  | [] | .get _ _ :: _ | .fails :: _ => []

/-- Still to write some of `msg`, with nothing read. -/
inductive Puts (msg : List τ) : End τ (Script τ υ) → Prop
  | between {x : Script τ υ} {threw : Bool} {sent : List τ}
      (hsent : sent ++ firstPuts x.todo = msg) : Puts msg ⟨.between x, threw, sent, 0⟩
  | writing {x next : Script τ υ} {rest : List τ} {threw : Bool} {sent : List τ} (hrest : rest ≠ [])
      (hsent : sent ++ (rest ++ firstPuts next.todo) = msg) :
      Puts msg ⟨.writing x rest next, threw, sent, 0⟩

theorem Puts.throw {msg : List τ} {p : End τ (Script τ υ)} (h : Puts msg p) : Puts msg p.throw := by
  cases h with
  | between hsent => exact .between hsent
  | writing hrest hsent => exact .writing hrest hsent

theorem Puts.taken {msg : List τ} {p : End τ (Script τ υ)} (h : Puts msg p) : p.taken = 0 := by
  cases h <;> rfl

theorem Puts.advance {msg : List τ} {p p' q : End τ (Script τ υ)} (h : Puts msg p)
    (hshort : p.sent.length < msg.length) (ha : End.Advance cap Script.call p q p') :
    Puts msg p' := by
  cases h with
  | @between x threw sent hsent =>
    cases ha with
    | write hx => cases hx
    | read hx => cases hx
    | call hx hcall =>
      cases hx
      obtain ⟨todo, v⟩ := x
      -- the script has more to put
      have hputs : firstPuts todo ≠ [] := by
        intro hnil
        dsimp only at hsent hshort
        rw [hnil, List.append_nil] at hsent
        rw [hsent] at hshort
        exact lt_irrefl _ hshort
      cases todo with
      | nil => exact absurd rfl hputs
      | cons op todo =>
        cases op with
        | put m =>
          cases hcall
          cases m with
          | nil => rw [Pos.write_nil]; exact .between hsent
          | cons t m => rw [Pos.write_cons]; exact .writing (by simp) hsent
        | get size store => exact absurd rfl hputs
        | act f => cases hcall; exact .between hsent
        | fails => cases hcall
  | writing hrest hsent =>
    cases ha with
    | call hx => cases hx
    | read hx => cases hx
    | @write x t rest next hx hroom =>
      cases hx
      rw [List.cons_append, ← List.singleton_append, ← List.append_assoc] at hsent
      cases rest with
      | nil => rw [Pos.write_nil]; exact .between hsent
      | cons u rest => rw [Pos.write_cons]; exact .writing (by simp) hsent

/-- **Scripts that both begin with more than fits** never finish. -/
theorem not_finished_of_puts {ops : Side → List (Op τ υ)} {v₀ : Side → υ} {as : List Act}
    (hlong : ∀ e, cap < (firstPuts (ops e)).length)
    (hr : run (step cap scripts) (begin_ ops v₀) as = some s) (e : Side) (v : υ) :
    ¬ (s e).Finished v := by
  have hstart : ∀ e, Puts (firstPuts (ops e)) (begin_ ops v₀ e) := fun e => .between rfl
  have hshort {s : State τ (Script τ υ)} (hb : Bounded cap s)
      (hi : ∀ e, Puts (firstPuts (ops e)) (s e)) (e : Side) :
      (s e).sent.length < (firstPuts (ops e)).length := by
    have := (hb e).2
    rw [(hi e.other).taken, Nat.zero_add] at this
    exact this.trans_lt (hlong e)
  have hinv : Bounded cap s ∧ ∀ e, Puts (firstPuts (ops e)) (s e) := by
    refine inv_of_run (D := fun _ => True)
      (I := fun s => Bounded cap s ∧ ∀ e, Puts (firstPuts (ops e)) (s e)) ?_
      ⟨bounded_start cap _, hstart⟩ (fun _ _ => trivial) hr
    rintro s a s' ⟨hb, hi⟩ - hs
    refine ⟨hb.step hs, fun e => ?_⟩
    cases a with
    | throw e' =>
      cases hs
      by_cases he : e = e'
      · subst he
        rw [Function.update_self]
        exact (hi e).throw
      · rw [Function.update_of_ne he]; exact hi e
    | go e' =>
      obtain ⟨p, hp, rfl⟩ := advance_eq_some hs
      by_cases he : e = e'
      · subst he
        rw [Function.update_self]
        exact (hi e).advance (hshort hb hi e) (End.advance_cases hp).2
      · rw [Function.update_of_ne he]; exact hi e
  rintro ⟨hpos, -⟩
  have hlt := hshort hinv.1 hinv.2 e
  have hputs := hinv.2 e
  cases hse : s e with
  | mk pos threw sent taken =>
    rw [hse] at hpos hputs hlt
    cases hputs with
    | between hsent =>
      cases hpos
      rw [firstPuts, List.append_nil] at hsent
      rw [hsent] at hlt
      exact lt_irrefl _ hlt
    | writing => cases hpos

end

end Duplex
