/-
  Two programs that talk over a pair of bounded streams.

  Each end runs a program of calls: `write` gives a list of tokens to the stream
  to the other end, which holds at most `cap` of them, and `read` waits for a
  number of tokens from it.  One step moves one token, begins a call, or lets
  the program go on by itself.  A program may also throw, after which its end
  does nothing more.

  What an end does leaves the other's steps as they are (`commutes`), so that the
  order of the steps does not matter.

  * `run_write`, `run_read`: several tokens of one call;
  * `Bounded`: an end has taken no more than the other has sent, and the streams
    hold no more than `cap` tokens.
-/
import L5RDMA.Lib.Commuting
import Mathlib.Data.List.Infix
import Mathlib.Logic.Function.Basic

namespace Duplex

open Run

inductive Side where
  | left
  | right
deriving DecidableEq

def Side.other : Side → Side
  | left => right
  | right => left

@[simp] theorem Side.other_other (e : Side) : e.other.other = e := by cases e <;> rfl

@[simp] theorem Side.other_ne (e : Side) : e.other ≠ e := by cases e <;> exact Side.noConfusion

@[simp] theorem Side.ne_other (e : Side) : e ≠ e.other := e.other_ne.symm

theorem Side.eq_other {e e' : Side} (h : e ≠ e') : e' = e.other := by
  cases e <;> cases e' <;> first | rfl | exact absurd rfl h

/-- What a program does next, with the state it has afterwards. -/
inductive Call (τ ρ : Type) where
  | write (ts : List τ) (next : ρ)
  | read (size : ℕ) (next : List τ → ρ)
  /-- nothing with its streams -/
  | change (next : ρ)
  | stop

/-- Where a program is: between two calls, or in the call that it makes in state `x`. -/
inductive Pos (τ ρ : Type) where
  | between (x : ρ)
  | writing (x : ρ) (rest : List τ) (next : ρ)
  | reading (x : ρ) (got : List τ) (left : ℕ) (next : List τ → ρ)

def Pos.state {τ ρ : Type} : Pos τ ρ → ρ
  | between x | writing x _ _ | reading x _ _ _ => x

/-- One end: its program, what it has sent, and how many of the other end's tokens it has
    taken. -/
structure End (τ ρ : Type) where
  pos : Pos τ ρ
  threw : Bool
  sent : List τ
  taken : ℕ

abbrev State (τ ρ : Type) := Side → End τ ρ

variable {τ ρ : Type}

/-- In a `write`, or behind it. -/
def Pos.write (x : ρ) (rest : List τ) (next : ρ) : Pos τ ρ :=
  if rest = [] then between next else writing x rest next

/-- In a `read`, or behind it. -/
def Pos.read (x : ρ) (got : List τ) (left : ℕ) (next : List τ → ρ) : Pos τ ρ :=
  if left = 0 then between (next got) else reading x got left next

/-- A program as a part of a larger one. -/
def Call.map {σ : Type} (f : ρ → σ) : Call τ ρ → Call τ σ
  | write ts next => .write ts (f next)
  | read size next => .read size fun ts => f (next ts)
  | change next => .change (f next)
  | stop => .stop

/-- The call that is made in state `x`. -/
def Call.start (x : ρ) : Call τ ρ → Option (Pos τ ρ)
  | write ts next => some (.write x ts next)
  | read size next => some (.read x [] size next)
  | change next => some (.between next)
  | stop => none

def start (x : Side → ρ) : State τ ρ := fun e => ⟨.between (x e), false, [], 0⟩

namespace End

/-- The tokens on the way from `p` to `q`. -/
def stream (p q : End τ ρ) : List τ := p.sent.drop q.taken

/-- The next step of the program `prog` at the end `p` of a pair. -/
def advance (cap : ℕ) (prog : ρ → Call τ ρ) (p q : End τ ρ) : Option (End τ ρ) :=
  if p.threw then none
  else
    match p.pos with
    | .between x => ((prog x).start x).map fun pos => { p with pos := pos }
    | .writing _ [] _ => none
    | .writing x (t :: rest) next =>
      if (p.stream q).length < cap then
        some { p with pos := .write x rest next, sent := p.sent ++ [t] }
      else none
    | .reading x got left next =>
      (q.sent[p.taken]?).map fun t =>
        { p with pos := .read x (got ++ [t]) (left - 1) next, taken := p.taken + 1 }

/-- The program throws. -/
def throw (p : End τ ρ) : End τ ρ := { p with threw := true }

end End

inductive Act where
  | go (e : Side)
  | throw (e : Side)
deriving DecidableEq

def advance (cap : ℕ) (prog : Side → ρ → Call τ ρ) (s : State τ ρ) (e : Side) :
    Option (State τ ρ) :=
  ((s e).advance cap (prog e) (s e.other)).map (Function.update s e)

def step (cap : ℕ) (prog : Side → ρ → Call τ ρ) (s : State τ ρ) : Act → Option (State τ ρ)
  | .go e => advance cap prog s e
  | .throw e => some (Function.update s e (s e).throw)

/-! ## Steps of the two ends commute -/

section
variable {cap : ℕ} {prog : ρ → Call τ ρ} {p p' q q' : End τ ρ}

/-- `p'` has sent and taken no less than `p`. -/
def End.Le (p p' : End τ ρ) : Prop := p.sent <+: p'.sent ∧ p.taken ≤ p'.taken

theorem End.Le.refl (p : End τ ρ) : p.Le p := ⟨List.prefix_refl _, le_rfl⟩

theorem End.Le.trans {p₁ p₂ p₃ : End τ ρ} (h : p₁.Le p₂) (h' : p₂.Le p₃) : p₁.Le p₃ :=
  ⟨h.1.trans h'.1, h.2.trans h'.2⟩

/-- What a step of an end can be. -/
inductive End.Advance (cap : ℕ) (prog : ρ → Call τ ρ) (p q : End τ ρ) : End τ ρ → Prop
  | call {x : ρ} {pos : Pos τ ρ} (hpos : p.pos = .between x) (hcall : (prog x).start x = some pos) :
      Advance cap prog p q { p with pos := pos }
  | write {x : ρ} {t : τ} {rest : List τ} {next : ρ}
      (hpos : p.pos = .writing x (t :: rest) next) (hroom : (p.stream q).length < cap) :
      Advance cap prog p q { p with pos := .write x rest next, sent := p.sent ++ [t] }
  | read {x : ρ} {t : τ} {got : List τ} {left : ℕ} {next : List τ → ρ}
      (hpos : p.pos = .reading x got left next) (ht : q.sent[p.taken]? = some t) :
      Advance cap prog p q
        { p with pos := .read x (got ++ [t]) (left - 1) next, taken := p.taken + 1 }

theorem End.advance_cases (h : p.advance cap prog q = some p') :
    p.threw = false ∧ End.Advance cap prog p q p' := by
  rw [End.advance] at h
  have hthrew : p.threw = false := by
    by_contra ht
    rw [if_pos (by simpa using ht)] at h
    cases h
  rw [if_neg (by simp [hthrew])] at h
  refine ⟨hthrew, ?_⟩
  cases hpos : p.pos with
  | between x =>
    simp only [hpos, Option.map_eq_some_iff] at h
    obtain ⟨pos, hcall, rfl⟩ := h
    exact .call hpos hcall
  | writing x rest next =>
    cases rest with
    | nil => simp only [hpos] at h; cases h
    | cons t rest =>
      simp only [hpos] at h
      split_ifs at h with hroom
      cases h
      exact .write hpos hroom
  | reading x got left next =>
    simp only [hpos, Option.map_eq_some_iff] at h
    obtain ⟨t, ht, rfl⟩ := h
    exact .read hpos ht

theorem End.Advance.eq (hthrew : p.threw = false) (h : End.Advance cap prog p q p') :
    p.advance cap prog q = some p' := by
  rw [End.advance, if_neg (by simp [hthrew])]
  cases h with
  | call hpos hcall => simp only [hpos, hcall]; rfl
  | write hpos hroom => simp only [hpos, if_pos hroom]
  | read hpos ht => simp only [hpos, ht]; rfl

theorem End.Advance.le (h : End.Advance cap prog p q p') : p.Le p' := by
  cases h with
  | call => exact ⟨List.prefix_refl _, le_rfl⟩
  | write => exact ⟨List.prefix_append _ _, le_rfl⟩
  | read => exact ⟨List.prefix_refl _, Nat.le_succ _⟩

/-- The other end, when it goes on, leaves a step possible. -/
theorem End.Advance.mono (h : End.Advance cap prog p q p') (hq : q.Le q') :
    End.Advance cap prog p q' p' := by
  cases h with
  | call hpos hcall => exact .call hpos hcall
  | write hpos hroom =>
    refine .write hpos (lt_of_le_of_lt ?_ hroom)
    have := hq.2
    rw [End.stream, End.stream, List.length_drop, List.length_drop]
    omega
  | read hpos ht =>
    obtain ⟨ts, hts⟩ := hq.1
    refine .read hpos ?_
    rw [← hts, List.getElem?_append_left (List.getElem?_eq_some_iff.1 ht).1, ht]

end

section
variable {cap : ℕ} {prog : Side → ρ → Call τ ρ} {s s' : State τ ρ} {e : Side}

theorem advance_eq_some (h : advance cap prog s e = some s') :
    ∃ p, (s e).advance cap (prog e) (s e.other) = some p ∧ s' = Function.update s e p := by
  rw [advance, Option.map_eq_some_iff] at h
  obtain ⟨p, hp, rfl⟩ := h
  exact ⟨p, hp, rfl⟩

/-- **The ends' steps commute.** -/
theorem commutes (cap : ℕ) (prog : Side → ρ → Call τ ρ) : Commutes (advance cap prog) := by
  intro s a b sa sb hab ha hb
  obtain rfl := Side.eq_other hab
  obtain ⟨p, hp, rfl⟩ := advance_eq_some ha
  obtain ⟨q, hq, rfl⟩ := advance_eq_some hb
  obtain ⟨hpt, hp⟩ := End.advance_cases hp
  obtain ⟨hqt, hq⟩ := End.advance_cases hq
  rw [Side.other_other] at hq
  refine ⟨Function.update (Function.update s a p) a.other q, ?_, ?_⟩
  · have h := (hq.mono hp.le).eq hqt
    rw [advance, Side.other_other, Function.update_self, Function.update_of_ne a.other_ne, h]
    rfl
  · have h := (hp.mono hq.le).eq hpt
    rw [advance, Function.update_self, Function.update_of_ne a.ne_other, h, Option.map_some,
      Function.update_comm a.ne_other]

/-- An end and what it sees of the other. -/
theorem advance_of (cap : ℕ) (prog : Side → ρ → Call τ ρ) (hthrew : (s e).threw = false)
    {p : End τ ρ}
    (h : End.Advance cap (prog e) (s e) (s e.other) p) :
    advance cap prog s e = some (Function.update s e p) := by
  rw [advance, h.eq hthrew]; rfl

end

/-- A run in which nothing is thrown. -/
theorem go_of_run {cap : ℕ} {prog : Side → ρ → Call τ ρ} {s s' : State τ ρ} {es : List Side}
    (h : run (advance cap prog) s es = some s') :
    run (step cap prog) s (es.map Act.go) = some s' :=
  run_map id Act.go (fun _ _ _ hs => hs) h

/-! ## Calls -/

section
variable {cap : ℕ} {prog : Side → ρ → Call τ ρ} {s : State τ ρ} {e : Side}

@[simp] theorem Pos.write_nil (x next : ρ) : Pos.write x ([] : List τ) next = .between next :=
  if_pos rfl

@[simp] theorem Pos.write_cons (x : ρ) (t : τ) (ts : List τ) (next : ρ) :
    Pos.write x (t :: ts) next = .writing x (t :: ts) next := if_neg (by simp)

@[simp] theorem Pos.read_zero (x : ρ) (got : List τ) (next : List τ → ρ) :
    Pos.read x got 0 next = .between (next got) := if_pos rfl

@[simp] theorem Pos.read_succ (x : ρ) (got : List τ) (n : ℕ) (next : List τ → ρ) :
    Pos.read x got (n + 1) next = .reading x got (n + 1) next := if_neg (by simp)

/-- An end in a `write`, or behind it. -/
def End.wrote (p : End τ ρ) (x : ρ) (ts rest : List τ) (next : ρ) : End τ ρ :=
  { p with pos := .write x rest next, sent := p.sent ++ ts }

/-- An end in a `read`, or behind it. -/
def End.took (p : End τ ρ) (x : ρ) (got : List τ) (n left : ℕ) (next : List τ → ρ) : End τ ρ :=
  { p with pos := .read x got left next, taken := p.taken + n }

/-- Some tokens of a `write`, one after the other. -/
theorem run_write (cap : ℕ) (prog : Side → ρ → Call τ ρ) {x next : ρ} {ts rest : List τ}
    (hthrew : (s e).threw = false) (hpos : (s e).pos = .write x (ts ++ rest) next)
    (hroom : ((s e).stream (s e.other)).length + ts.length ≤ cap) :
    run (advance cap prog) s (List.replicate ts.length e) =
      some (Function.update s e ((s e).wrote x ts rest next)) := by
  induction ts generalizing s with
  | nil =>
    have hself : (s e).wrote x [] rest next = s e := by
      rw [End.wrote, List.append_nil, ← List.nil_append rest, ← hpos]
    rw [hself, Function.update_eq_self]; rfl
  | cons t ts ih =>
    rw [List.cons_append, Pos.write_cons] at hpos
    rw [List.length_cons] at hroom
    have hstep := advance_of cap prog hthrew (.write hpos (show _ < cap by omega))
    rw [List.length_cons, List.replicate_succ, run_cons hstep, ih]
    · simp only [Function.update_self, Function.update_idem, End.wrote, List.append_assoc,
        List.singleton_append]
    · rw [Function.update_self]; exact hthrew
    · rw [Function.update_self]
    · rw [Function.update_self, Function.update_of_ne (Side.other_ne e)]
      simp only [End.stream, List.length_drop, List.length_append, List.length_singleton] at hroom ⊢
      omega

/-- Some tokens of a `read`, one after the other. -/
theorem run_read (cap : ℕ) (prog : Side → ρ → Call τ ρ) {x : ρ} {ts more got : List τ}
    {left : ℕ} {next : List τ → ρ} (hthrew : (s e).threw = false)
    (hpos : (s e).pos = .read x got (ts.length + left) next)
    (hstream : (s e.other).stream (s e) = ts ++ more) :
    run (advance cap prog) s (List.replicate ts.length e) =
      some (Function.update s e ((s e).took x (got ++ ts) ts.length left next)) := by
  induction ts generalizing s got with
  | nil =>
    have hself : (s e).took x (got ++ []) 0 left next = s e := by
      rw [List.length_nil, Nat.zero_add] at hpos
      rw [End.took, List.append_nil, ← hpos]; rfl
    rw [List.length_nil, hself, Function.update_eq_self]; rfl
  | cons t ts ih =>
    have hlen : (t :: ts).length + left = (ts.length + left) + 1 := by
      rw [List.length_cons]; omega
    rw [hlen, Pos.read_succ] at hpos
    have ht : (s e.other).sent[(s e).taken]? = some t := by
      rw [← Nat.add_zero (s e).taken, ← List.getElem?_drop]
      exact congrArg (·[0]?) hstream
    have hstep := advance_of cap prog hthrew (.read hpos ht)
    rw [List.length_cons, List.replicate_succ, run_cons hstep, @ih _ (got ++ [t])]
    · simp only [Function.update_self, Function.update_idem, End.took, List.append_assoc,
        List.singleton_append, Nat.add_assoc, Nat.add_comm 1]
    · rw [Function.update_self]; exact hthrew
    · rw [Function.update_self, Nat.add_sub_cancel]
    · rw [Function.update_self, Function.update_of_ne (Side.other_ne e)]
      have := congrArg List.tail hstream
      rwa [End.stream, List.tail_drop] at this

end

/-! ## What is on the way -/

section
variable {cap : ℕ} {prog : Side → ρ → Call τ ρ} {s s' : State τ ρ} {e : Side}

/-- An end has taken no more than the other has sent, and `cap` tokens fit a stream. -/
def Bounded (cap : ℕ) (s : State τ ρ) : Prop :=
  ∀ e : Side, (s e.other).taken ≤ (s e).sent.length ∧
    (s e).sent.length ≤ (s e.other).taken + cap

theorem bounded_start (cap : ℕ) (x : Side → ρ) : Bounded cap (start x : State τ ρ) :=
  fun _ => ⟨le_rfl, Nat.zero_le _⟩

theorem length_stream (p q : End τ ρ) : (p.stream q).length = p.sent.length - q.taken :=
  List.length_drop ..

/-- One end takes a step, or throws. -/
theorem Bounded.update (h : Bounded cap s) (prog : Side → ρ → Call τ ρ) {p : End τ ρ}
    (hp : p.sent = (s e).sent ∧ p.taken = (s e).taken ∨
      End.Advance cap (prog e) (s e) (s e.other) p) : Bounded cap (Function.update s e p) := by
  have hown := h e
  have hother := h e.other
  rw [Side.other_other] at hother
  have hends : (p.sent.length ≤ (s e.other).taken + cap ∧ (s e).sent.length ≤ p.sent.length) ∧
      (p.taken ≤ (s e.other).sent.length ∧ (s e).taken ≤ p.taken) := by
    rcases hp with ⟨hsent, htaken⟩ | hp
    · rw [hsent, htaken]; omega
    · cases hp with
      | call => exact ⟨⟨hown.2, le_rfl⟩, hother.1, le_rfl⟩
      | write _ hroom =>
        rw [length_stream] at hroom
        simp only [List.length_append, List.length_singleton]
        omega
      | read _ ht =>
        have := (List.getElem?_eq_some_iff.1 ht).1
        dsimp only
        omega
  intro e'
  by_cases he : e' = e
  · subst he
    rw [Function.update_self, Function.update_of_ne (Side.other_ne _)]
    omega
  · obtain rfl := Side.eq_other (Ne.symm he)
    rw [Side.other_other, Function.update_self, Function.update_of_ne (Side.other_ne _)]
    omega

theorem Bounded.advance (h : Bounded cap s) (hs : advance cap prog s e = some s') :
    Bounded cap s' := by
  obtain ⟨p, hp, rfl⟩ := advance_eq_some hs
  exact h.update prog (Or.inr (End.advance_cases hp).2)

theorem Bounded.step {a : Act} (h : Bounded cap s) (hs : step cap prog s a = some s') :
    Bounded cap s' := by
  cases a with
  | go e => exact h.advance hs
  | throw e =>
    cases hs
    exact h.update prog (Or.inl ⟨rfl, rfl⟩)

end

end Duplex
