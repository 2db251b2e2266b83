/-
  What a program sends, in terms of what it is sent.

  The programs at the ends of a pair of streams do not see how their calls are
  cut and in which order the ends go on: what an end has sent depends on what it
  has taken only.

  * `Ran prog x inp out y`: the program comes from `x` to `y` with calls that read
    `inp` and write `out`;
  * `At prog x inp p`: where an end is that is sent `inp` (`placed_of_run`);
  * `At.stuck`: why an end does not go on;
  * `Lowers prog weight`: how far a program is from its end at most, so that no
    run is longer than what its programs begin with (`weight_lt`).
-/
import L5RDMA.Lib.Duplex

namespace Duplex

open Run

variable {τ ρ σ : Type}

inductive Ran (prog : ρ → Call τ ρ) (x : ρ) : List τ → List τ → ρ → Prop
  | refl : Ran prog x [] [] x
  | write {inp out ts : List τ} {y next : ρ} (h : Ran prog x inp out y)
      (hy : prog y = .write ts next) : Ran prog x inp (out ++ ts) next
  | read {inp out got : List τ} {y : ρ} {next : List τ → ρ} (h : Ran prog x inp out y)
      (hy : prog y = .read got.length next) : Ran prog x (inp ++ got) out (next got)
  | change {inp out : List τ} {y next : ρ} (h : Ran prog x inp out y)
      (hy : prog y = .change next) : Ran prog x inp out next

inductive At (prog : ρ → Call τ ρ) (x : ρ) (inp : List τ) : End τ ρ → Prop
  | between {y : ρ} {threw : Bool} {sent : List τ} {taken : ℕ}
      (h : Ran prog x (inp.take taken) sent y) : At prog x inp ⟨.between y, threw, sent, taken⟩
  | writing {y next : ρ} {out done rest : List τ} {threw : Bool} {taken : ℕ}
      (h : Ran prog x (inp.take taken) out y) (hy : prog y = .write (done ++ rest) next)
      (hrest : rest ≠ []) : At prog x inp ⟨.writing y rest next, threw, out ++ done, taken⟩
  | reading {y : ρ} {before got sent : List τ} {left : ℕ} {next : List τ → ρ} {threw : Bool}
      {taken : ℕ} (h : Ran prog x before sent y) (hy : prog y = .read (got.length + left) next)
      (hleft : left ≠ 0) (hinp : inp.take taken = before ++ got) :
      At prog x inp ⟨.reading y got left next, threw, sent, taken⟩

section
variable {prog : ρ → Call τ ρ} {x : ρ} {inp : List τ} {p p' q : End τ ρ} {cap : ℕ}

theorem At.throw (h : At prog x inp p) : At prog x inp p.throw := by
  cases h with
  | between h => exact .between h
  | writing h hy hrest => exact .writing h hy hrest
  | reading h hy hleft hinp => exact .reading h hy hleft hinp

/-- More of the input does not matter. -/
theorem At.mono (h : At prog x inp p) (hle : p.taken ≤ inp.length) (more : List τ) :
    At prog x (inp ++ more) p := by
  cases h with
  | between h => exact .between (by rwa [List.take_append_of_le_length hle])
  | writing h hy hrest =>
    exact .writing (by rwa [List.take_append_of_le_length hle]) hy hrest
  | reading h hy hleft hinp =>
    exact .reading h hy hleft (by rw [List.take_append_of_le_length hle, hinp])

theorem At.advance (h : At prog x q.sent p) (ha : End.Advance cap prog p q p') :
    At prog x q.sent p' := by
  cases h with
  | @between y threw sent taken h =>
    cases ha with
    | write hx => cases hx
    | read hx => cases hx
    | call hx hcall =>
      cases hx
      cases hy : prog y with
      | stop => rw [hy] at hcall; cases hcall
      | change next => rw [hy] at hcall; cases hcall; exact .between (h.change hy)
      | write ts next =>
        rw [hy] at hcall
        cases hcall
        cases ts with
        | nil => rw [Pos.write_nil]; exact .between (List.append_nil sent ▸ h.write hy)
        | cons t ts =>
          have hat : At prog x q.sent ⟨.writing y (t :: ts) next, threw, sent ++ [], taken⟩ :=
            .writing h hy (by simp)
          rwa [Pos.write_cons, ← List.append_nil sent]
      | read size next =>
        rw [hy] at hcall
        cases hcall
        cases size with
        | zero =>
          have hran : Ran prog x (q.sent.take taken ++ []) sent (next []) := h.read hy
          rw [List.append_nil] at hran
          rw [Pos.read_zero]
          exact .between hran
        | succ n =>
          rw [Pos.read_succ]
          refine .reading h ?_ (Nat.succ_ne_zero n) (List.append_nil _).symm
          rw [hy, List.length_nil, Nat.zero_add]
  | writing h hy hrest =>
    cases ha with
    | call hx => cases hx
    | read hx => cases hx
    | @write x t rest next hx hroom =>
      cases hx
      rw [← List.singleton_append, ← List.append_assoc] at hy
      dsimp only
      rw [List.append_assoc]
      cases rest with
      | nil =>
        rw [Pos.write_nil]
        rw [List.append_nil] at hy
        exact .between (h.write hy)
      | cons u rest => rw [Pos.write_cons]; exact .writing h hy (by simp)
  | @reading y before got sent left next threw taken h hy hleft hinp =>
    cases ha with
    | call hx => cases hx
    | write hx => cases hx
    | @read x t got left next hx ht =>
      cases hx
      dsimp only at ht ⊢
      have htake : q.sent.take (taken + 1) = before ++ (got ++ [t]) := by
        rw [List.take_add_one, ht, hinp, List.append_assoc]; rfl
      have hlen : got.length + left = (got ++ [t]).length + (left - 1) := by
        rw [List.length_append, List.length_singleton]
        omega
      rw [hlen] at hy
      cases hn : left - 1 with
      | zero =>
        rw [hn, Nat.add_zero] at hy
        rw [Pos.read_zero]
        exact .between (htake ▸ h.read hy)
      | succ n =>
        rw [hn] at hy
        rw [Pos.read_succ]
        exact .reading h hy (Nat.succ_ne_zero n) htake

/-- The calls of an end that are over, and what it has sent of the one that is not. -/
theorem At.exists_ran (h : At prog x inp p) : ∃ before out, Ran prog x before out p.pos.state ∧
    before <+: inp.take p.taken ∧ (p.sent = out ∨ ∃ done rest next,
      prog p.pos.state = .write (done ++ rest) next ∧ p.sent = out ++ done) := by
  cases h with
  | between h => exact ⟨_, _, h, List.prefix_refl _, Or.inl rfl⟩
  | writing h hy hrest => exact ⟨_, _, h, List.prefix_refl _, Or.inr ⟨_, _, _, hy, rfl⟩⟩
  | reading h hy hleft hinp => exact ⟨_, _, h, hinp ▸ List.prefix_append _ _, Or.inl rfl⟩

theorem Ran.of_map {prog' : σ → Call τ σ} {f : ρ → σ} (hf : ∀ x, prog' (f x) = (prog x).map f)
    {out : List τ} {y : σ} (h : Ran prog' (f x) inp out y) :
    ∃ y', y = f y' ∧ Ran prog x inp out y' := by
  induction h with
  | refl => exact ⟨x, rfl, .refl⟩
  | write _ hy ih =>
    obtain ⟨y, rfl, h⟩ := ih
    rw [hf] at hy
    cases hp : prog y with
    | write ts next => rw [hp] at hy; cases hy; exact ⟨next, rfl, h.write hp⟩
    | read | change | stop => rw [hp] at hy; cases hy
  | read _ hy ih =>
    obtain ⟨y, rfl, h⟩ := ih
    rw [hf] at hy
    cases hp : prog y with
    | read size next => rw [hp] at hy; cases hy; exact ⟨_, rfl, h.read hp⟩
    | write | change | stop => rw [hp] at hy; cases hy
  | change _ hy ih =>
    obtain ⟨y, rfl, h⟩ := ih
    rw [hf] at hy
    cases hp : prog y with
    | change next => rw [hp] at hy; cases hy; exact ⟨next, rfl, h.change hp⟩
    | write | read | stop => rw [hp] at hy; cases hy

end

section
variable {cap : ℕ} {prog : Side → ρ → Call τ ρ} {x : Side → ρ} {s s' : State τ ρ}

/-- Both ends are where their programs can be. -/
def Placed (cap : ℕ) (prog : Side → ρ → Call τ ρ) (x : Side → ρ) (s : State τ ρ) : Prop :=
  Bounded cap s ∧ ∀ e, At (prog e) (x e) (s e.other).sent (s e)

theorem placed_start (cap : ℕ) (prog : Side → ρ → Call τ ρ) (x : Side → ρ) :
    Placed cap prog x (start x) := ⟨bounded_start cap x, fun _ => .between .refl⟩

theorem Placed.step {a : Act} (h : Placed cap prog x s) (hs : step cap prog s a = some s') :
    Placed cap prog x s' := by
  obtain ⟨hb, hi⟩ := h
  refine ⟨hb.step hs, fun e => ?_⟩
  cases a with
  | throw e' =>
    cases hs
    have hsent : (Function.update s e' (s e').throw e.other).sent = (s e.other).sent := by
      by_cases he : e.other = e'
      · subst he; rw [Function.update_self]; rfl
      · rw [Function.update_of_ne he]
    rw [hsent]
    by_cases he : e = e'
    · subst he; rw [Function.update_self]; exact (hi e).throw
    · rw [Function.update_of_ne he]; exact hi e
  | go e' =>
    obtain ⟨p, hp, rfl⟩ := advance_eq_some hs
    have ha := (End.advance_cases hp).2
    by_cases he : e = e'
    · subst he
      rw [Function.update_self, Function.update_of_ne (Side.other_ne e)]
      exact (hi e).advance ha
    · obtain rfl : e' = e.other := Side.eq_other he
      rw [Function.update_self, Function.update_of_ne he]
      obtain ⟨more, hmore⟩ := ha.le.1
      rw [← hmore]
      have hle := (hb e.other).1
      rw [Side.other_other] at hle
      exact (hi e).mono hle more

/-- **Where the ends are**, whatever the order of the steps. -/
theorem placed_of_run {as : List Act} (hr : run (step cap prog) (start x) as = some s) :
    Placed cap prog x s :=
  inv_of_run (D := fun _ => True) (fun _ _ _ h _ hs => h.step hs) (placed_start cap prog x)
    (fun _ _ => trivial) hr

end

/-! ## Going on -/

section
variable {prog : ρ → Call τ ρ} {x : ρ} {inp : List τ} {p p' q : End τ ρ} {cap : ℕ}

/-- The program has stopped, or its call has to wait. -/
inductive End.Stuck (cap : ℕ) (prog : ρ → Call τ ρ) (p q : End τ ρ) : Prop
  | stop {y : ρ} (hpos : p.pos = .between y) (hy : prog y = .stop)
  | full {y next : ρ} {rest : List τ} (hpos : p.pos = .writing y rest next)
      (hfull : cap ≤ (p.stream q).length)
  | empty {y : ρ} {got : List τ} {left : ℕ} {next : List τ → ρ}
      (hpos : p.pos = .reading y got left next) (hempty : q.sent.length ≤ p.taken)

theorem At.stuck (h : At prog x inp p) (hthrew : p.threw = false)
    (ha : p.advance cap prog q = none) : End.Stuck cap prog p q := by
  rw [End.advance, if_neg (by simp [hthrew])] at ha
  cases h with
  | @between y =>
    cases hy : prog y with
    | stop => exact .stop rfl hy
    | write | read | change => simp only [hy] at ha; cases ha
  | @writing y next out done rest threw taken _ _ hrest =>
    cases rest with
    | nil => exact absurd rfl hrest
    | cons t rest =>
      refine .full rfl ?_
      by_contra hlt
      rw [not_le] at hlt
      simp only [if_pos hlt] at ha
      cases ha
  | reading =>
    simp only [Option.map_eq_none_iff, List.getElem?_eq_none_iff] at ha
    exact .empty rfl ha

/-- Each call takes the tokens that it moves, and one more, off the weight. -/
def Lowers (prog : ρ → Call τ ρ) (weight : ρ → ℕ) : Prop :=
  ∀ y, match prog y with
    | .write ts next => weight next + ts.length < weight y
    | .read size next =>
      size < weight y ∧ ∀ ts, ts.length = size → weight (next ts) + size < weight y
    | .change next => weight next < weight y
    | .stop => True

/-- How many steps are left at most. -/
def End.weight (weight : ρ → ℕ) (p : End τ ρ) : ℕ :=
  match p.pos with
  | .between y => weight y
  | .writing _ rest next => weight next + rest.length
  | .reading y got _ _ => weight y - (got.length + 1)

theorem At.weight_lt {weight : ρ → ℕ} (hw : Lowers prog weight) (h : At prog x inp p)
    (ha : End.Advance cap prog p q p') : p'.weight weight < p.weight weight := by
  cases h with
  | @between y =>
    have hy' := hw y
    cases ha with
    | write hx => cases hx
    | read hx => cases hx
    | call hx hcall =>
      cases hx
      cases hy : prog y with
      | stop => rw [hy] at hcall; cases hcall
      | change next => rw [hy] at hcall hy'; cases hcall; exact hy'
      | write ts next =>
        rw [hy] at hcall hy'
        cases hcall
        cases ts with
        | nil => rw [Pos.write_nil]; exact hy'
        | cons t ts => rw [Pos.write_cons]; exact hy'
      | read size next =>
        rw [hy] at hcall hy'
        cases hcall
        obtain ⟨hsize, hlt⟩ := hy'
        cases size with
        | zero => rw [Pos.read_zero]; exact hlt [] rfl
        | succ n =>
          rw [Pos.read_succ]
          simp only [End.weight, List.length_nil]
          omega
  | writing =>
    cases ha with
    | call hx => cases hx
    | read hx => cases hx
    | @write x t rest next hx =>
      cases hx
      cases rest with
      | nil => rw [Pos.write_nil]; simp only [End.weight, List.length_singleton]; omega
      | cons u rest => rw [Pos.write_cons]; simp only [End.weight, List.length_cons]; omega
  | @reading y before got sent left next threw taken _ hy hleft =>
    have hlt := hw y
    rw [hy] at hlt
    cases ha with
    | call hx => cases hx
    | write hx => cases hx
    | @read x t got left next hx =>
      cases hx
      have hlen : (got ++ [t]).length = got.length + 1 := by simp
      cases hn : left - 1 with
      | zero =>
        have := hlt.2 (got ++ [t]) (by omega)
        rw [Pos.read_zero]
        simp only [End.weight]
        omega
      | succ n =>
        have := hlt.1
        rw [Pos.read_succ]
        simp only [End.weight, hlen]
        omega

end

section
variable {cap : ℕ} {prog : Side → ρ → Call τ ρ} {x : Side → ρ} {s s' : State τ ρ} {e : Side}

/-- What no run is longer than. -/
def State.weight (weight : ρ → ℕ) (s : State τ ρ) : ℕ :=
  (s .left).weight weight + (s .right).weight weight

theorem weight_lt {weight : ρ → ℕ} (hw : ∀ e, Lowers (prog e) weight)
    (h : Placed cap prog x s) (hs : advance cap prog s e = some s') :
    State.weight weight s' < State.weight weight s := by
  obtain ⟨p, hp, rfl⟩ := advance_eq_some hs
  have hlt := (h.2 e).weight_lt (hw e) (End.advance_cases hp).2
  cases e with
  | left => exact Nat.add_lt_add_right hlt _
  | right => exact Nat.add_lt_add_left hlt _

/-- Nothing is thrown when the ends go on. -/
theorem threw_of_advance (h : ∀ e, (s e).threw = false) (hs : advance cap prog s e = some s')
    (e' : Side) : (s' e').threw = false := by
  obtain ⟨p, hp, rfl⟩ := advance_eq_some hs
  rcases eq_or_ne e' e with rfl | he
  · rw [Function.update_self]
    cases (End.advance_cases hp).2 <;> exact h e'
  · rw [Function.update_of_ne he]; exact h e'

end

end Duplex
