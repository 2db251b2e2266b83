/-
  An echo over a socket.

  * `ping_never_throws`: what `Ping` reads is what it has written, whatever the two
    sizes and the numbers of calls are, in every run;
  * `pings_return_iff`: when all calls return.
-/
import L5RDMA.PingPong
import L5RDMA.Proof.SocketPrograms
import L5RDMA.Lib.History

namespace L5RDMA

namespace PingPong

open Run
open Duplex (Side Call Ran At Lowers)

/-! ## What the two programs do -/

/-- What `Ping` writes in several calls. -/
def pings (n calls : ℕ) : List UInt8 := (List.replicate calls (pattern n)).flatten

@[simp] theorem length_pattern (n : ℕ) : (pattern n).length = n := by
  rw [pattern, List.length_map, List.length_range]

@[simp] theorem length_pings (n calls : ℕ) : (pings n calls).length = calls * n := by
  simp [pings]

theorem pings_succ (n calls : ℕ) : pings n (calls + 1) = pings n calls ++ pattern n := by
  rw [pings, pings, List.replicate_succ', List.flatten_append]
  simp

theorem pings_add (n i j : ℕ) : pings n (i + j) = pings n i ++ pings n j := by
  rw [pings, pings, pings, List.replicate_add, List.flatten_append]

theorem pings_le {n i j : ℕ} (h : i ≤ j) : pings n i <+: pings n j := by
  rw [← Nat.add_sub_cancel' h, pings_add]
  exact List.prefix_append _ _

/-- What a `Ping` has read and written, and what follows of it. -/
inductive Ping.After (n r : ℕ) (inp out : List UInt8) : Ping → Prop
  | ping {calls j : ℕ} {buffer : List UInt8} (hj : j + calls = r) (hb : buffer.length = n)
      (hout : out = pings n j) (hinp : inp.length = j * n) :
      After n r inp out ⟨.ping calls, pattern n, buffer⟩
  | fill {calls j : ℕ} {buffer : List UInt8} (hj : j + 1 + calls = r) (hb : buffer.length = n)
      (hout : out = pings n (j + 1)) (hinp : inp.length = j * n) :
      After n r inp out ⟨.fill calls, pattern n, buffer⟩
  | read {calls j : ℕ} {buffer : List UInt8} (hj : j + 1 + calls = r) (hb : buffer.length = n)
      (hout : out = pings n (j + 1)) (hinp : inp.length = j * n) :
      After n r inp out ⟨.read calls, pattern n, buffer⟩
  | compare {calls j : ℕ} {before buffer : List UInt8} (hj : j + 1 + calls = r)
      (hb : buffer.length = n) (hout : out = pings n (j + 1)) (hbefore : before.length = j * n)
      (hinp : inp = before ++ buffer) : After n r inp out ⟨.compare calls, pattern n, buffer⟩
  | threw {j : ℕ} {before buffer : List UInt8} (hj : j < r) (hb : buffer.length = n)
      (hout : out = pings n (j + 1)) (hbefore : before.length = j * n)
      (hinp : inp = before ++ buffer) (hne : buffer ≠ pattern n) :
      After n r inp out ⟨.threw (unexpected buffer), pattern n, buffer⟩

theorem differs_iff {buffer data : List UInt8} (h : buffer.length = data.length) :
    (∃ i < data.length, buffer[i]? ≠ data[i]?) ↔ buffer ≠ data := by
  constructor
  · rintro ⟨i, -, hi⟩ rfl
    exact hi rfl
  · intro hne
    by_contra hall
    push Not at hall
    refine hne (List.ext_getElem? fun i => ?_)
    rcases Nat.lt_or_ge i data.length with hi | hi
    · exact hall i hi
    · rw [List.getElem?_eq_none hi, List.getElem?_eq_none (h ▸ hi)]

section
variable {n r : ℕ} {inp out : List UInt8} {p : Ping}

theorem after_ping (h : Ran Ping.call (.new n r) inp out p) : p.After n r inp out := by
  induction h with
  | refl => exact .ping (Nat.zero_add r) (by simp) rfl (Nat.zero_mul n).symm
  | write _ hy ih =>
    cases ih with
    | @ping calls j buffer hj hb hout hinp =>
      cases calls with
      | zero => cases hy
      | succ calls =>
        cases hy
        exact .fill (j := j) (by omega) hb (by rw [hout, pings_succ]) hinp
    | compare => rw [Ping.call] at hy; dsimp only at hy; split_ifs at hy
    | fill | read | threw => cases hy
  | read _ hy ih =>
    cases ih with
    | @ping calls => cases calls <;> cases hy
    | read hj hb hout hinp =>
      rw [Ping.call] at hy
      dsimp only at hy
      rw [Call.read.injEq] at hy
      obtain ⟨hlen, rfl⟩ := hy
      exact .compare hj (hlen.symm.trans hb) hout hinp rfl
    | compare => rw [Ping.call] at hy; dsimp only at hy; split_ifs at hy
    | fill | threw => cases hy
  | change _ hy ih =>
    cases ih with
    | @ping calls => cases calls <;> cases hy
    | fill hj hb hout hinp => cases hy; exact .read hj (by rwa [List.length_map]) hout hinp
    | @compare calls j before buffer hj hb hout hbefore hinp =>
      rw [Ping.call] at hy
      dsimp only at hy
      have hdiffers := differs_iff (hb.trans (length_pattern n).symm)
      split_ifs at hy with hne
      · cases hy
        exact .threw (by omega) hb hout hbefore hinp (hdiffers.1 hne)
      · cases hy
        refine .ping hj hb hout ?_
        rw [hinp, List.length_append, hbefore, hb, Nat.succ_mul]
    | read | threw => cases hy

/-- `Ping` sends nothing but its data. -/
theorem Ping.After.out_le (h : p.After n r inp out) : out <+: pings n r := by
  cases h with
  | ping hj hb hout hinp => exact hout ▸ pings_le (by omega)
  | fill hj hb hout | read hj hb hout | compare hj hb hout => exact hout ▸ pings_le (by omega)
  | threw hj hb hout => exact hout ▸ pings_le hj

/-- The data comes back. -/
theorem Ping.After.not_threw (h : p.After n r inp out) (hinp : inp <+: pings n r)
    (what : List UInt8) : p.pc ≠ .threw what := by
  cases h with
  | ping | fill | read | compare => exact PingPc.noConfusion
  | @threw j before buffer hj hb hout hbefore hinp' hne =>
    intro _
    have hle : inp <+: pings n (j + 1) :=
      List.prefix_of_prefix_length_le hinp (pings_le hj)
        (by rw [hinp', List.length_append, hbefore, hb, length_pings, Nat.succ_mul])
    have heq : before ++ buffer = pings n j ++ pattern n := by
      rw [← hinp', ← pings_succ]
      refine hle.eq_of_length ?_
      rw [hinp', List.length_append, hbefore, hb, length_pings, Nat.succ_mul]
    exact hne (List.append_inj heq (by rw [hbefore, length_pings])).2

end

/-- What a `Pong` has read and written. -/
inductive Pong.After (n r : ℕ) (inp out : List UInt8) : Pong → Prop
  | pong {calls j : ℕ} {buffer : List UInt8} (hj : j + calls = r) (hb : buffer.length = n)
      (hinp : inp.length = j * n) (hout : out = inp) : After n r inp out ⟨.pong calls, buffer⟩
  | write {calls j : ℕ} {buffer : List UInt8} (hj : j + 1 + calls = r) (hb : buffer.length = n)
      (hlen : out.length = j * n) (hinp : inp = out ++ buffer) :
      After n r inp out ⟨.write calls, buffer⟩

section
variable {n r : ℕ} {inp out : List UInt8} {p : Pong}

theorem after_pong (h : Ran Pong.call (.new n r) inp out p) : p.After n r inp out := by
  induction h with
  | refl => exact .pong (Nat.zero_add r) (by simp) (Nat.zero_mul n).symm rfl
  | write _ hy ih =>
    cases ih with
    | @pong calls => cases calls <;> cases hy
    | write hj hb hlen hinp =>
      cases hy
      refine .pong hj hb ?_ hinp.symm
      rw [hinp, List.length_append, hlen, hb, Nat.succ_mul]
  | read _ hy ih =>
    cases ih with
    | @pong calls j buffer hj hb hinp hout =>
      cases calls with
      | zero => cases hy
      | succ calls =>
        rw [Pong.call] at hy
        dsimp only at hy
        rw [Call.read.injEq] at hy
        obtain ⟨hlen, rfl⟩ := hy
        exact .write (j := j) (by omega) (hlen.symm.trans hb) (hout ▸ hinp) (by rw [hout])
    | write => cases hy
  | change _ hy ih =>
    cases ih with
    | @pong calls => cases calls <;> cases hy
    | write => cases hy

end

/-! ## Where the ends are -/

section
variable {n r : ℕ} {inp : List UInt8} {p : Duplex.End UInt8 (Ping ⊕ Pong)}

theorem ping_ran {out : List UInt8} {y : Ping ⊕ Pong}
    (h : Ran (prog .left) (.inl (.new n r)) inp out y) : ∃ p, y = .inl p ∧ p.After n r inp out := by
  have hmap (p : Ping) : prog .left (.inl p) = p.call.map .inl := rfl
  obtain ⟨p, rfl, hran⟩ := h.of_map hmap
  exact ⟨p, rfl, after_ping hran⟩

theorem pong_ran {out : List UInt8} {y : Ping ⊕ Pong}
    (h : Ran (prog .right) (.inr (.new n r)) inp out y) :
    ∃ p, y = .inr p ∧ p.After n r inp out := by
  have hmap (p : Pong) : prog .right (.inr p) = p.call.map .inr := rfl
  obtain ⟨p, rfl, hran⟩ := h.of_map hmap
  exact ⟨p, rfl, after_pong hran⟩

/-- A `write` of `Ping`. -/
theorem Ping.After.write_eq {out ts : List UInt8} {p : Ping} {next : Ping ⊕ Pong}
    (h : p.After n r inp out) (hy : prog .left (.inl p) = .write ts next) :
    ts = pattern n ∧ ∃ j < r, out = pings n j ∧ inp.length = j * n := by
  rw [prog] at hy
  cases h with
  | @ping calls j buffer hj hb hout hinp =>
    cases calls with
    | zero => cases hy
    | succ calls => cases hy; exact ⟨rfl, j, by omega, hout, hinp⟩
  | compare => rw [Ping.call] at hy; dsimp only at hy; split_ifs at hy <;> cases hy
  | fill | read | threw => cases hy

/-- A `read` of `Ping`. -/
theorem Ping.After.read_eq {out : List UInt8} {p : Ping} {size : ℕ}
    {next : List UInt8 → Ping ⊕ Pong} (h : p.After n r inp out)
    (hy : prog .left (.inl p) = .read size next) :
    size = n ∧ ∃ j < r, out = pings n (j + 1) ∧ inp.length = j * n := by
  rw [prog] at hy
  cases h with
  | @ping calls => cases calls <;> cases hy
  | @read calls j buffer hj hb hout hinp => cases hy; exact ⟨hb, j, by omega, hout, hinp⟩
  | compare => rw [Ping.call] at hy; dsimp only at hy; split_ifs at hy <;> cases hy
  | fill | threw => cases hy

/-- `Ping` has stopped. -/
theorem Ping.After.stop_eq {out : List UInt8} {p : Ping} (h : p.After n r inp out)
    (hy : prog .left (.inl p) = .stop) :
    (p.pc = .ping 0 ∧ out = pings n r ∧ inp.length = r * n) ∨ ∃ what, p.pc = .threw what := by
  rw [prog] at hy
  cases h with
  | @ping calls j buffer hj hb hout hinp =>
    cases calls with
    | zero => obtain rfl : j = r := hj; exact Or.inl ⟨rfl, hout, hinp⟩
    | succ calls => cases hy
  | threw => exact Or.inr ⟨_, rfl⟩
  | compare => rw [Ping.call] at hy; dsimp only at hy; split_ifs at hy <;> cases hy
  | fill | read => cases hy

theorem Pong.After.write_eq {out ts : List UInt8} {p : Pong} {next : Ping ⊕ Pong}
    (h : p.After n r inp out) (hy : prog .right (.inr p) = .write ts next) :
    ts.length = n ∧ inp = out ++ ts ∧ ∃ j < r, out.length = j * n := by
  cases h with
  | @pong calls => cases calls <;> cases hy
  | @write calls j buffer hj hb hlen hinp => cases hy; exact ⟨hb, hinp, j, by omega, hlen⟩

theorem Pong.After.read_eq {out : List UInt8} {p : Pong} {size : ℕ}
    {next : List UInt8 → Ping ⊕ Pong} (h : p.After n r inp out)
    (hy : prog .right (.inr p) = .read size next) :
    size = n ∧ out = inp ∧ ∃ j < r, inp.length = j * n := by
  cases h with
  | @pong calls j buffer hj hb hinp hout =>
    cases calls with
    | zero => cases hy
    | succ calls => cases hy; exact ⟨hb, hout, j, by omega, hinp⟩
  | write => cases hy

theorem Pong.After.stop_eq {out : List UInt8} {p : Pong} (h : p.After n r inp out)
    (hy : prog .right (.inr p) = .stop) : p.pc = .pong 0 ∧ out = inp ∧ inp.length = r * n := by
  cases h with
  | @pong calls j buffer hj hb hinp hout =>
    cases calls with
    | zero => obtain rfl : j = r := hj; exact ⟨rfl, hout, hinp⟩
    | succ calls => cases hy
  | write => cases hy

/-- **What `Ping` has sent** is its data, several times. -/
theorem ping_sent (h : At (prog .left) (.inl (.new n r)) inp p) : p.sent <+: pings n r := by
  obtain ⟨before, out, hran, -, hsent⟩ := h.exists_ran
  obtain ⟨y, hy, hafter⟩ := ping_ran hran
  rcases hsent with hsent | ⟨done, rest, next, hwrite, hsent⟩
  · exact hsent ▸ hafter.out_le
  · rw [hy] at hwrite
    obtain ⟨hts, j, hj, rfl, -⟩ := hafter.write_eq hwrite
    calc p.sent
        _ = pings n j ++ done := hsent
        _ <+: pings n j ++ (done ++ rest) :=
          (List.prefix_append_right_inj _).2 (List.prefix_append ..)
        _ = pings n (j + 1) := by rw [hts, pings_succ]
        _ <+: pings n r := pings_le hj

/-- **What `Pong` has sent** is what it has taken. -/
theorem pong_sent (h : At (prog .right) (.inr (.new n r)) inp p) :
    p.sent <+: inp.take p.taken := by
  obtain ⟨before, out, hran, hbefore, hsent⟩ := h.exists_ran
  obtain ⟨y, hy, hafter⟩ := pong_ran hran
  refine List.IsPrefix.trans ?_ hbefore
  rcases hsent with hsent | ⟨done, rest, next, hwrite, hsent⟩
  · rw [hsent]
    cases hafter with
    | pong hj hb hinp hout => exact hout ▸ List.prefix_refl _
    | write hj hb hlen hinp => exact hinp ▸ List.prefix_append ..
  · rw [hy] at hwrite
    obtain ⟨-, rfl, -⟩ := hafter.write_eq hwrite
    rw [hsent]
    exact (List.prefix_append_right_inj _).2 (List.prefix_append ..)

end

section
variable {ping pong : Args} {cap : ℕ} {t t' : Duplex.State UInt8 (Ping ⊕ Pong)}

/-- The echo is what `Ping` expects. -/
theorem received_le (h : Duplex.Placed cap prog (programs ping pong) t) :
    (t .right).sent <+: pings ping.dataSize ping.calls := by
  have htake := List.take_prefix (t .right).taken (t .left).sent
  exact (pong_sent (h.2 .right)).trans (htake.trans (ping_sent (h.2 .left)))

/-- `Ping` does not find anything else. -/
theorem ping_state (h : Duplex.Placed cap prog (programs ping pong) t) :
    ∃ p : Ping, (t .left).pos.state = .inl p ∧ ∀ what, p.pc ≠ .threw what := by
  obtain ⟨before, out, hran, hbefore, -⟩ := (h.2 .left).exists_ran
  obtain ⟨p, hp, hafter⟩ := ping_ran hran
  have htake := List.take_prefix (t .left).taken (t .right).sent
  exact ⟨p, hp, hafter.not_threw (hbefore.trans (htake.trans (received_le h)))⟩

end

/-- **A `Ping` reads what it has written**, whatever the sizes, the numbers of calls, the
    capacity of the socket, the order of the steps and the failures are. -/
theorem ping_never_throws (kind : Socket.Kind) (capacity : ℕ) (ping pong : Args)
    (as : List SocketPrograms.Act) : AllStates (SocketPrograms.step kind capacity prog)
      (fun s => ∃ p : Ping, (s.ends .left).pos.state = .inl p ∧ ∀ what, p.pc ≠ .threw what)
      (begins ping pong) as := by
  refine allStates_of_run (fun as s hr => ?_) as
  obtain ⟨bs, t, hbs, ht⟩ := SocketPrograms.simulates_run (SocketPrograms.rel_start capacity _) hr
  rw [(ht.ends .left).state]
  exact ping_state (Duplex.placed_of_run hbs)

/-! ## How far the two are -/

section
variable {n r : ℕ} {inp : List UInt8} {p : Duplex.End UInt8 (Ping ⊕ Pong)}

theorem ping_writing (h : At (prog .left) (.inl (.new n r)) inp p) (hle : p.taken ≤ inp.length)
    {y next : Ping ⊕ Pong} {rest : List UInt8} (hpos : p.pos = .writing y rest next) :
    ∃ j < r, p.taken = j * n ∧ p.sent.length < (j + 1) * n := by
  cases h with
  | between | reading => cases hpos
  | @writing y next out done rest threw taken hran hy hrest =>
    dsimp only at hle ⊢
    obtain ⟨p, rfl, hafter⟩ := ping_ran hran
    obtain ⟨hts, j, hj, rfl, htaken⟩ := hafter.write_eq hy
    rw [List.length_take, min_eq_left hle] at htaken
    refine ⟨j, hj, htaken, ?_⟩
    have hlen := congrArg List.length hts
    rw [length_pattern, List.length_append] at hlen
    have hpos := List.length_pos_iff.2 hrest
    rw [List.length_append, length_pings, Nat.succ_mul]
    omega

theorem ping_reading (h : At (prog .left) (.inl (.new n r)) inp p) (hle : p.taken ≤ inp.length)
    {y : Ping ⊕ Pong} {got : List UInt8} {left : ℕ} {next : List UInt8 → Ping ⊕ Pong}
    (hpos : p.pos = .reading y got left next) :
    ∃ j < r, p.sent.length = (j + 1) * n ∧ j * n ≤ p.taken ∧ p.taken < (j + 1) * n := by
  cases h with
  | between | writing => cases hpos
  | @reading y before got sent left next threw taken hran hy hleft hinp =>
    dsimp only at hle ⊢
    obtain ⟨p, rfl, hafter⟩ := ping_ran hran
    obtain ⟨hsize, j, hj, rfl, htaken⟩ := hafter.read_eq hy
    have hlen := congrArg List.length hinp
    rw [List.length_take, min_eq_left hle, List.length_append] at hlen
    refine ⟨j, hj, length_pings .., ?_⟩
    rw [Nat.succ_mul]
    omega

theorem ping_stop (h : At (prog .left) (.inl (.new n r)) inp p) (hle : p.taken ≤ inp.length)
    (hinp : inp <+: pings n r) {y : Ping ⊕ Pong} (hpos : p.pos = .between y)
    (hy : prog .left y = .stop) : (∃ q : Ping, y = .inl q ∧ q.pc = .ping 0) ∧
      p.sent.length = r * n ∧ p.taken = r * n := by
  cases h with
  | writing | reading => cases hpos
  | @between y threw sent taken hran =>
    cases hpos
    dsimp only at hle ⊢
    obtain ⟨p, rfl, hafter⟩ := ping_ran hran
    rcases hafter.stop_eq hy with ⟨hpc, rfl, htaken⟩ | ⟨what, hpc⟩
    · rw [List.length_take, min_eq_left hle] at htaken
      exact ⟨⟨p, rfl, hpc⟩, length_pings .., htaken⟩
    · have htake := List.take_prefix taken inp
      exact absurd hpc (hafter.not_threw (htake.trans hinp) what)

theorem pong_writing (h : At (prog .right) (.inr (.new n r)) inp p) (hle : p.taken ≤ inp.length)
    {y next : Ping ⊕ Pong} {rest : List UInt8} (hpos : p.pos = .writing y rest next) :
    ∃ j < r, p.taken = (j + 1) * n ∧ j * n ≤ p.sent.length ∧ p.sent.length < (j + 1) * n := by
  cases h with
  | between | reading => cases hpos
  | @writing y next out done rest threw taken hran hy hrest =>
    dsimp only at hle ⊢
    obtain ⟨p, rfl, hafter⟩ := pong_ran hran
    obtain ⟨hts, hinp, j, hj, hout⟩ := hafter.write_eq hy
    have hlen := congrArg List.length hinp
    rw [List.length_take, min_eq_left hle, List.length_append, hts] at hlen
    rw [List.length_append] at hts
    have hpos := List.length_pos_iff.2 hrest
    refine ⟨j, hj, ?_⟩
    rw [Nat.succ_mul, List.length_append]
    omega

theorem pong_reading (h : At (prog .right) (.inr (.new n r)) inp p) (hle : p.taken ≤ inp.length)
    {y : Ping ⊕ Pong} {got : List UInt8} {left : ℕ} {next : List UInt8 → Ping ⊕ Pong}
    (hpos : p.pos = .reading y got left next) :
    ∃ j < r, p.sent.length = j * n ∧ j * n ≤ p.taken ∧ p.taken < (j + 1) * n := by
  cases h with
  | between | writing => cases hpos
  | @reading y before got sent left next threw taken hran hy hleft hinp =>
    dsimp only at hle ⊢
    obtain ⟨p, rfl, hafter⟩ := pong_ran hran
    obtain ⟨hsize, rfl, j, hj, hsent⟩ := hafter.read_eq hy
    have hlen := congrArg List.length hinp
    rw [List.length_take, min_eq_left hle, List.length_append] at hlen
    refine ⟨j, hj, hsent, ?_⟩
    rw [Nat.succ_mul]
    omega

theorem pong_stop (h : At (prog .right) (.inr (.new n r)) inp p) (hle : p.taken ≤ inp.length)
    {y : Ping ⊕ Pong} (hpos : p.pos = .between y) (hy : prog .right y = .stop) :
    (∃ q : Pong, y = .inr q ∧ q.pc = .pong 0) ∧ p.sent.length = r * n ∧ p.taken = r * n := by
  cases h with
  | writing | reading => cases hpos
  | between hran =>
    cases hpos
    dsimp only at hle ⊢
    obtain ⟨p, rfl, hafter⟩ := pong_ran hran
    obtain ⟨hpc, rfl, htaken⟩ := hafter.stop_eq hy
    have hsent := htaken
    rw [List.length_take, min_eq_left hle] at htaken
    exact ⟨⟨p, rfl, hpc⟩, hsent, htaken⟩

/-- `Pong` is never further ahead with one than with the other by more than a call. -/
theorem pong_rounds (h : At (prog .right) (.inr (.new n r)) inp p) (hle : p.taken ≤ inp.length) :
    (∃ j, j * n ≤ p.sent.length ∧ p.taken ≤ (j + 1) * n) ∧
      ∃ j, p.sent.length ≤ j * n ∧ j * n ≤ p.taken := by
  cases hpos : p.pos with
  | writing y rest next =>
    obtain ⟨j, -, htaken, hge, hlt⟩ := pong_writing h hle hpos
    exact ⟨⟨j, hge, htaken.le⟩, j + 1, hlt.le, htaken.ge⟩
  | reading y got left next =>
    obtain ⟨j, -, hsent, hge, hlt⟩ := pong_reading h hle hpos
    exact ⟨⟨j, hsent.ge, hlt.le⟩, j, hsent.le, hge⟩
  | between y =>
    cases h with
    | writing | reading => cases hpos
    | @between y threw sent taken hran =>
      dsimp only at hle ⊢
      obtain ⟨p, rfl, hafter⟩ := pong_ran hran
      have hlen : (inp.take taken).length = taken := by rw [List.length_take, min_eq_left hle]
      cases hafter with
      | @pong calls j buffer hj hb hinp hout =>
        rw [hlen] at hinp
        rw [hout, hlen]
        exact ⟨⟨j, hinp.ge, by rw [hinp, Nat.succ_mul]; omega⟩, j, hinp.le, hinp.ge⟩
      | @write calls j buffer hj hb hout hinp =>
        have hlen' := congrArg List.length hinp
        rw [hlen, List.length_append, hout, hb] at hlen'
        exact ⟨⟨j, hout.ge, by rw [Nat.succ_mul]; exact hlen'.le⟩, j, hout.le, by omega⟩

end

/-! ## When all calls return -/

/-- `Pong` has not taken more than it can give back, as long as a call of `Ping` that fits has not
    all been written. -/
theorem rounds_le_of_full {n k cap j m sent : ℕ} (hdvd : k ∣ n) (hn : n ≤ k * (cap / k + 1) + cap)
    (hroom : (m + 1) * k + cap ≤ sent) (hsent : sent < (j + 1) * n) :
    (m + 1) * k ≤ j * n + cap := by
  obtain ⟨d, rfl⟩ := hdvd
  have hlt : (m + 1) * k < (j * d + (cap / k + 1)) * k :=
    calc (m + 1) * k
        _ < j * (k * d) + k * (cap / k + 1) := by rw [Nat.succ_mul] at hsent; omega
        _ = (j * d + (cap / k + 1)) * k := by ring
  calc (m + 1) * k
      _ ≤ (j * d + cap / k) * k :=
        Nat.mul_le_mul_right k (by have := Nat.lt_of_mul_lt_mul_right hlt; omega)
      _ = j * (k * d) + cap / k * k := by ring
      _ ≤ j * (k * d) + cap := Nat.add_le_add_left (Nat.div_mul_le_self cap k) _

/-- `Pong` reads whole calls, and `Ping` writes several of them at once. -/
theorem le_rounds_of_empty {n k j m : ℕ} (hdvd : k ∣ n) (hlt : (j + 1) * n < (m + 1) * k) :
    (j + 1) * n ≤ m * k := by
  obtain ⟨d, rfl⟩ := hdvd
  have heq : (j + 1) * (k * d) = (j + 1) * d * k := by ring
  rw [heq] at hlt ⊢
  exact Nat.mul_le_mul_right k (Nat.le_of_lt_succ (Nat.lt_of_mul_lt_mul_right hlt))

section
variable {ping pong : Args} {cap : ℕ} {t t' : Duplex.State UInt8 (Ping ⊕ Pong)}

/-- The two make calls for the same number of bytes, and if there are any, `Pong` takes those of a
    call of `Ping` from it in time. -/
def Fit (ping pong : Args) (capacity : ℕ) : Prop :=
  pong.calls * pong.dataSize = ping.calls * ping.dataSize ∧
    (ping.calls * ping.dataSize = 0 ∨ 0 < capacity ∧ pong.dataSize ∣ ping.dataSize ∧
      ping.dataSize ≤ pong.dataSize * (capacity / pong.dataSize + 1) + capacity)

/-- Both programs have stopped. -/
def Stopped (t : Duplex.State UInt8 (Ping ⊕ Pong)) : Prop :=
  (∃ p : Ping, (t .left).pos = .between (.inl p) ∧ p.pc = .ping 0) ∧
    ∃ p : Pong, (t .right).pos = .between (.inr p) ∧ p.pc = .pong 0

theorem not_stuck (hfit : Fit ping pong cap) (h : Duplex.Placed cap prog (programs ping pong) t)
    (hleft : Duplex.End.Stuck cap (prog .left) (t .left) (t .right))
    (hright : Duplex.End.Stuck cap (prog .right) (t .right) (t .left)) : Stopped t := by
  obtain ⟨hcalls, hfit⟩ := hfit
  have hl : (t .right).taken ≤ (t .left).sent.length := (h.1 .left).1
  have hr : (t .left).taken ≤ (t .right).sent.length := (h.1 .right).1
  have hping := h.2 .left
  have hpong := h.2 .right
  have hle {j : ℕ} (hj : j < ping.calls) :
      (j + 1) * ping.dataSize ≤ ping.calls * ping.dataSize := Nat.mul_le_mul_right _ hj
  have hle' {j : ℕ} (hj : j < pong.calls) :
      (j + 1) * pong.dataSize ≤ pong.calls * pong.dataSize := Nat.mul_le_mul_right _ hj
  cases hleft with
  | stop hpos hy =>
    obtain ⟨⟨p, rfl, hp⟩, hsent, htaken⟩ := ping_stop hping hr (received_le h) hpos hy
    cases hright with
    | stop hpos' hy' =>
      obtain ⟨⟨q, rfl, hq⟩, -⟩ := pong_stop hpong hl hpos' hy'
      exact ⟨⟨p, hpos, hp⟩, q, hpos', hq⟩
    -- all of the bytes are there
    | full hpos' hfull =>
      obtain ⟨m, hm, -, -, hlt⟩ := pong_writing hpong hl hpos'
      have := hle' hm
      omega
    | empty hpos' hempty =>
      obtain ⟨m, hm, -, -, hlt⟩ := pong_reading hpong hl hpos'
      have := hle' hm
      omega
  | full hpos hfull =>
    obtain ⟨j, hj, htaken, hlt⟩ := ping_writing hping hr hpos
    have hj' := hle hj
    obtain ⟨hcap, hdvd, hsize⟩ := hfit.resolve_left (by omega)
    rw [Duplex.length_stream] at hfull
    cases hright with
    | stop hpos' hy' =>
      obtain ⟨-, -, htaken'⟩ := pong_stop hpong hl hpos' hy'
      omega
    | full hpos' hfull' =>
      -- both wait for room
      obtain ⟨m, hm, htaken', -, hlt'⟩ := pong_writing hpong hl hpos'
      rw [Duplex.length_stream] at hfull'
      have := rounds_le_of_full (m := m) hdvd hsize (by omega) hlt
      omega
    | empty hpos' hempty => omega
  | empty hpos hempty =>
    obtain ⟨j, hj, hsent, hge, hlt⟩ := ping_reading hping hr hpos
    have hj' := hle hj
    obtain ⟨hcap, hdvd, hsize⟩ := hfit.resolve_left (by omega)
    cases hright with
    | stop hpos' hy' =>
      obtain ⟨-, hsent', -⟩ := pong_stop hpong hl hpos' hy'
      omega
    | full hpos' hfull =>
      rw [Duplex.length_stream] at hfull
      omega
    | empty hpos' hempty' =>
      -- both wait for bytes
      obtain ⟨m, hm, hsent', hge', hlt'⟩ := pong_reading hpong hl hpos'
      have := le_rounds_of_empty (j := j) (m := m) hdvd (by omega)
      omega

theorem stopped_or_advance (hfit : Fit ping pong cap)
    (h : Duplex.Placed cap prog (programs ping pong) t) (hthrew : ∀ e, (t e).threw = false) :
    Stopped t ∨ ∃ e t', Duplex.advance cap prog t e = some t' := by
  by_cases hgo : ∃ e t', Duplex.advance cap prog t e = some t'
  · exact Or.inr hgo
  · have hstuck (e : Side) : Duplex.End.Stuck cap (prog e) (t e) (t e.other) := by
      refine (h.2 e).stuck (hthrew e) ?_
      by_contra hsome
      obtain ⟨p, hp⟩ := Option.ne_none_iff_exists'.1 hsome
      exact hgo ⟨e, _, by rw [Duplex.advance, hp]; rfl⟩
    exact Or.inl (not_stuck hfit h (hstuck .left) (hstuck .right))

end

/-- The steps that a program takes at most. -/
def weight : Ping ⊕ Pong → ℕ
  | .inl p =>
    match p.pc with
    | .ping calls => calls * (p.data.length + p.buffer.length + 4)
    | .fill calls => calls * (p.data.length + p.buffer.length + 4) + p.buffer.length + 3
    | .read calls => calls * (p.data.length + p.buffer.length + 4) + p.buffer.length + 2
    | .compare calls => calls * (p.data.length + p.buffer.length + 4) + 1
    | .threw _ => 0
  | .inr p =>
    match p.pc with
    | .pong calls => calls * (2 * p.buffer.length + 2)
    | .write calls => calls * (2 * p.buffer.length + 2) + p.buffer.length + 1

theorem lowers (e : Side) : Lowers (prog e) weight := by
  rintro (⟨pc, data, buffer⟩ | ⟨pc, buffer⟩)
  · cases pc with
    | ping calls =>
      cases calls with
      | zero => trivial
      | succ calls =>
        simp only [prog, Ping.call, Call.map, weight, Nat.succ_mul]
        omega
    | fill calls =>
      simp only [prog, Ping.call, Call.map, weight, List.length_map]
      omega
    | read calls =>
      simp only [prog, Ping.call, Call.map, weight]
      refine ⟨by omega, fun ts hts => ?_⟩
      rw [hts]
      omega
    | compare calls =>
      simp only [prog, Ping.call]
      split_ifs
      · simp only [Call.map, weight]; omega
      · simp only [Call.map, weight]; omega
    | threw what => trivial
  · cases pc with
    | pong calls =>
      cases calls with
      | zero => trivial
      | succ calls =>
        simp only [prog, Pong.call, Call.map, weight, Nat.succ_mul]
        refine ⟨by omega, fun ts hts => ?_⟩
        rw [hts]
        omega
    | write calls =>
      simp only [prog, Pong.call, Call.map, weight]
      omega

section
variable {ping pong : Args} {cap : ℕ} {t t' : Duplex.State UInt8 (Ping ⊕ Pong)}

/-- What `Ping` has received so far tells how the two fit. -/
structure Tells (ping pong : Args) (cap : ℕ) (t : Duplex.State UInt8 (Ping ⊕ Pong)) : Prop where
  room : ∀ e, 0 < (t e).sent.length → 0 < cap
  size : 0 < (t .left).taken →
    ping.dataSize ≤ pong.dataSize * (cap / pong.dataSize + 1) + cap
  dvd : 0 < (t .left).taken → ping.dataSize ≤ (t .left).taken → pong.dataSize ∣ ping.dataSize

theorem tells_congr (h : Tells ping pong cap t) (hsent : ∀ e, (t' e).sent = (t e).sent)
    (htaken : (t' .left).taken = (t .left).taken) : Tells ping pong cap t' where
  room e := by rw [hsent]; exact h.room e
  size := by rw [htaken]; exact h.size
  dvd := by rw [htaken]; exact h.dvd

/-- In the first call of `Ping`, when its data is sent. -/
theorem size_le (h : Duplex.Placed cap prog (programs ping pong) t)
    (hsent : (t .left).sent.length = ping.dataSize) (htaken : (t .left).taken = 0) :
    ping.dataSize ≤ pong.dataSize * (cap / pong.dataSize + 1) + cap := by
  obtain ⟨hl, hl'⟩ : (t .right).taken ≤ (t .left).sent.length ∧
      (t .left).sent.length ≤ (t .right).taken + cap := h.1 .left
  have hr : (t .right).sent.length ≤ (t .left).taken + cap := (h.1 .right).2
  obtain ⟨⟨m, hm, hle⟩, -⟩ := pong_rounds (h.2 .right) hl
  rcases Nat.eq_zero_or_pos pong.dataSize with hk | hk
  · rw [hk] at hle ⊢
    omega
  · have hround : m ≤ cap / pong.dataSize := (Nat.le_div_iff_mul_le hk).2 (by omega)
    have := Nat.mul_le_mul_right pong.dataSize (Nat.add_le_add_right hround 1)
    rw [Nat.mul_comm pong.dataSize]
    omega

/-- In the first call of `Ping`, when its last byte comes back. -/
theorem dvd_of_received (h : Duplex.Placed cap prog (programs ping pong) t)
    (hsent : (t .left).sent.length = ping.dataSize)
    (hlt : ping.dataSize ≤ (t .right).sent.length) : pong.dataSize ∣ ping.dataSize := by
  have hl : (t .right).taken ≤ (t .left).sent.length := (h.1 .left).1
  obtain ⟨-, m, hm, hle⟩ := pong_rounds (h.2 .right) hl
  exact ⟨m, by rw [Nat.mul_comm]; omega⟩

/-- `Ping` receives a byte. -/
theorem Tells.received (hp : Duplex.Placed cap prog (programs ping pong) t)
    (h : Tells ping pong cap t) {y : Ping ⊕ Pong} {got : List UInt8} {left : ℕ}
    {next : List UInt8 → Ping ⊕ Pong} (hpos : (t .left).pos = .reading y got left next)
    (hlt : (t .left).taken < (t .right).sent.length) :
    ping.dataSize ≤ pong.dataSize * (cap / pong.dataSize + 1) + cap ∧
      (ping.dataSize ≤ (t .left).taken + 1 → pong.dataSize ∣ ping.dataSize) := by
  obtain ⟨j, hj, hsent, hge, hlt'⟩ := ping_reading (hp.2 .left) hlt.le hpos
  have hn : 0 < ping.dataSize := Nat.pos_of_mul_pos_left ((Nat.zero_le _).trans_lt hlt')
  -- as long as not all of the first call has come back
  have hfirst (hlt : (t .left).taken < ping.dataSize) :
      (t .left).sent.length = ping.dataSize := by
    obtain rfl : j = 0 := by
      by_contra hne
      have := Nat.le_mul_of_pos_left ping.dataSize (Nat.pos_of_ne_zero hne)
      omega
    rw [hsent, Nat.zero_add, Nat.one_mul]
  refine ⟨?_, fun hle => ?_⟩
  · rcases Nat.eq_zero_or_pos (t .left).taken with hzero | hpos
    · exact size_le hp (hfirst (by omega)) hzero
    · exact h.size hpos
  · rcases Nat.lt_or_ge (t .left).taken ping.dataSize with hlt | hge
    · exact dvd_of_received hp (hfirst hlt) (by omega)
    · exact h.dvd (by omega) hge

theorem Tells.step {a : Duplex.Act} (hp : Duplex.Placed cap prog (programs ping pong) t)
    (h : Tells ping pong cap t) (hs : Duplex.step cap prog t a = some t') :
    Tells ping pong cap t' := by
  cases a with
  | throw e =>
    cases hs
    refine tells_congr h (fun e' => ?_) (by cases e <;> rfl)
    rcases eq_or_ne e' e with rfl | he
    · rw [Function.update_self]; rfl
    · rw [Function.update_of_ne he]
  | go e =>
    obtain ⟨p, hadv, rfl⟩ := Duplex.advance_eq_some hs
    cases (Duplex.End.advance_cases hadv).2 with
    | call =>
      refine tells_congr h (fun e' => ?_) (by cases e <;> rfl)
      rcases eq_or_ne e' e with rfl | he
      · rw [Function.update_self]
      · rw [Function.update_of_ne he]
    | write hpos hroom =>
      refine ⟨fun _ _ => by omega, ?_, ?_⟩
      · cases e <;> exact h.size
      · cases e <;> exact h.dvd
    | read hpos ht =>
      refine ⟨fun e' => ?_, ?_, ?_⟩
      · rcases eq_or_ne e' e with rfl | he
        · rw [Function.update_self]; exact h.room e'
        · rw [Function.update_of_ne he]; exact h.room e'
      · cases e with
        | right => exact h.size
        | left =>
          exact fun _ => (h.received hp hpos (List.getElem?_eq_some_iff.1 ht).1).1
      · cases e with
        | right => exact h.dvd
        | left =>
          exact fun _ => (h.received hp hpos (List.getElem?_eq_some_iff.1 ht).1).2

/-- Where both have stopped, they fit. -/
theorem fit_of_stopped (hp : Duplex.Placed cap prog (programs ping pong) t)
    (h : Tells ping pong cap t) (hs : Stopped t) : Fit ping pong cap := by
  obtain ⟨⟨p, hleft, hpc⟩, q, hright, hqc⟩ := hs
  have hl : (t .right).taken ≤ (t .left).sent.length := (hp.1 .left).1
  have hr : (t .left).taken ≤ (t .right).sent.length := (hp.1 .right).1
  obtain ⟨-, hsent, htaken⟩ := ping_stop (hp.2 .left) hr (received_le hp) hleft
    (by rw [prog, Ping.call, hpc]; rfl)
  obtain ⟨-, hsent', htaken'⟩ := pong_stop (hp.2 .right) hl hright
    (by rw [prog, Pong.call, hqc]; rfl)
  refine ⟨by omega, ?_⟩
  rcases Nat.eq_zero_or_pos (ping.calls * ping.dataSize) with hzero | hpos
  · exact Or.inl hzero
  · have hle := Nat.le_mul_of_pos_left ping.dataSize (Nat.pos_of_mul_pos_right hpos)
    exact Or.inr ⟨h.room .left (by omega), h.dvd (by omega) (by omega), h.size (by omega)⟩

end

/-- **All calls return** in every run in which nothing fails, if and only if the two ends fit. -/
theorem pings_return_iff (kind : Socket.Kind) (capacity : ℕ) (ping pong : Args) :
    (∃ n, ∀ as s, (∀ a ∈ as, a.moves = true) →
      run (SocketPrograms.step kind capacity prog) (begins ping pong) as = some s →
      as.length ≤ n ∧ ∃ bs s', (∀ b ∈ bs, b.moves = true) ∧
        run (SocketPrograms.step kind capacity prog) s bs = some s' ∧ Returned s') ↔
    Fit ping pong capacity := by
  constructor
  · rintro ⟨n, hn⟩
    obtain ⟨-, bs, s, -, hr, hleft, hright⟩ := hn [] _ (by simp) rfl
    obtain ⟨cs, t, hcs, ht⟩ := SocketPrograms.simulates_run (SocketPrograms.rel_start capacity _) hr
    have hinv : Duplex.Placed capacity prog (programs ping pong) t ∧
        Tells ping pong capacity t := by
      refine inv_of_run (D := fun _ => True)
        (I := fun t => Duplex.Placed capacity prog (programs ping pong) t ∧
          Tells ping pong capacity t)
        (fun _ _ _ hi _ hs => ⟨hi.1.step hs, hi.2.step hi.1 hs⟩)
        ⟨Duplex.placed_start .., ?_⟩ (fun _ _ => trivial) hcs
      exact ⟨fun _ h => absurd h (lt_irrefl 0), fun h => absurd h (lt_irrefl 0),
        fun h => absurd h (lt_irrefl 0)⟩
    obtain ⟨p, hp, hpc⟩ := hleft
    obtain ⟨q, hq, hqc⟩ := hright
    have hpos := (hp ▸ ht.ends .left).pos rfl
    have hpos' := (hq ▸ ht.ends .right).pos rfl
    exact fit_of_stopped hinv.1 hinv.2 ⟨⟨p, hpos.of_between, hpc⟩, q, hpos'.of_between, hqc⟩
  · intro hfit
    let first : Duplex.State UInt8 (Ping ⊕ Pong) := Duplex.start (programs ping pong)
    let I (t : Duplex.State UInt8 (Ping ⊕ Pong)) : Prop :=
      Duplex.Placed capacity prog (programs ping pong) t ∧ ∀ e, (t e).threw = false
    have hfirst : I first := ⟨Duplex.placed_start .., fun _ => rfl⟩
    have hstep (t e t') (hi : I t) (hs : Duplex.advance capacity prog t e = some t') :
        I t' ∧ t'.weight weight < t.weight weight :=
      ⟨⟨hi.1.step (a := .go e) hs, Duplex.threw_of_advance hi.2 hs⟩,
        Duplex.weight_lt lowers hi.1 hs⟩
    refine ⟨first.weight weight, fun as s has hr => ?_⟩
    obtain ⟨hle, bs, s', t, hbs, hr', ht, hi, ⟨p, hleft, hp⟩, q, hright, hq⟩ :=
      SocketPrograms.finishes_of_progress kind Stopped I (Duplex.State.weight weight) hstep
        (fun t hi => stopped_or_advance hfit hi.1 hi.2) hfirst has hr
    exact ⟨hle, bs, s', hbs, hr', ⟨p, (ht.ends .left).of_between hleft (hi.2 .left), hp⟩,
      q, (ht.ends .right).of_between hright (hi.2 .right), hq⟩

/-- The two that the tests run. -/
example (capacity : ℕ) (h : 0 < capacity) (dataSize calls : ℕ) :
    Fit ⟨dataSize, calls⟩ ⟨dataSize, calls⟩ capacity := by
  refine ⟨rfl, Or.inr ⟨h, dvd_rfl, ?_⟩⟩
  rw [Nat.mul_succ]
  omega

end PingPong

end L5RDMA
