/-
  Two programs at the ends of a socket connection do what they do when the
  tokens of `Lib.Duplex` are the bytes, one at a time.

  * `Rel s t`: the program is at the same point in both;
  * `simulates`: what a step does here is a number of steps there;
  * `lifts`: each step there is a step here, in which the kernel moves one byte.
-/
import L5RDMA.SocketPrograms
import L5RDMA.Proof.Sockets
import L5RDMA.Lib.Ending
import L5RDMA.Lib.Script

namespace L5RDMA

namespace SocketPrograms

open Run
open Duplex (Side Call Op Script scripts puts asks exec Pair Reaches Completes Stands
  Follows After firstPuts pair_of_run completes_of_run)
open Socket

variable {ρ : Type}

/-- The call of `read` into an object of `size` bytes. -/
def objectCall (size : ℕ) : ReadCall := ⟨0, size, fun _ => 0⟩

/-- The program is at the same point of the same call. -/
inductive RelPos : Pos ρ → Duplex.Pos UInt8 ρ → Prop
  | between (x : ρ) : RelPos (.between x) (.between x)
  | writing {x next : ρ} {w : Writer} {current : ℕ} (hw : Writing w current)
      (hlt : current < w.data.length) :
      RelPos (.writing x w next) (.writing x (w.data.drop current) next)
  | reading {x : ρ} {size : ℕ} {r : Reader} {got : List UInt8} {next : List UInt8 → ρ}
      (hr : Reading (objectCall size) got r got.length) (hlt : got.length < size) :
      RelPos (.reading x size r next) (.reading x got (size - got.length) next)

theorem RelPos.of_between {x : ρ} {q : Duplex.Pos UInt8 ρ} (h : RelPos (.between x) q) :
    q = .between x := by
  cases h; rfl

theorem RelPos.of_writing {x next : ρ} {w : Writer} {q : Duplex.Pos UInt8 ρ}
    (h : RelPos (.writing x w next) q) : ∃ current, Writing w current ∧ current < w.data.length ∧
      q = .writing x (w.data.drop current) next := by
  cases h with
  | writing hw hlt => exact ⟨_, hw, hlt, rfl⟩

theorem RelPos.of_reading {x : ρ} {size : ℕ} {r : Reader} {next : List UInt8 → ρ}
    {q : Duplex.Pos UInt8 ρ} (h : RelPos (.reading x size r next) q) :
    ∃ got, Reading (objectCall size) got r got.length ∧ got.length < size ∧
      q = .reading x got (size - got.length) next := by
  cases h with
  | reading hr hlt => exact ⟨_, hr, hlt, rfl⟩

structure RelEnd (p : End ρ) (q : Duplex.End UInt8 ρ) : Prop where
  threw : q.threw = p.threw.isSome
  state : p.pos.state = q.pos.state
  pos : p.threw = none → RelPos p.pos q.pos

/-- Between two calls. -/
theorem RelEnd.of_between {p : End ρ} {q : Duplex.End UInt8 ρ} {x : ρ} (h : RelEnd p q)
    (hpos : q.pos = .between x) (hthrew : q.threw = false) : p = ⟨.between x, none⟩ := by
  obtain ⟨pos, threw⟩ := p
  obtain rfl : threw = none := by simpa [hthrew] using h.threw
  have hrel := h.pos rfl
  rw [hpos] at hrel
  cases hrel
  rfl

structure Rel (capacity : ℕ) (s : State ρ) (t : Duplex.State UInt8 ρ) : Prop where
  ends : ∀ e, RelEnd (s.ends e) (t e)
  pending : ∀ e, (s.stream e).pending = (t e).stream (t e.other)
  open_ : ∀ e, (s.stream e).closed = false
  bounded : Duplex.Bounded capacity t

theorem rel_start (capacity : ℕ) (x : Side → ρ) : Rel capacity (start x) (Duplex.start x) where
  ends _ := ⟨rfl, rfl, fun _ => .between _⟩
  pending _ := rfl
  open_ _ := rfl
  bounded := Duplex.bounded_start capacity x

/-! ## One call -/

section
variable {x next : ρ} {w : Writer} {r : Reader} {q : Duplex.End UInt8 ρ}

theorem writing_data_eq {kind : Kind} {w w' : Writer} {bs : List UInt8} {n : ℕ}
    (hs : w.send kind (.count n) = some (bs, w')) (h : ∃ current, Writing w current) :
    w'.data = w.data ∧ bs.length = n := by
  obtain ⟨current, hw⟩ := h
  have hleft := hw.left
  rw [Writing] at hw
  rw [Writer.send] at hs
  cases hpc : w.pc with
  | returned => rw [hpc] at hs; cases hs
  | threw what => rw [hpc] at hs; cases hs
  | call c size =>
    obtain ⟨rfl, rfl, hpos⟩ := loop_eq_call (hw.symm.trans hpc)
    simp only [hpc] at hs
    split_ifs at hs with hmay
    cases hs
    refine ⟨rfl, ?_⟩
    rw [hleft, List.length_take, List.length_drop]
    exact min_eq_left hmay.2

theorem send_failed {kind : Kind} {w w' : Writer} {bs : List UInt8} {strerror : String}
    (h : w.send kind (.failed strerror) = some (bs, w')) :
    w'.pc = .threw ("Couldn't write to socket: " ++ strerror) ∧ bs = [] := by
  rw [Writer.send] at h
  cases hpc : w.pc with
  | returned => rw [hpc] at h; cases h
  | threw what => rw [hpc] at h; cases h
  | call current size =>
    simp only [hpc, Kind.write_eq] at h
    rw [if_pos (by exact trivial)] at h
    cases h
    exact ⟨rfl, rfl⟩

theorem recv_failed {kind : Kind} {st st' : Stream} {r' : Reader} {strerror : String}
    (h : r.recv kind st (.failed strerror) = some (st', r')) :
    r'.pc = .threw ("Couldn't read from socket: " ++ strerror) ∧ st' = st := by
  rw [Reader.recv] at h
  cases hpc : r.pc with
  | returned => rw [hpc] at h; cases h
  | threw what => rw [hpc] at h; cases h
  | call current size =>
    simp only [hpc, Kind.read_eq] at h
    rw [if_pos (by exact trivial)] at h
    cases h
    exact ⟨rfl, rfl⟩

theorem exists_send (kind : Kind) {current : ℕ} (hw : Writing w current)
    (hlt : current < w.data.length) : ∃ res, w.send kind (.count 1) = some res := by
  have hpc : w.pc = .call current (w.data.length - current) := by
    rw [hw, loop_pos (by omega)]
  have hmay : MaySend (w.data.length - current) (.count 1) := ⟨Nat.one_pos, by omega⟩
  rw [Writer.send, hpc]
  exact ⟨_, if_pos hmay⟩

theorem exists_recv (kind : Kind) {c : ReadCall} {bs : List UInt8} {current : ℕ} {st : Stream}
    (hr : Reading c bs r current) (hlt : current < c.size) (hpending : 0 < st.pending.length) :
    ∃ res, r.recv kind st (.count 1) = some res := by
  have hmay : st.MayRecv (c.size - current) (.count 1) :=
    Or.inl ⟨Nat.one_pos, by omega, hpending⟩
  rw [Reader.recv, hr.call hlt]
  exact ⟨_, if_pos hmay⟩

theorem exists_begin {call : Call UInt8 ρ} {pos : Duplex.Pos UInt8 ρ}
    (h : call.start x = some pos) : ∃ p, begin_ x call = some p := by
  cases call with
  | stop => cases h
  | _ => exact ⟨_, rfl⟩

theorem relEnd_inWrite {current : ℕ} (hw : Writing w current) (hle : current ≤ w.data.length)
    (hthrew : q.threw = false) (hpos : q.pos = .write x (w.data.drop current) next) :
    RelEnd (inWrite x w next) q := by
  rcases Nat.lt_or_ge current w.data.length with hlt | hge
  · have hpc : w.pc = .call current (w.data.length - current) := by
      rw [hw, loop_pos (by omega)]
    have hin : inWrite x w next = ⟨.writing x w next, none⟩ := by rw [inWrite, hpc]
    have hwriting : q.pos = .writing x (w.data.drop current) next := by
      rw [hpos, Duplex.Pos.write, if_neg]
      exact fun hnil => by rw [List.drop_eq_nil_iff] at hnil; omega
    rw [hin]
    exact ⟨hthrew, by rw [hwriting]; rfl, fun _ => by rw [hwriting]; exact .writing hw hlt⟩
  · have hpc : w.pc = .returned := by rw [hw, loop_returned_iff]; omega
    have hin : inWrite x w next = ⟨.between next, none⟩ := by rw [inWrite, hpc]
    rw [List.drop_of_length_le hge, Duplex.Pos.write_nil] at hpos
    rw [hin]
    exact ⟨hthrew, by rw [hpos]; rfl, fun _ => by rw [hpos]; exact .between next⟩

theorem relEnd_inRead {size : ℕ} {got : List UInt8} {next : List UInt8 → ρ}
    (hr : Reading (objectCall size) got r got.length) (hthrew : q.threw = false)
    (hpos : q.pos = .read x got (size - got.length) next) :
    RelEnd (inRead x size r next) q := by
  have hle : got.length ≤ size := hr.le
  rcases Nat.lt_or_ge got.length size with hlt | hge
  · have hpc : r.pc = .call got.length (size - got.length) := hr.call hlt
    have hin : inRead x size r next = ⟨.reading x size r next, none⟩ := by rw [inRead, hpc]
    have hreading : q.pos = .reading x got (size - got.length) next := by
      rw [hpos, Duplex.Pos.read, if_neg (by omega)]
    rw [hin]
    exact ⟨hthrew, by rw [hreading]; rfl, fun _ => by rw [hreading]; exact .reading hr hlt⟩
  · obtain rfl : size = got.length := by omega
    have hpc : r.pc = .returned := by
      rw [hr.pc, loop_returned_iff]
      exact Nat.sub_self _
    have hread : Mem.read id r.mem 0 got.length = got :=
      hr.filled.read.trans (List.take_length ..)
    have hin : inRead x got.length r next = ⟨.between (next got), none⟩ := by
      rw [inRead, hpc]; dsimp only; rw [hread]
    rw [Nat.sub_self, Duplex.Pos.read_zero] at hpos
    rw [hin]
    exact ⟨hthrew, by rw [hpos]; rfl, fun _ => by rw [hpos]; exact .between _⟩

/-- Only the bytes that have been stored matter. -/
theorem reading_congr {c : ReadCall} {bs cs : List UInt8} {k : ℕ} (h : Reading c bs r k)
    (hle : k ≤ cs.length) (heq : bs.take k = cs.take k) : Reading c cs r k :=
  ⟨h.pc, h.le, hle, h.buffer, by rw [h.mem, heq]⟩

theorem relEnd_begin {call : Call UInt8 ρ} {p : End ρ} (h : begin_ x call = some p)
    (hthrew : q.threw = false) :
    ∃ pos, call.start x = some pos ∧ RelEnd p { q with pos := pos } := by
  cases call with
  | write data next =>
    cases h
    have hw : Writing (.start data) 0 := rfl
    exact ⟨_, rfl, relEnd_inWrite hw (Nat.zero_le _) hthrew rfl⟩
  | read size next =>
    cases h
    have hr : Reading (objectCall size) [] _ ([] : List UInt8).length :=
      Reading.start (objectCall size) []
    exact ⟨_, rfl, relEnd_inRead hr hthrew rfl⟩
  | change next => cases h; exact ⟨_, rfl, hthrew, rfl, fun _ => .between _⟩
  | stop => cases h

end

/-! ## Steps -/

section
variable {kind : Kind} {capacity : ℕ} {prog : Side → ρ → Call UInt8 ρ} {s s' : State ρ}
  {t : Duplex.State UInt8 ρ} {e : Side}

/-- A change of an end that moves no bytes. -/
theorem Rel.setEnd (h : Rel capacity s t) {p : End ρ} {q : Duplex.End UInt8 ρ} (hp : RelEnd p q)
    (hsent : q.sent = (t e).sent) (htaken : q.taken = (t e).taken) :
    Rel capacity (s.setEnd e p) (Function.update t e q) where
  ends e' := by
    rcases eq_or_ne e' e with rfl | he
    · simpa [State.setEnd] using hp
    · simpa [State.setEnd, he] using h.ends e'
  pending e' := by
    rw [State.setEnd, h.pending]
    cases e <;> cases e' <;>
      simp [Duplex.End.stream, Side.other, hsent, htaken]
  open_ := h.open_
  bounded := h.bounded.update (fun _ _ => .stop) (Or.inl ⟨hsent, htaken⟩)

/-- The end sends `bs`. -/
theorem Rel.sent (h : Rel capacity s t) {p : End ρ} {q : Duplex.End UInt8 ρ} {bs : List UInt8}
    (hp : RelEnd p q) (hsent : q.sent = (t e).sent ++ bs) (htaken : q.taken = (t e).taken)
    (hb : Duplex.Bounded capacity (Function.update t e q)) :
    Rel capacity
      { s.setEnd e p with
        stream := Function.update s.stream e
          { s.stream e with pending := (s.stream e).pending ++ bs } }
      (Function.update t e q) where
  ends e' := by
    rcases eq_or_ne e' e with rfl | he
    · simpa [State.setEnd] using hp
    · simpa [State.setEnd, he] using h.ends e'
  pending e' := by
    rcases eq_or_ne e' e with rfl | he
    · have hle := (h.bounded e').1
      simp only [Function.update_self, Function.update_of_ne (Side.other_ne e'), h.pending,
        Duplex.End.stream, hsent, List.drop_append_of_le_length hle]
    · obtain rfl := Side.eq_other (Ne.symm he)
      simp only [Function.update_of_ne (Side.other_ne e), Side.other_other, Function.update_self,
        h.pending, Duplex.End.stream, htaken]
  open_ e' := by
    rcases eq_or_ne e' e with rfl | he
    · simpa using h.open_ e'
    · simpa [he] using h.open_ e'
  bounded := hb

/-- The end takes the next `n` bytes. -/
theorem Rel.took (h : Rel capacity s t) {p : End ρ} {q : Duplex.End UInt8 ρ} {n : ℕ}
    (hp : RelEnd p q) (hsent : q.sent = (t e).sent) (htaken : q.taken = (t e).taken + n)
    (hb : Duplex.Bounded capacity (Function.update t e q)) :
    Rel capacity
      { s.setEnd e p with
        stream := Function.update s.stream e.other
          { s.stream e.other with pending := (s.stream e.other).pending.drop n } }
      (Function.update t e q) where
  ends e' := by
    rcases eq_or_ne e' e with rfl | he
    · simpa [State.setEnd] using hp
    · simpa [State.setEnd, he] using h.ends e'
  pending e' := by
    rcases eq_or_ne e' e with rfl | he
    · simp only [Function.update_self, Function.update_of_ne (Side.other_ne e'),
        Function.update_of_ne (Side.ne_other e'), h.pending, Duplex.End.stream, hsent]
    · obtain rfl := Side.eq_other (Ne.symm he)
      simp only [Function.update_of_ne (Side.other_ne e), Side.other_other, Function.update_self,
        h.pending, Duplex.End.stream, htaken, List.drop_drop]
  open_ e' := by
    rcases eq_or_ne e' e.other with rfl | he
    · simpa using h.open_ e.other
    · simpa [he] using h.open_ e'
  bounded := hb

theorem bounded_of_run {t' : Duplex.State UInt8 ρ} {es : List Side}
    (h : Duplex.Bounded capacity t) (hr : run (Duplex.advance capacity prog) t es = some t') :
    Duplex.Bounded capacity t' :=
  inv_of_run (D := fun _ => True) (fun _ _ _ hb _ hs => hb.advance hs) h (fun _ _ => trivial) hr

/-- The steps of `Lib.Duplex` that a step is: one for each byte that the kernel moves. -/
def Act.ends : Act → List Side
  | .call e => [e]
  | .send e (.count n) | .recv e (.count n) => List.replicate n e
  | .send _ (.failed _) | .recv _ (.failed _) | .throw _ _ => []

/-- The step `a` leads to the same point as `a.ends`, which are not none. -/
def Simulated (capacity : ℕ) (prog : Side → ρ → Call UInt8 ρ) (t : Duplex.State UInt8 ρ) (a : Act)
    (s' : State ρ) : Prop :=
  0 < a.ends.length ∧
    ∃ t', run (Duplex.advance capacity prog) t a.ends = some t' ∧ Rel capacity s' t'

theorem simulates_call (h : Rel capacity s t)
    (hs : step kind capacity prog s (.call e) = some s') :
    Simulated capacity prog t (.call e) s' := by
  simp only [step] at hs
  split at hs
  case h_2 => cases hs
  case h_1 x hend =>
    have he := h.ends e
    rw [hend] at he
    obtain ⟨p, hp, rfl⟩ := Option.map_eq_some_iff.1 hs
    obtain ⟨pos, hcall, hrel⟩ := relEnd_begin (q := t e) hp he.threw
    have hstep := Duplex.advance_of capacity prog he.threw
      (.call (he.pos rfl).of_between hcall)
    exact ⟨Nat.one_pos, _, by rw [Act.ends, run_cons hstep]; rfl, h.setEnd hrel rfl rfl⟩

theorem simulates_send {n : ℕ} (h : Rel capacity s t)
    (hs : step kind capacity prog s (.send e (.count n)) = some s') :
    Simulated capacity prog t (.send e (.count n)) s' := by
  simp only [step] at hs
  split at hs
  case h_2 => cases hs
  case h_1 x w next hend =>
    have he := h.ends e
    rw [hend] at he
    obtain ⟨current, hw, hlt, hpos⟩ := (he.pos rfl).of_writing
    split_ifs at hs with hroom
    obtain ⟨⟨bs, w'⟩, hsend, rfl⟩ := Option.map_eq_some_iff.1 hs
    obtain ⟨hdata, hlen⟩ := writing_data_eq hsend ⟨current, hw⟩
    obtain ⟨hw', hleft, hbs⟩ := hw.send hsend
    rw [hw.left, hw'.left, hdata] at hleft
    have hle : current + n ≤ w'.data.length := by
      have := congrArg List.length hleft
      rw [List.length_append, List.length_drop, List.length_drop] at this
      rw [hdata]
      omega
    have hsplit : (t e).pos = .write x (bs ++ w'.data.drop (current + n)) next := by
      rw [hpos, hdata, ← hleft, Duplex.Pos.write, if_neg]
      exact fun hnil => by rw [List.drop_eq_nil_iff] at hnil; omega
    have hrun := Duplex.run_write capacity prog he.threw hsplit
      (by rw [← h.pending, hlen]; exact hroom)
    rw [hlen] at hrun
    have hrel : RelEnd (inWrite x w' next) ((t e).wrote x bs (w'.data.drop (current + n)) next) :=
      relEnd_inWrite hw' hle he.threw rfl
    refine ⟨?_, _, hrun, h.sent hrel rfl rfl (bounded_of_run h.bounded hrun)⟩
    rw [Act.ends, List.length_replicate]
    omega

theorem simulates_recv {n : ℕ} (h : Rel capacity s t)
    (hs : step kind capacity prog s (.recv e (.count n)) = some s') :
    Simulated capacity prog t (.recv e (.count n)) s' := by
  simp only [step] at hs
  split at hs
  case h_2 => cases hs
  case h_1 x size r next hend =>
    have he := h.ends e
    rw [hend] at he
    obtain ⟨got, hr, hlt, hpos⟩ := (he.pos rfl).of_reading
    obtain ⟨⟨st, r'⟩, hrecv, rfl⟩ := Option.map_eq_some_iff.1 hs
    -- the call reads what it has got and what is on the way
    let inp := got ++ (s.stream e.other).pending
    have hr : Reading (objectCall size) inp r got.length :=
      reading_congr hr (by simp [inp]) (by simp [inp])
    have hinp : inp.drop got.length = (s.stream e.other).pending ++ [] := by simp [inp]
    obtain ⟨hr', hpending, -, hzero, hclosed⟩ := hr.recv hinp hrecv
    have hn : n ≠ 0 := by
      rintro rfl
      cases (h.open_ e.other).symm.trans (hzero rfl).1
    have hle : n ≤ (s.stream e.other).pending.length := by
      have := hr'.length
      rw [List.length_append] at this
      omega
    have hst : st = { s.stream e.other with pending := (s.stream e.other).pending.drop n } := by
      rw [List.append_nil, List.drop_length_add_append] at hpending
      cases st
      exact congrArg₂ Stream.mk hpending.symm hclosed
    -- the same bytes, one after the other
    obtain ⟨ts, hts⟩ : ∃ ts, ts = (s.stream e.other).pending.take n := ⟨_, rfl⟩
    have hlen : ts.length = n := by rw [hts, List.length_take, min_eq_left hle]
    have hsplit : (s.stream e.other).pending = ts ++ (s.stream e.other).pending.drop n := by
      rw [hts, List.take_append_drop]
    have hsize : got.length + n ≤ size := hr'.le
    have hgot : Reading (objectCall size) (got ++ ts) r' (got ++ ts).length := by
      rw [List.length_append, hlen]
      refine reading_congr hr' (by rw [List.length_append, hlen]) ?_
      rw [List.take_length_add_append, List.take_length_add_append, hts, List.take_take, min_self]
    have hread : (t e).pos = .read x got (ts.length + (size - (got ++ ts).length)) next := by
      rw [hpos, Duplex.Pos.read, if_neg (by rw [List.length_append]; omega)]
      congr 1
      rw [List.length_append]
      omega
    have hstream := h.pending e.other
    rw [Side.other_other, hsplit] at hstream
    have hrun := Duplex.run_read capacity prog he.threw hread hstream.symm
    refine ⟨?_, _, by rw [Act.ends, ← hlen]; exact hrun, ?_⟩
    · rw [Act.ends, List.length_replicate]; omega
    · rw [hst]
      exact h.took (relEnd_inRead hgot he.threw rfl) rfl (congrArg (_ + ·) hlen)
        (bounded_of_run h.bounded hrun)

theorem simulates {a : Act} (h : Rel capacity s t) (ha : a.moves = true)
    (hs : step kind capacity prog s a = some s') : Simulated capacity prog t a s' := by
  cases a with
  | call e => exact simulates_call h hs
  | send e res =>
    cases res with
    | count n => exact simulates_send h hs
    | failed strerror => cases ha
  | recv e res =>
    cases res with
    | count n => exact simulates_recv h hs
    | failed strerror => cases ha
  | throw e what => cases ha

/-- An end throws. -/
theorem Rel.threw (h : Rel capacity s t) {p : End ρ} (hthrew : p.threw.isSome = true)
    (hstate : p.pos.state = (s.ends e).pos.state) :
    Rel capacity (s.setEnd e p) (Function.update t e (t e).throw) :=
  h.setEnd ⟨hthrew.symm, hstate.trans (h.ends e).state, fun hnone => by simp [hnone] at hthrew⟩
    rfl rfl

theorem simulates_failure {a : Act} (h : Rel capacity s t) (ha : a.moves = false)
    (hs : step kind capacity prog s a = some s') :
    ∃ e t', Duplex.step capacity prog t (.throw e) = some t' ∧ Rel capacity s' t' := by
  cases a with
  | call e => cases ha
  | send e res =>
    cases res with
    | count n => cases ha
    | failed strerror =>
      simp only [step] at hs
      split at hs
      case h_2 => cases hs
      case h_1 x w next hend =>
        rw [if_pos (by exact trivial), Option.map_eq_some_iff] at hs
        obtain ⟨⟨bs, w'⟩, hsend, rfl⟩ := hs
        obtain ⟨hpc, rfl⟩ := send_failed hsend
        have hin : inWrite x w' next =
            ⟨.writing x w' next, some ("Couldn't write to socket: " ++ strerror)⟩ := by
          rw [inWrite, hpc]
        refine ⟨e, _, rfl, ?_⟩
        simp only [List.append_nil, Function.update_eq_self]
        exact h.threw (by rw [hin]; rfl) (by rw [hin, hend]; rfl)
  | recv e res =>
    cases res with
    | count n => cases ha
    | failed strerror =>
      simp only [step] at hs
      split at hs
      case h_2 => cases hs
      case h_1 x size r next hend =>
        rw [Option.map_eq_some_iff] at hs
        obtain ⟨⟨st, r'⟩, hrecv, rfl⟩ := hs
        obtain ⟨hpc, rfl⟩ := recv_failed hrecv
        have hin : inRead x size r' next =
            ⟨.reading x size r' next, some ("Couldn't read from socket: " ++ strerror)⟩ := by
          rw [inRead, hpc]
        refine ⟨e, _, rfl, ?_⟩
        simp only [Function.update_eq_self]
        exact h.threw (by rw [hin]; rfl) (by rw [hin, hend]; rfl)
  | throw e what =>
    simp only [step] at hs
    split at hs
    case h_2 => cases hs
    case h_1 x hend =>
      cases hs
      exact ⟨e, _, rfl, h.threw rfl (by rw [hend])⟩

/-! ## Runs -/

/-- **Every run** is one of `Lib.Duplex`. -/
theorem simulates_run {as : List Act} (h : Rel capacity s t)
    (hr : run (step kind capacity prog) s as = some s') :
    ∃ bs t', run (Duplex.step capacity prog) t bs = some t' ∧ Rel capacity s' t' := by
  induction as generalizing s t with
  | nil => cases hr; exact ⟨[], t, rfl, h⟩
  | cons a as ih =>
    rw [run] at hr
    cases hs : step kind capacity prog s a with
    | none => rw [hs] at hr; cases hr
    | some s₁ =>
      rw [hs] at hr
      obtain ⟨bs, t₁, hbs, h₁⟩ :
          ∃ bs t₁, run (Duplex.step capacity prog) t bs = some t₁ ∧ Rel capacity s₁ t₁ := by
        cases ha : a.moves with
        | true =>
          obtain ⟨-, t₁, hrun, h₁⟩ := simulates h ha hs
          exact ⟨_, t₁, Duplex.go_of_run hrun, h₁⟩
        | false =>
          obtain ⟨e, t₁, hstep, h₁⟩ := simulates_failure h ha hs
          exact ⟨[.throw e], t₁, by rw [run_cons hstep]; rfl, h₁⟩
      obtain ⟨cs, t', hcs, h'⟩ := ih h₁ hr
      exact ⟨bs ++ cs, t', by rw [run_append hbs, hcs], h'⟩

/-- A run in which nothing fails moves at least a byte, or begins a call, with each step. -/
theorem simulates_moves {as : List Act} (h : Rel capacity s t) (ha : ∀ a ∈ as, a.moves = true)
    (hr : run (step kind capacity prog) s as = some s') :
    ∃ es t', run (Duplex.advance capacity prog) t es = some t' ∧ Rel capacity s' t' ∧
      as.length ≤ es.length := by
  induction as generalizing s t with
  | nil => cases hr; exact ⟨[], t, rfl, h, le_rfl⟩
  | cons a as ih =>
    rw [run] at hr
    cases hs : step kind capacity prog s a with
    | none => rw [hs] at hr; cases hr
    | some s₁ =>
      rw [hs] at hr
      obtain ⟨hpos, t₁, hrun, h₁⟩ := simulates h (ha a (by simp)) hs
      obtain ⟨es, t', hes, h', hlen⟩ := ih h₁ (fun b hb => ha b (List.mem_cons_of_mem a hb)) hr
      refine ⟨a.ends ++ es, t', by rw [run_append hrun, hes], h', ?_⟩
      rw [List.length_cons, List.length_append]
      omega

/-- A step in which the kernel moves one byte. -/
theorem exists_step (kind : Kind) {t' : Duplex.State UInt8 ρ} (h : Rel capacity s t)
    (hs : Duplex.advance capacity prog t e = some t') :
    ∃ a s', a.moves = true ∧ a.ends = [e] ∧ step kind capacity prog s a = some s' := by
  obtain ⟨p, hp, rfl⟩ := Duplex.advance_eq_some hs
  obtain ⟨hthrew, hp⟩ := Duplex.End.advance_cases hp
  have he := h.ends e
  obtain ⟨pos, what⟩ : ∃ pos, s.ends e = ⟨pos, none⟩ := by
    refine ⟨(s.ends e).pos, ?_⟩
    have hnone : (s.ends e).threw = none := by simpa [hthrew] using he.threw
    rw [← hnone]
  rw [what] at he
  cases pos with
  | between x =>
    have hpos := (he.pos rfl).of_between
    cases hp with
    | write hx => rw [hpos] at hx; cases hx
    | read hx => rw [hpos] at hx; cases hx
    | call hx hcall =>
      rw [hpos] at hx
      cases hx
      obtain ⟨p, hp⟩ := exists_begin hcall
      exact ⟨.call e, s.setEnd e p, rfl, rfl, by simp only [step, what, hp]; rfl⟩
  | writing x w next =>
    obtain ⟨current, hw, hlt, hpos⟩ := (he.pos rfl).of_writing
    cases hp with
    | call hx => rw [hpos] at hx; cases hx
    | read hx => rw [hpos] at hx; cases hx
    | write hx hroom =>
      obtain ⟨res, hres⟩ := exists_send kind hw hlt
      refine ⟨.send e (.count 1), ?_⟩
      have hroom : HasRoom capacity (s.stream e) (.count 1) := by
        rw [HasRoom, h.pending]; exact hroom
      simp only [step, what, if_pos hroom, hres]
      exact ⟨_, rfl, rfl, rfl⟩
  | reading x size r next =>
    obtain ⟨got, hr, hlt, hpos⟩ := (he.pos rfl).of_reading
    cases hp with
    | call hx => rw [hpos] at hx; cases hx
    | write hx => rw [hpos] at hx; cases hx
    | read hx ht =>
      have hpending : 0 < (s.stream e.other).pending.length := by
        rw [h.pending, Side.other_other, Duplex.length_stream]
        exact Nat.sub_pos_of_lt (List.getElem?_eq_some_iff.1 ht).1
      obtain ⟨res, hres⟩ := exists_recv kind hr hlt hpending
      refine ⟨.recv e (.count 1), ?_⟩
      simp only [step, what, hres]
      exact ⟨_, rfl, rfl, rfl⟩

/-- **Every run of `Lib.Duplex`** is one here. -/
theorem lifts_run (kind : Kind) {es : List Side} {t' : Duplex.State UInt8 ρ} (h : Rel capacity s t)
    (hr : run (Duplex.advance capacity prog) t es = some t') :
    ∃ as s', (∀ a ∈ as, a.moves = true) ∧ run (step kind capacity prog) s as = some s' ∧
      Rel capacity s' t' := by
  induction es generalizing s t with
  | nil => cases hr; exact ⟨[], s, by simp, rfl, h⟩
  | cons e es ih =>
    rw [run] at hr
    cases hs : Duplex.advance capacity prog t e with
    | none => rw [hs] at hr; cases hr
    | some t₁ =>
      rw [hs] at hr
      obtain ⟨a, s₁, ha, hends, hstep⟩ := exists_step kind h hs
      obtain ⟨-, u, hrun, h₁⟩ := simulates h ha hstep
      rw [hends, run_cons hs] at hrun
      cases hrun
      obtain ⟨as, s', has, hrun', h'⟩ := ih h₁ hr
      refine ⟨a :: as, s', ?_, by rw [run_cons hstep]; exact hrun', h'⟩
      exact fun b hb => (List.mem_cons.1 hb).elim (fun hb => hb ▸ ha) (has b)

end

/-- **Programs that can always go on** until they are done get there, in every run in which
    nothing fails. -/
theorem finishes_of_progress (kind : Kind) {prog : Side → ρ → Call UInt8 ρ} {capacity : ℕ}
    (Done I : Duplex.State UInt8 ρ → Prop) (μ : Duplex.State UInt8 ρ → ℕ)
    (hstep : ∀ t e t', I t → Duplex.advance capacity prog t e = some t' → I t' ∧ μ t' < μ t)
    (hgo : ∀ t, I t → Done t ∨ ∃ e t', Duplex.advance capacity prog t e = some t')
    {x : Side → ρ} (h : I (Duplex.start x)) {as : List Act} {s : State ρ}
    (has : ∀ a ∈ as, a.moves = true) (hr : run (step kind capacity prog) (start x) as = some s) :
    as.length ≤ μ (Duplex.start x) ∧ ∃ bs s' t', (∀ b ∈ bs, b.moves = true) ∧
      run (step kind capacity prog) s bs = some s' ∧ Rel capacity s' t' ∧ I t' ∧ Done t' := by
  obtain ⟨es, t, hes, ht, hlen⟩ := simulates_moves (rel_start capacity x) has hr
  have hle := length_add_le μ (fun t e t' hi (_ : True) hs => hstep t e t' hi hs) h
    (fun _ _ => trivial) hes
  have hi : I t := inv_of_run (D := fun _ => True) (fun t e t' hi _ hs => (hstep t e t' hi hs).1) h
    (fun _ _ => trivial) hes
  obtain ⟨fs, t', hfs, hi', hdone⟩ := exists_run_done μ hstep hgo hi
  obtain ⟨bs, s', hbs, hr', hs'⟩ := lifts_run kind ht hfs
  exact ⟨by omega, bs, s', t', hbs, hr', hs', hi', hdone⟩

/-! ## Scripts -/

section
variable {υ : Type} {kind : Kind} {capacity : ℕ} {ops : Side → List (Op UInt8 υ)} {v₀ : Side → υ}
  {s : State (Script UInt8 υ)} {as : List Act} {e : Side}

/-- Both ends are about to run their scripts. -/
def begins (ops : Side → List (Op UInt8 υ)) (v₀ : Side → υ) : State (Script UInt8 υ) :=
  start fun e => ⟨ops e, v₀ e⟩

/-- The script is at its end, and nothing has been thrown. -/
def End.Finished (p : End (Script UInt8 υ)) (v : υ) : Prop := p = ⟨.between ⟨[], v⟩, none⟩

theorem RelEnd.finished {p : End (Script UInt8 υ)} {q : Duplex.End UInt8 (Script UInt8 υ)} {v : υ}
    (h : RelEnd p q) (hf : p.Finished v) : q.Finished v := by
  subst hf
  exact ⟨(h.pos rfl).of_between, h.threw⟩

theorem exists_pair (hr : run (step kind capacity scripts) (begins ops v₀) as = some s) :
    ∃ t, Rel capacity s t ∧ Pair ops v₀ capacity t := by
  obtain ⟨bs, t, hbs, ht⟩ := simulates_run (rel_start capacity _) hr
  exact ⟨t, ht, pair_of_run hbs⟩

/-- **An end that has finished** has done all of its script with what the other one puts. -/
theorem vars_of_finished {v : υ}
    (hr : run (step kind capacity scripts) (begins ops v₀) as = some s)
    (hf : (s.ends e).Finished v) : v = exec (ops e) (puts (ops e.other)) (v₀ e) := by
  obtain ⟨t, ht, hpair⟩ := exists_pair hr
  exact hpair.finished ((ht.ends e).finished hf)

/-- An end that has finished has read no more than the other one puts. -/
theorem asks_le_of_finished {v : υ}
    (hr : run (step kind capacity scripts) (begins ops v₀) as = some s)
    (hf : (s.ends e).Finished v) : asks (ops e) ≤ (puts (ops e.other)).length := by
  obtain ⟨t, ht, hpair⟩ := exists_pair hr
  exact hpair.asks_le ((ht.ends e).finished hf)

/-- An end that has finished has met no `fails`. -/
theorem fails_not_mem_of_finished {v : υ}
    (hr : run (step kind capacity scripts) (begins ops v₀) as = some s)
    (hf : (s.ends e).Finished v) : .fails ∉ ops e := by
  obtain ⟨t, ht, hpair⟩ := exists_pair hr
  exact hpair.fails_not_mem ((ht.ends e).finished hf)

/-- **An end that has finished knows** what the other has made of its variables before its last
    `put`. -/
theorem other_of_finished {v : υ}
    (hr : run (step kind capacity scripts) (begins ops v₀) as = some s)
    (hf : (s.ends e).Finished v) (hasks : asks (ops e) = (puts (ops e.other)).length) {β : Type}
    {f : υ → β} {msg : List UInt8} {p q : List (Op UInt8 υ)} (hfails : .fails ∉ ops e.other)
    (hops : ops e.other = p ++ .put msg :: q) (hmsg : msg ≠ [])
    (hq : ∀ c, ∀ op ∈ q, op.Keeps fun v => f v = c) :
    f (s.ends e.other).pos.state.vars = f (exec (ops e.other) (puts (ops e)) (v₀ e.other)) := by
  obtain ⟨t, ht, hpair⟩ := exists_pair hr
  rw [(ht.ends e.other).state]
  exact hpair.other_of_finished ((ht.ends e).finished hf) hasks hfails hops hmsg hq

theorem RelEnd.stands {t : Duplex.State UInt8 (Script UInt8 υ)} {todo : List (Op UInt8 υ)}
    {inp : List UInt8} (h : RelEnd (s.ends e) (t e)) (ht : Stands t e todo)
    (hfollows : Follows (ops e) (v₀ e) inp (t e)) :
    ∃ v, s.ends e = ⟨.between ⟨todo, v⟩, none⟩ ∧ After (ops e) (v₀ e) todo v := by
  obtain ⟨⟨v, hpos⟩, hthrew⟩ := ht
  have hafter := hfollows.exists_exec.1
  have hnone : (s.ends e).threw = none := by simpa [hthrew] using h.threw
  obtain ⟨pos, hend⟩ : ∃ pos, s.ends e = ⟨pos, none⟩ := ⟨(s.ends e).pos, by rw [← hnone]⟩
  rw [hend] at h
  have hrel := h.pos rfl
  rw [hpos] at hrel hafter
  cases hrel
  exact ⟨v, hend, hafter⟩

/-- Scripts that can run so far do so from their start on. -/
theorem exists_run_of_reaches (kind : Kind) {p q : List (Op UInt8 υ)}
    (h : Reaches capacity p q 0 0 (ops .left) (ops .right)) (v₀ : Side → υ) :
    ∃ as s, (∀ a ∈ as, a.moves = true) ∧
      run (step kind capacity scripts) (begins ops v₀) as = some s ∧
      (∃ v, s.ends .left = ⟨.between ⟨p, v⟩, none⟩ ∧ After (ops .left) (v₀ .left) p v) ∧
      ∃ v, s.ends .right = ⟨.between ⟨q, v⟩, none⟩ ∧ After (ops .right) (v₀ .right) q v := by
  obtain ⟨es, t, hes, hleft, hright⟩ := h.exists_run_begin v₀
  obtain ⟨as, s, has, hr, hs⟩ := lifts_run kind (rel_start capacity _) hes
  have hpair : Pair ops v₀ capacity t := pair_of_run (Duplex.go_of_run hes)
  exact ⟨as, s, has, hr, (hs.ends .left).stands hleft (hpair.2 .left),
    (hs.ends .right).stands hright (hpair.2 .right)⟩

/-- **Every run in which nothing fails can be completed**, and is not longer than some bound. -/
theorem finishes_of_completes (kind : Kind) (h : Completes capacity (ops .left) (ops .right))
    (v₀ : Side → υ) :
    ∃ n, ∀ as s, (∀ a ∈ as, a.moves = true) →
      run (step kind capacity scripts) (begins ops v₀) as = some s →
      as.length ≤ n ∧ ∃ bs s', (∀ b ∈ bs, b.moves = true) ∧
        run (step kind capacity scripts) s bs = some s' ∧ ∀ e, ∃ v, (s'.ends e).Finished v := by
  obtain ⟨n, hn⟩ := completes_of_run h v₀
  refine ⟨n, fun as s has hr => ?_⟩
  obtain ⟨es, t, hes, ht, hlen⟩ := simulates_moves (rel_start capacity _) has hr
  obtain ⟨fs, u, hfs, hu, hsum⟩ := hn es t hes
  obtain ⟨bs, s', hbs, hr', hs'⟩ := lifts_run kind ht hfs
  have hall : run (Duplex.advance capacity scripts) (Duplex.begin_ ops v₀) (es ++ fs) = some u :=
    (run_append hes fs).trans hfs
  have hpair : Pair ops v₀ capacity u := pair_of_run (Duplex.go_of_run hall)
  refine ⟨by omega, bs, s', hbs, hr', fun e => ?_⟩
  obtain ⟨v, hv, -⟩ := (hs'.ends e).stands (hu e) (hpair.2 e)
  exact ⟨v, hv⟩

theorem exists_finished (kind : Kind) (h : Completes capacity (ops .left) (ops .right))
    (v₀ : Side → υ) : ∃ as s, run (step kind capacity scripts) (begins ops v₀) as = some s ∧
      ∀ e, ∃ v, (s.ends e).Finished v := by
  obtain ⟨n, hn⟩ := finishes_of_completes kind h v₀
  obtain ⟨-, bs, s, -, hr, hs⟩ := hn [] _ (by simp) rfl
  exact ⟨bs, s, hr, hs⟩

/-- **Scripts that both begin with more than fits** never finish. -/
theorem not_finished_of_puts (hlong : ∀ e, capacity < (firstPuts (ops e)).length)
    (hr : run (step kind capacity scripts) (begins ops v₀) as = some s) (e : Side) (v : υ) :
    ¬ (s.ends e).Finished v := by
  obtain ⟨bs, t, hbs, ht⟩ := simulates_run (rel_start capacity _) hr
  exact fun hf => Duplex.not_finished_of_puts hlong hbs e v ((ht.ends e).finished hf)

end

end SocketPrograms

end L5RDMA
