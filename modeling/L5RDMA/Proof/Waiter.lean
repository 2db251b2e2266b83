/-
  Senders that wait with `waitForCompletion`.

  A sender posts a signaled write and calls `waitForCompletion`, which fetches
  one event, arms the queue again and polls all completions that are there.
  The event may be an older one: that of an RDMA read, whose completion was
  polled without it, or of an earlier write.

  * `Waiter`: a sender as far as it waits, and `View`: what decides how;
  * `View.Served`: what holds in a wait that begins with no other signaled
    request incomplete and no event left (`Waiter.Alone`);
  * `Waiter.exact`: such a wait ends when its write is complete and polled, and
    any other wait can end before.
-/
import L5RDMA.Lib.Run
import L5RDMA.Lib.Signaling
import L5RDMA.RDMANetworking

namespace L5RDMA

open Run Verbs Channel

/-! ## Senders that wait -/

/-- A system with a sender that calls `waitForCompletion`. -/
structure Waiter (σ α : Type) where
  step : σ → α → Option σ
  /-- the sender takes its next step -/
  sender : α
  /-- where the sender is in `waitForCompletion` -/
  wait : σ → Option WaitPc
  conn : σ → Conn

/-- The queues of the sender: of its send queue, the id of each signaled request. -/
structure View where
  wait : Option WaitPc
  signals : List (Option UInt64)
  cq : CompletionQueue

/-- What a step does to the queues. -/
inductive View.Move : View → View → Prop
  | stays (v : View) : Move v v
  | posts (l : List (Option UInt64)) (cq : CompletionQueue) (r : Option UInt64) :
      Move ⟨none, l, cq⟩ ⟨none, l ++ [r], cq⟩
  | polls (l : List (Option UInt64)) (cq : CompletionQueue) :
      Move ⟨none, l, cq⟩ ⟨none, l, (pollSendCompletionQueue cq).2⟩
  /-- a signaled write is posted, and `waitForCompletion` is called -/
  | starts (l : List (Option UInt64)) (cq : CompletionQueue) (id : UInt64) :
      Move ⟨none, l, cq⟩ ⟨some .getEvent, l ++ [some id], cq⟩
  | waits {pc : WaitPc} {pc' : Option WaitPc} {cq cq' : CompletionQueue}
      (l : List (Option UInt64)) (h : waitForCompletion cq pc = some (pc', cq')) :
      Move ⟨some pc, l, cq⟩ ⟨pc', l, cq'⟩
  | completes (pc : Option WaitPc) (r : Option UInt64) (l : List (Option UInt64))
      (cq : CompletionQueue) : Move ⟨pc, r :: l, cq⟩ ⟨pc, l, r.elim cq cq.push⟩

namespace Waiter
variable {σ α : Type} (W : Waiter σ α)

def view (s : σ) : View := ⟨W.wait s, (W.conn s).sq.map Request.signal, (W.conn s).cq⟩

/-- A step that posts a signaled write and calls `waitForCompletion`. -/
def Starts (s s' : σ) : Prop := W.wait s = none ∧ W.wait s' ≠ none

/-- If the sender's next step ends `waitForCompletion`, its write, which is the last request
    that was posted, is complete, and its completion is polled. -/
def WaitedFor (s : σ) : Prop :=
  ∀ s', W.step s W.sender = some s' → W.wait s ≠ none → W.wait s' = none →
    (W.conn s').sq = [] ∧ (W.conn s').cq.entries = []

/-- There is neither an event left nor a signaled request that can raise one. -/
def Alone (s : σ) : Prop :=
  (W.conn s).cq.events = 0 ∧ ∀ r ∈ (W.conn s).sq, r.signal = none

instance (s : σ) : Decidable (W.Alone s) :=
  inferInstanceAs (Decidable (_ ∧ _))

/-- If the step calls `waitForCompletion`, its write is the only one it can wait for. -/
def StartsAlone (s : σ) (a : α) : Prop :=
  ∀ s', W.step s a = some s' → W.Starts s s' → W.Alone s

/-- **When a wait is for its write**, in runs and for each call. -/
structure WaitsExactly (s₀ : σ) : Prop where
  runs : ∀ as, Along W.step W.StartsAlone s₀ as → AllStates W.step W.WaitedFor s₀ as
  calls : ∀ as s a s', run W.step s₀ as = some s → W.step s a = some s' → W.Starts s s' →
    ((∀ bs, AllStates W.step (W.wait · ≠ none) s' bs → AllStates W.step W.WaitedFor s' bs) ↔
      W.Alone s)

/-- What a sender that waits can rely on. -/
structure Lawful : Prop where
  moves : ∀ {s a s'}, W.step s a = some s' → (W.view s).Move (W.view s')
  /-- nobody else takes the steps of `waitForCompletion` -/
  waits : ∀ {s pc pc' cq}, W.wait s = some pc →
    waitForCompletion (W.conn s).cq pc = some (pc', cq) →
    ∃ s', W.step s W.sender = some s' ∧ W.wait s' = pc' ∧ W.conn s' = { W.conn s with cq := cq }
  /-- the network card takes its steps at any time -/
  lands : ∀ {s w sq}, (W.conn s).sq = .write w :: sq →
    ∃ a s', W.step s a = some s' ∧ W.wait s' = W.wait s ∧
      (W.conn s').sq = .write (w.drop w.length) :: sq ∧ (W.conn s').cq = (W.conn s).cq
  completes : ∀ {s conn}, (W.conn s).complete = some conn →
    ∃ a s', W.step s a = some s' ∧ W.wait s' = W.wait s ∧ W.conn s' = conn

end Waiter

/-! ## A wait for the right write -/

theorem View.Move.started {v v' : View} (hm : v.Move v') (hv : v.wait = none)
    (hv' : v'.wait ≠ none) :
    v'.wait = some .getEvent ∧ v'.cq = v.cq ∧ ∃ id, v'.signals = v.signals ++ [some id] := by
  cases hm with
  | stays | completes => exact absurd hv hv'
  | posts | polls => exact absurd rfl hv'
  | starts l cq id => exact ⟨rfl, rfl, id, rfl⟩
  | waits => cases hv

/-- What a wait that started alone knows: of the signaled requests in the send queue the
    last one is its own, and after its event nothing is left there. -/
def View.Served (v : View) : Prop :=
  match v.wait with
  | none => True
  | some .getEvent => v.signals = [] ∨
    v.cq.events = 0 ∧ ∃ k id, v.signals = List.replicate k none ++ [some id]
  | some .requestNotify | some .poll => v.signals = []

theorem replicate_of_forall_none {l : List (Option UInt64)} (h : ∀ r ∈ l, r = none) :
    l = List.replicate l.length none :=
  List.eq_replicate_iff.2 ⟨rfl, h⟩

theorem View.Move.served {v v' : View} (hm : v.Move v') (h : v.Served)
    (hstart : v.wait = none → v'.wait ≠ none → v.cq.events = 0 ∧ ∀ r ∈ v.signals, r = none) :
    v'.Served := by
  cases hm with
  | stays => exact h
  | posts l cq r => trivial
  | polls l cq => trivial
  | starts l cq id =>
    obtain ⟨hev, hl⟩ := hstart rfl (by simp)
    exact Or.inr ⟨hev, l.length, id, by rw [← replicate_of_forall_none hl]⟩
  | @waits pc pc' cq cq' l hw =>
    cases pc with
    | getEvent =>
      simp only [waitForCompletion, CompletionQueue.getEvent, Option.map_eq_some_iff] at hw
      obtain ⟨_, hw, he⟩ := hw
      cases he
      split_ifs at hw with hz
      rcases h with hl | ⟨hev, -⟩
      · exact hl
      · exact absurd hev hz
    | requestNotify => cases hw; exact h
    | poll =>
      simp only [waitForCompletion] at hw
      split at hw
      next => cases hw; exact h
      next => cases hw; trivial
  | completes pc r l cq =>
    rcases pc with _ | _ | _ | _
    · trivial
    · rcases h with hnil | ⟨hev, k, id, hl⟩
      · cases hnil
      · change r :: l = _ at hl
        cases k with
        | zero => exact Or.inl (List.cons.inj hl).2
        | succ k =>
          obtain ⟨hr, hl'⟩ := List.cons.inj hl
          subst hr
          exact Or.inr ⟨hev, k, id, hl'⟩
    · cases h
    · cases h

/-- A wait that returns has polled all completions. -/
theorem View.Move.returns {v v' : View} (hm : v.Move v') (h : v.Served) (hv : v.wait ≠ none)
    (hv' : v'.wait = none) : v'.signals = [] ∧ v'.cq.entries = [] := by
  cases hm with
  | stays => exact absurd hv' hv
  | posts | polls => exact absurd rfl hv
  | starts => cases hv'
  | completes => exact absurd hv' hv
  | @waits pc pc' cq cq' l hw =>
    obtain rfl : pc' = none := hv'
    cases pc with
    | getEvent =>
      simp [waitForCompletion] at hw
    | requestNotify => cases hw
    | poll =>
      simp only [waitForCompletion, CompletionQueue.poll] at hw
      split at hw
      next => cases hw
      next hp =>
        cases hw
        refine ⟨h, ?_⟩
        cases he : cq.entries with
        | nil => rfl
        | cons i ids => simp [he] at hp

/-! ## A wait that ends too early -/

/-- The queue is armed, or there is an event, but for the time between the two. -/
def View.Armed (v : View) : Prop :=
  v.wait ≠ some .requestNotify → v.cq.armed = true ∨ 0 < v.cq.events

theorem View.Move.armed {v v' : View} (hm : v.Move v') (h : v.Armed) : v'.Armed := by
  cases hm with
  | stays => exact h
  | posts l cq r => exact h
  | polls l cq =>
    intro _
    have h := h (by simp)
    dsimp only at h ⊢
    unfold pollSendCompletionQueue CompletionQueue.poll
    split
    next hp =>
      split at hp
      · cases hp
      · cases hp; exact h
    next => exact h
  | starts l cq id => exact fun _ => h (by simp)
  | @waits pc pc' cq cq' l hw =>
    cases pc with
    | getEvent =>
      simp only [waitForCompletion, Option.map_eq_some_iff] at hw
      obtain ⟨_, -, he⟩ := hw
      cases he
      exact fun hne => absurd rfl hne
    | requestNotify => cases hw; exact fun _ => Or.inl rfl
    | poll =>
      have h := h (by simp)
      simp only [waitForCompletion, CompletionQueue.poll] at hw
      split at hw
      next hp =>
        cases hw
        split at hp
        · cases hp
        · cases hp; exact fun _ => h
      next => cases hw; exact fun _ => h
  | completes pc r l cq =>
    intro hne
    have h := h hne
    cases r with
    | none => exact h
    | some id =>
      right
      dsimp only [Option.elim, CompletionQueue.push] at h ⊢
      split_ifs with ha
      · exact Nat.succ_pos _
      · exact h.resolve_left ha

namespace Waiter
variable {σ α : Type} {W : Waiter σ α} {s t : σ}

/-- Steps during which the sender waits. -/
def Reaches (W : Waiter σ α) (s t : σ) : Prop :=
  ∃ bs, run W.step s bs = some t ∧ AllStates W.step (W.wait · ≠ none) s bs

theorem Reaches.refl (h : W.wait s ≠ none) : W.Reaches s s := ⟨[], rfl, h⟩

theorem Reaches.head {a : α} {s' : σ} (hs : W.step s a = some s') (hw : W.wait s ≠ none)
    (h : W.Reaches s' t) : W.Reaches s t := by
  obtain ⟨bs, hr, hb⟩ := h
  refine ⟨a :: bs, (run_cons hs bs).trans hr, hw, ?_⟩
  rw [hs]
  exact hb

theorem Reaches.trans {s' : σ} (h : W.Reaches s s') (h' : W.Reaches s' t) : W.Reaches s t := by
  obtain ⟨bs, hr, hb⟩ := h
  induction bs generalizing s with
  | nil => cases hr; exact h'
  | cons b bs ih =>
    obtain ⟨hw, hb⟩ := hb
    rw [run] at hr
    cases hs : W.step s b with
    | none => rw [hs] at hr; cases hr
    | some s₁ =>
      rw [hs] at hr hb
      exact .head hs hw (ih hr hb)

theorem elim_signal (w : Write) (cq : CompletionQueue) :
    (Request.write w).signal.elim cq cq.push = if w.signaled then cq.push w.id else cq := by
  rw [Request.signal]
  split_ifs <;> rfl

/-- The oldest request is executed and completes. -/
theorem Lawful.finish (hW : W.Lawful) {r : Request} {sq : List Request}
    (hsq : (W.conn s).sq = r :: sq) (hw : W.wait s ≠ none) :
    ∃ t, W.Reaches s t ∧ W.wait t = W.wait s ∧ (W.conn t).sq = sq ∧
      (W.conn t).cq = r.signal.elim (W.conn s).cq (W.conn s).cq.push := by
  cases r with
  | read id =>
    have hc : (W.conn s).complete = some { W.conn s with
        sq := sq, remoteReadPos := (W.conn s).readPos, cq := (W.conn s).cq.push id } := by
      rw [Conn.complete, hsq]
    obtain ⟨a, t, hs, hwt, hconn⟩ := hW.completes hc
    exact ⟨t, .head hs hw (.refl (hwt ▸ hw)), hwt, by rw [hconn], by rw [hconn]; rfl⟩
  | write w =>
    obtain ⟨a, s₁, hs₁, hw₁, hsq₁, hcq₁⟩ := hW.lands hsq
    have hc : (W.conn s₁).complete = some { W.conn s₁ with
        sq := sq
        cq := if w.signaled then (W.conn s₁).cq.push w.id else (W.conn s₁).cq } := by
      rw [Conn.complete, hsq₁]
      exact if_pos (Nat.sub_self _)
    obtain ⟨b, t, hs, hwt, hconn⟩ := hW.completes hc
    have hwt' := hwt.trans hw₁
    refine ⟨t, .head hs₁ hw (.head hs (hw₁ ▸ hw) (.refl (hwt' ▸ hw))), hwt', by rw [hconn], ?_⟩
    rw [hconn, elim_signal, hcq₁]

/-- There is an event while the write that the sender waits for is not complete. -/
def Early (W : Waiter σ α) (s : σ) : Prop :=
  W.wait s = some .getEvent ∧ 0 < (W.conn s).cq.events ∧ (W.conn s).sq ≠ []

/-- An earlier signaled request raises the event. -/
theorem Lawful.early (hW : W.Lawful) (hw : W.wait s = some .getEvent)
    (harmed : (W.view s).Armed) {l r : List Request} (hsq : (W.conn s).sq = l ++ r)
    (hr : r ≠ []) (hl : ∃ q ∈ l, q.signal ≠ none) : ∃ t, W.Reaches s t ∧ W.Early t := by
  have hne : W.wait s ≠ none := by simp [hw]
  induction l generalizing s with
  | nil => obtain ⟨_, hq, -⟩ := hl; cases hq
  | cons q l ih =>
    by_cases hev : 0 < (W.conn s).cq.events
    · exact ⟨s, .refl hne, hw, hev, by rw [hsq]; simp⟩
    · have ha := (harmed (by simp [view, hw])).resolve_right hev
      obtain ⟨t, hst, hwt, hsqt, hcqt⟩ := hW.finish hsq hne
      rw [hw] at hwt
      cases hsig : q.signal with
      | some i =>
        refine ⟨t, hst, hwt, ?_, ?_⟩
        · rw [hcqt, hsig]
          simp only [view] at ha
          simp [CompletionQueue.push, ha]
        · rw [hsqt]
          exact List.append_ne_nil_of_right_ne_nil _ hr
      | none =>
        rw [hsig] at hcqt
        obtain ⟨q', hq', hs'⟩ := hl
        have hq' : q' ∈ l := by
          rcases List.mem_cons.1 hq' with rfl | hq'
          · exact absurd hsig hs'
          · exact hq'
        have harmed' : (W.view t).Armed := by
          intro _
          left
          simp only [view] at ha ⊢
          rw [hcqt]
          exact ha
        obtain ⟨t', ht', he⟩ := ih hwt harmed' hsqt ⟨q', hq', hs'⟩ (by simp [hwt])
        exact ⟨t', hst.trans ht', he⟩

/-- The completions that are there are polled. -/
theorem Lawful.pollAll (hW : W.Lawful) (hw : W.wait s = some .poll) :
    ∃ t, W.Reaches s t ∧ W.wait t = some .poll ∧ (W.conn t).sq = (W.conn s).sq ∧
      (W.conn t).cq.entries = [] := by
  have hne : W.wait s ≠ none := by simp [hw]
  induction he : (W.conn s).cq.entries generalizing s with
  | nil => exact ⟨s, .refl hne, hw, rfl, he⟩
  | cons i ids ih =>
    have hp : waitForCompletion (W.conn s).cq .poll =
        some (some .poll, { (W.conn s).cq with entries := ids }) := by
      rw [waitForCompletion, CompletionQueue.poll, he]
    obtain ⟨s₁, hs₁, hw₁, hc₁⟩ := hW.waits hw hp
    obtain ⟨t, ht, hwt, hsqt, het⟩ := ih hw₁ (by simp [hw₁]) (by rw [hc₁])
    exact ⟨t, .head hs₁ hne ht, hwt, by rw [hsqt, hc₁], het⟩

/-- The event ends the wait, which leaves the write incomplete. -/
theorem Lawful.endsEarly (hW : W.Lawful) (h : W.Early s) :
    ∃ t, W.Reaches s t ∧ ¬ W.WaitedFor t := by
  obtain ⟨hw, hev, hsq⟩ := h
  have h₁ : waitForCompletion (W.conn s).cq .getEvent = some (some .requestNotify,
      { (W.conn s).cq with events := (W.conn s).cq.events - 1 }) := by
    rw [waitForCompletion, CompletionQueue.getEvent, if_neg (Nat.pos_iff_ne_zero.1 hev)]
    rfl
  obtain ⟨s₁, hs₁, hw₁, hc₁⟩ := hW.waits hw h₁
  obtain ⟨s₂, hs₂, hw₂, hc₂⟩ := hW.waits hw₁ rfl
  obtain ⟨t, ht, hwt, hsqt, het⟩ := hW.pollAll hw₂
  refine ⟨t, .head hs₁ (by simp [hw]) (.head hs₂ (by simp [hw₁]) ht), fun hwf => ?_⟩
  have h₃ : waitForCompletion (W.conn t).cq .poll = some (none, (W.conn t).cq) := by
    rw [waitForCompletion, CompletionQueue.poll, het]
  obtain ⟨t', hst', hwt', hct'⟩ := hW.waits hwt h₃
  obtain ⟨hnil, -⟩ := hwf t' hst' (by simp [hwt]) hwt'
  rw [hct', hsqt, hc₂, hc₁] at hnil
  exact hsq hnil

/-! ## Exactly then -/

theorem alone_iff : W.Alone s ↔ (W.view s).cq.events = 0 ∧ ∀ r ∈ (W.view s).signals, r = none := by
  simp [Alone, view]

theorem Lawful.served {s' : σ} {a : α} (hW : W.Lawful) (h : (W.view s).Served)
    (halone : W.StartsAlone s a) (hs : W.step s a = some s') : (W.view s').Served :=
  (hW.moves hs).served h fun h₀ h₁ => alone_iff.1 (halone s' hs ⟨h₀, h₁⟩)

theorem Lawful.waitedFor (hW : W.Lawful) (h : (W.view s).Served) : W.WaitedFor s := by
  intro s' hs hw hw'
  obtain ⟨hsig, he⟩ := (hW.moves hs).returns h hw hw'
  exact ⟨List.map_eq_nil_iff.1 hsig, he⟩

/-- A wait that does not start alone may end too early. -/
theorem Lawful.exists_early {s' : σ} {a : α} (hW : W.Lawful) (harmed : (W.view s).Armed)
    (hs : W.step s a = some s') (hstart : W.Starts s s') (hnot : ¬ W.Alone s) :
    ∃ t, W.Reaches s' t ∧ ¬ W.WaitedFor t := by
  have hm := hW.moves hs
  obtain ⟨hw', hcq, id, hsig⟩ := hm.started hstart.1 hstart.2
  obtain ⟨l, r, hsq, hl, hr⟩ := List.map_eq_append_iff.1 hsig
  have hr : r ≠ [] := by
    rintro rfl
    cases hr
  by_cases hev : 0 < (W.conn s).cq.events
  · -- an old event
    refine hW.endsEarly ⟨hw', ?_, ?_⟩
    · have hev' : 0 < (W.view s).cq.events := hev
      rwa [← hcq] at hev'
    · rw [hsq]
      exact List.append_ne_nil_of_right_ne_nil _ hr
  · -- the event of an earlier request
    obtain ⟨q, hq, hne⟩ : ∃ q ∈ (W.conn s).sq, q.signal ≠ none := by
      by_contra hno
      push Not at hno
      exact hnot ⟨Nat.eq_zero_of_not_pos hev, hno⟩
    have hmem : q.signal ∈ l.map Request.signal := hl ▸ List.mem_map_of_mem hq
    obtain ⟨q', hq', he⟩ := List.mem_map.1 hmem
    obtain ⟨t, hst, ht⟩ := hW.early hw' (hm.armed harmed) hsq hr ⟨q', hq', he ▸ hne⟩
    obtain ⟨t', htt', hbad⟩ := hW.endsEarly ht
    exact ⟨t', hst.trans htt', hbad⟩

/-- The rest of a wait that started alone. -/
theorem Lawful.waitedFor_of_waiting (hW : W.Lawful) {bs : List α} (h : (W.view s).Served)
    (hbs : AllStates W.step (W.wait · ≠ none) s bs) : AllStates W.step W.WaitedFor s bs := by
  induction bs generalizing s with
  | nil => exact hW.waitedFor h
  | cons b bs ih =>
    obtain ⟨hw, hbs⟩ := hbs
    refine ⟨hW.waitedFor h, ?_⟩
    cases hs : W.step s b with
    | none => trivial
    | some s' =>
      rw [hs] at hbs
      exact ih (hW.served h (fun _ _ hstart => absurd hstart.1 hw) hs) hbs

theorem Lawful.exact {s₀ : σ} (hW : W.Lawful) (hw : W.wait s₀ = none)
    (ha : (W.conn s₀).cq.armed = true) : W.WaitsExactly s₀ where
  runs := fun as has =>
    allStates_of_along (fun _ h => hW.waitedFor h) (fun _ _ _ h hc hs => hW.served h hc hs)
      (show (W.view s₀).Served by simp [View.Served, view, hw]) has
  calls := by
    intro as s a s' hr hs hstart
    have harmed : (W.view s).Armed :=
      (allStates_of_inv (I := fun s => (W.view s).Armed) (fun _ h => h)
        (fun _ _ _ h hs => (hW.moves hs).armed h) as (fun _ => Or.inl ha)).last hr
    constructor
    · intro h
      by_contra hnot
      obtain ⟨t, ⟨bs, hrt, hwt⟩, hbad⟩ := hW.exists_early harmed hs hstart hnot
      exact hbad ((h bs hwt).last hrt)
    · intro halone bs hbs
      refine hW.waitedFor_of_waiting (hW.served ?_ (fun _ _ _ => halone) hs) hbs
      have hw := hstart.1
      simp [View.Served, view, hw]

/-- A step that leaves the queues as they are. -/
theorem move_of_eq {s' : σ} (hw : W.wait s' = W.wait s)
    (hsq : (W.conn s').sq.map Request.signal = (W.conn s).sq.map Request.signal)
    (hcq : (W.conn s').cq = (W.conn s).cq) : (W.view s).Move (W.view s') := by
  have : W.view s' = W.view s := by rw [view, view, hw, hsq, hcq]
  rw [this]
  exact .stays _

/-- A request completes. -/
theorem move_of_complete {s' : σ} (hw : W.wait s' = W.wait s)
    (hc : (W.conn s).complete = some (W.conn s')) : (W.view s).Move (W.view s') := by
  have hcomp := View.Move.completes (W.wait s)
  obtain ⟨w, sq, hsq, -, he⟩ | ⟨id, sq, hsq, he⟩ := Conn.complete_cases hc
  · have hm := hcomp (Request.write w).signal (sq.map Request.signal) (W.conn s).cq
    rw [elim_signal] at hm
    rw [view, view, hw, hsq, he]
    exact hm
  · have hm := hcomp (some id) (sq.map Request.signal) (W.conn s).cq
    rw [view, view, hw, hsq, he]
    exact hm

end Waiter

end L5RDMA
