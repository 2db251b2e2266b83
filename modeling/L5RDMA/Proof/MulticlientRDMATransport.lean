/-
  The doorbell transport delivers requests and answers.

  `Bells`: a bell is set exactly while the request of its client has arrived
  and the server has not turned to it.

  `right_of_fits`: whatever the order of the steps, requests and answers come
  out exactly (`Right`), as long as the server's `receive` calls admit the
  requests they find.
-/
import L5RDMA.Proof.MulticlientDelivery

namespace L5RDMA

namespace Multiclient

open Run Exchange
open Pos (lengthOf)

namespace Exchanges

/-- The server has not turned to the request. -/
def Unturned : ServePc → Prop
  | .idle | .clear _ _ => True
  | _ => False

/-- The bell of a client is set exactly while its request waits for the server. -/
def Bells (v : View) : Prop := v.bell ≠ 0 ↔ v.Waiting ∧ Unturned v.held

/-- The request that the server is about to copy fits. -/
def CopyFits (s : State) : ServePc → Prop
  | .copy maxSize sender _ => ∀ r ∈ (s.clients sender).sent.getLast?, r.length ≤ maxSize.toNat
  | _ => True

def Fits (s : State) : Act → Prop
  | .server => CopyFits s s.slots.pc
  | _ => True

instance (s : State) : ∀ pc, Decidable (CopyFits s pc)
  | .copy maxSize sender _ => inferInstanceAs
      (Decidable (∀ r ∈ (s.clients sender).sent.getLast?, r.length ≤ maxSize.toNat))
  | .idle | .poll _ _ | .clear _ _ | .size _ _ | .reset _ _ => isTrue trivial

instance (s : State) : ∀ a, Decidable (Fits s a)
  | .server => inferInstanceAs (Decidable (CopyFits s s.slots.pc))
  | .send _ _ | .receive _ _ | .client _ | .land _ _ | .complete _ | .serve _ | .answer _ _
  | .landAnswer _ | .completeAnswer => isTrue trivial

section
variable {looked : Option ℕ} {c : ℕ} {a : Act} {v v' : View} {stage : Stage (List UInt8)}

theorem Bells.iff_false (h : Bells v) (hn : ¬ (v.Waiting ∧ Unturned v.held)) : v.bell = 0 := by
  by_contra hb
  exact hn (h.1 hb)

theorem Move.bells (hm : Move True .doorbell looked c a v v') (h : v.Ok .doorbell stage)
    (hb : Bells v) (hfind : a = .server → looked = some c → v.bell ≠ 0)
    (hfits : ∀ maxSize size r, a = .server → v.held = .copy maxSize c size →
      v.log.sent.getLast? = some r → r.length ≤ maxSize.toNat) : Bells v' := by
  cases hm with
  | ask hlen =>
    obtain rfl := h.log.quiet hlen
    have hnone : ¬ (v.Waiting ∧ Unturned v.held) := by
      rintro ⟨⟨-, hlt⟩, -⟩
      rw [h.log.1] at hlt
      exact Nat.lt_irrefl _ hlt
    refine iff_of_false (not_not.2 (hb.iff_false hnone)) ?_
    rintro ⟨⟨hscript, -⟩, -⟩
    simp at hscript
  | @land _ off words bytes rest hs =>
    have hnone : ¬ (v.Waiting ∧ Unturned v.held) := by
      rintro ⟨⟨hscript, -⟩, -⟩
      rw [hs] at hscript
      cases hscript
    refine iff_of_false (not_not.2 (hb.iff_false hnone)) ?_
    rintro ⟨⟨hscript, -⟩, -⟩
    rw [(h.rest_eq hs).1] at hscript
    dsimp only [bells] at hscript
    split_ifs at hscript
  | ring hs =>
    obtain ⟨data, hreq, -, hheld, -, hs', -⟩ := h.ask.silent hs
    obtain rfl := stage.eq_asked hreq
    rw [hs] at hs'
    cases hs'
    refine iff_of_true (show (0x58 : UInt8) ≠ 0 by decide)
      ⟨⟨rfl, ?_⟩, by dsimp only; rw [hheld]; trivial⟩
    dsimp only
    rw [h.log.1, List.length_append]
    exact Nat.lt_succ_self _
  | receive | client | answer | landAnswer => exact hb
  | find hc =>
    have hbell := hfind rfl hc
    exact iff_of_true hbell ⟨(hb.1 hbell).1, trivial⟩
  | clear => exact iff_of_false (not_not.2 rfl) fun hw => hw.2
  | load hheld =>
    have hnone : ¬ (v.Waiting ∧ Unturned v.held) := by
      rintro ⟨-, hun⟩
      rw [hheld] at hun
      exact hun
    exact iff_of_false (not_not.2 (hb.iff_false hnone)) fun hw => hw.2
  | @throw _ maxSize size hheld hmax =>
    obtain ⟨data, hreq, hok, ha⟩ := h.ask.arrived (by rw [hheld]; exact ServePc.noConfusion)
    obtain rfl := stage.eq_asked hreq
    have hsize := ha.1
    rw [hheld] at hsize
    obtain rfl : size = lengthOf data := hsize
    have hfit := hfits _ _ data rfl hheld h.log.getLast?_sent
    rw [UInt64.lt_iff_toNat_lt, hok.toNat] at hmax
    omega
  | deliver _ hheld =>
    obtain ⟨data, hreq, -, -⟩ := h.ask.arrived (by rw [hheld]; exact ServePc.noConfusion)
    obtain rfl := stage.eq_asked hreq
    have hnone : ¬ (v.Waiting ∧ Unturned v.held) := by
      rintro ⟨-, hun⟩
      rw [hheld] at hun
      exact hun
    refine iff_of_false (not_not.2 (hb.iff_false hnone)) ?_
    rintro ⟨⟨-, hlen⟩, -⟩
    have hsent := congrArg List.length h.log.1
    simp only [List.length_append, List.length_singleton] at hlen hsent
    omega
  | copy hk => cases hk
  | reset hk => cases hk

end

/-! ## The run -/

/-- The invariant of the doorbell transport. -/
structure DoorbellInv (s : State) : Prop where
  ok : s.Ok .doorbell
  bells : ∀ c, Bells (view .doorbell s c)
  room : s.slots.count ≤ s.slots.maxClients

section
variable {s s' : State} {a : Act}

theorem Fits.held (h : Fits s .server) {c : ℕ} {maxSize size : UInt64} {r : List UInt8}
    (hheld : (view .doorbell s c).held = .copy maxSize c size)
    (hr : (view .doorbell s c).log.sent.getLast? = some r) : r.length ≤ maxSize.toNat := by
  have hpc := pc_of_held hheld ServePc.noConfusion
  have hr : (s.clients c).sent.getLast? = some r := hr
  have h : CopyFits s s.slots.pc := h
  rw [hpc] at h
  exact h r hr

theorem DoorbellInv.right (h : DoorbellInv s) : Right .doorbell s := by
  refine h.ok.right h.room (fun c hc => ((h.bells c).1 hc).1) ?_
  intro c hw hs
  have hheld : (view .doorbell s c).held = .idle := held_of_ne hs
  exact (h.bells c).2 ⟨hw, by rw [hheld]; trivial⟩

theorem DoorbellInv.step (h : DoorbellInv s) (hadm : Admitted .doorbell a) (hfits : Fits s a)
    (hs : Exchanges.step .doorbell s a = some s') : DoorbellInv s' := by
  have hfind : ∀ c, a = .server → looked .doorbell s.slots = some c →
      (view .doorbell s c).bell ≠ 0 := fun c _ hl => looked_eq_some hl
  obtain ⟨hcount, hmax⟩ := step_frame hs
  refine ⟨h.ok.step hadm (fun c ha hl => ((h.bells c).1 (hfind c ha hl)).1) hs, ?_,
    by rw [hcount, hmax]; exact h.room⟩
  intro c
  obtain ⟨stage, hok⟩ := h.ok.ok c
  rcases (h.ok.step_view hadm hs).2 c with heq | hm
  · rw [heq]; exact h.bells c
  · exact hm.bells hok (h.bells c) (hfind c) fun maxSize size r ha hheld hr =>
      (ha ▸ hfits : Fits s .server).held hheld hr

end

/-- **The doorbell transport delivers** every request to the server and every answer to its
    client exactly, in every order of the steps. -/
theorem right_of_fits (maxClients count : ℕ) (hcount : count ≤ maxClients)
    {acts : List Act}
    (h : Along (step .doorbell) (fun s a => Admitted .doorbell a ∧ Fits s a)
      (init maxClients count) acts) :
    AllStates (step .doorbell) (Right .doorbell) (init maxClients count) acts :=
  allStates_of_along (I := DoorbellInv) (fun _ hi => hi.right)
    (fun _ _ _ hi hC hs => hi.step hC.1 hC.2 hs)
    ⟨.init .doorbell maxClients count,
      fun _ => iff_of_false (not_not.2 rfl) fun hw => Nat.lt_irrefl 0 hw.1.2, hcount⟩ h

/-- Two clients ask at the same time; the server looks before the bells ring, finds both
    requests and answers them in the other order. -/
def twoClients : List Act :=
  [.send 0 [1, 2], .serve 64, .server, .client 0, .client 0, .send 1 [], .client 1, .land 0 1,
    .client 1, .land 1 1, .land 0 1, .land 0 1, .server, .land 1 1, .server, .server, .server,
    .server, .serve 2, .server, .server, .server, .server, .complete 0, .client 0, .complete 0,
    .client 0, .receive 0 2, .client 0, .answer 0 [3, 4], .server, .answer 1 [5], .server,
    .landAnswer 0, .client 0, .landAnswer 1, .client 0, .client 0, .client 0, .complete 1,
    .complete 1, .client 1, .client 1, .receive 1 1, .client 1, .client 1, .client 1, .client 1,
    .send 0 [6]]

theorem right_twoClients :
    Along (step .doorbell) (fun s a => Admitted .doorbell a ∧ Fits s a) (init 16 2) twoClients ∧
      (run (step .doorbell) (init 16 2) twoClients).map (fun s =>
        (s.slots.returned, (s.clients 0).receiver.got, (s.clients 1).receiver.got)) =
          some ([(1, []), (0, [1, 2])], [[3, 4]], [[5]]) ∧
      AllStates (step .doorbell) (Right .doorbell) (init 16 2) twoClients := by
  have h : Along (step .doorbell) (fun s a => Admitted .doorbell a ∧ Fits s a) (init 16 2)
      twoClients := by decide +kernel
  exact ⟨h, by decide +kernel, right_of_fits 16 2 (by decide) h⟩

end Exchanges

end Multiclient

end L5RDMA
