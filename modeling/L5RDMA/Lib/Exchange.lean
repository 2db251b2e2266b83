/-
  Request and response between one client and a server.

  The client asks and waits for the answer before it asks again; the server
  answers each request it was given once.  A `Log` holds what each side has
  passed on and what has come out at the other.

  `Stage` says whose turn it is, and `Log.At` what the log then looks like.  One
  lemma for each event (`At.ask`, `At.deliver`, `At.answer`, `At.take`) leads
  from one stage to the next, and in each of them the log is `Exact`: nothing
  is lost, duplicated, changed or out of order.
-/
import Mathlib.Data.List.Basic

namespace Exchange

variable {α : Type}

structure Log (α : Type) where
  /-- the requests of the client -/
  sent : List α
  /-- those that were given to the server -/
  delivered : List α
  /-- the answers of the server -/
  answers : List α
  /-- those that were given to the client -/
  got : List α

/-- Each side is given exactly what the other has sent, the next answer belongs to the
    last request that was delivered, and the next request follows the last answer. -/
structure Log.Exact (log : Log α) : Prop where
  delivered : log.delivered <+: log.sent
  got : log.got <+: log.answers
  served : log.answers.length ≤ log.delivered.length
  asked : log.sent.length ≤ log.got.length + 1

inductive Stage (α : Type) where
  | quiet
  /-- the request is on its way -/
  | asked (request : α)
  /-- the server has it -/
  | served
  /-- the answer is on its way -/
  | answered (answer : α)

namespace Stage

def request : Stage α → Option α
  | asked request => some request
  | _ => none

def answer : Stage α → Option α
  | answered answer => some answer
  | _ => none

theorem eq_asked {r : α} (stage : Stage α) (h : stage.request = some r) : stage = asked r := by
  cases stage with
  | asked request => exact congrArg asked (Option.some.inj h)
  | quiet | served | answered => cases h

end Stage

namespace Log

/-- The log at a stage. -/
def At (log : Log α) : Stage α → Prop
  | .quiet => log.delivered = log.sent ∧ log.got = log.answers ∧
      log.sent.length = log.got.length
  | .asked request => log.sent = log.delivered ++ [request] ∧ log.got = log.answers ∧
      log.delivered.length = log.got.length
  | .served => log.delivered = log.sent ∧ log.got = log.answers ∧
      log.sent.length = log.got.length + 1
  | .answered answer => log.delivered = log.sent ∧ log.answers = log.got ++ [answer] ∧
      log.sent.length = log.got.length + 1

namespace At
variable {log : Log α} {stage : Stage α} {request answer : α}

/-! ## The events -/

theorem ask (h : log.At .quiet) (request : α) :
    Log.At { log with sent := log.sent ++ [request] } (.asked request) :=
  ⟨by rw [h.1], h.2.1, by rw [h.1]; exact h.2.2⟩

theorem deliver (h : log.At (.asked request)) :
    Log.At { log with delivered := log.delivered ++ [request] } .served :=
  ⟨h.1.symm, h.2.1, by dsimp only; rw [h.1, List.length_append, h.2.2]; rfl⟩

theorem answer_served (h : log.At .served) (answer : α) :
    Log.At { log with answers := log.answers ++ [answer] } (.answered answer) :=
  ⟨h.1, by dsimp only; rw [h.2.1], h.2.2⟩

theorem take (h : log.At (.answered answer)) :
    Log.At { log with got := log.got ++ [answer] } .quiet :=
  ⟨h.1, h.2.1.symm, by dsimp only; rw [h.2.2, List.length_append]; rfl⟩

/-! ## Whose turn it is -/

/-- A client that has got all its answers has nothing under way. -/
theorem quiet (h : log.At stage) (hlen : log.sent.length = log.got.length) : stage = .quiet := by
  cases stage with
  | quiet => rfl
  | asked request =>
    have := congrArg List.length h.1
    rw [List.length_append, List.length_singleton] at this
    have := h.2.2
    omega
  | served => have := h.2.2; omega
  | answered answer => have := h.2.2; omega

/-- A server that owes an answer has the request. -/
theorem served (h : log.At stage) (hlen : log.answers.length < log.delivered.length) :
    stage = .served := by
  cases stage with
  | served => rfl
  | quiet => have := h.2.2; rw [h.1, ← h.2.1] at hlen; omega
  | asked request => have := h.2.2; rw [← h.2.1] at hlen; omega
  | answered answer =>
    have := h.2.2
    rw [h.1, h.2.1, List.length_append, List.length_singleton] at hlen
    omega

/-- A request that was not delivered yet is on its way. -/
theorem asked (h : log.At stage) (hlen : log.delivered.length < log.sent.length) :
    ∃ request, stage = .asked request := by
  cases stage with
  | asked request => exact ⟨request, rfl⟩
  | quiet | served | answered => rw [h.1] at hlen; exact absurd hlen (Nat.lt_irrefl _)

/-- An answer that was not returned yet is on its way. -/
theorem answered (h : log.At stage) (ha : log.answers = log.got ++ [answer]) :
    stage = .answered answer := by
  have hne : log.got ≠ log.answers := by
    intro he
    rw [ha] at he
    exact List.cons_ne_nil _ _ (List.self_eq_append_right.1 he)
  cases stage with
  | quiet | asked | served => exact absurd h.2.1 hne
  | answered answer' =>
    have he := h.2.1.symm.trans ha
    rw [List.append_cancel_left_eq] at he
    rw [(List.cons.inj he).1]

/-- A client without a request is in no exchange. -/
theorem quiet_of_nil (h : log.At stage) (hnil : log.sent = []) : stage = .quiet := by
  cases stage with
  | quiet => rfl
  | asked request => have := h.1; rw [hnil] at this; simp at this
  | served | answered => have := h.2.2; rw [hnil, List.length_nil] at this; omega

/-- The request that is on its way is the last one. -/
theorem getLast?_sent (h : log.At (.asked request)) : log.sent.getLast? = some request := by
  rw [h.1, List.getLast?_append, List.getLast?_singleton]; rfl

theorem exact (h : log.At stage) : log.Exact := by
  cases stage with
  | quiet =>
    obtain ⟨hd, hg, hlen⟩ := h
    refine ⟨hd ▸ List.prefix_rfl, hg ▸ List.prefix_rfl, ?_, by omega⟩
    rw [hd, ← hg]; omega
  | asked request =>
    obtain ⟨hs, hg, hlen⟩ := h
    refine ⟨hs ▸ List.prefix_append _ _, hg ▸ List.prefix_rfl, by rw [← hg]; omega, ?_⟩
    rw [hs, List.length_append, List.length_singleton]; omega
  | served =>
    obtain ⟨hd, hg, hlen⟩ := h
    refine ⟨hd ▸ List.prefix_rfl, hg ▸ List.prefix_rfl, ?_, by omega⟩
    rw [hd, ← hg]; omega
  | answered answer =>
    obtain ⟨hd, ha, hlen⟩ := h
    refine ⟨hd ▸ List.prefix_rfl, ha ▸ List.prefix_append _ _, ?_, by omega⟩
    rw [hd, ha, List.length_append, List.length_singleton]; omega

end At

end Log

end Exchange
