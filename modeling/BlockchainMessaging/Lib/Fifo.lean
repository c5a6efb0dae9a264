import BlockchainMessaging.Lib.While
import Mathlib.Algebra.BigOperators.Group.List.Basic
import Mathlib.Algebra.GroupWithZero.Nat

/-!
# Emptying a queue

A turn takes the element at the front and gives it to a handler, which may change the rest of the
state and may put new elements at the back. What has been taken is always a beginning of what was
there at first followed by what has entered since; when every element weighs more than all that its
handler enters, the queue runs empty.
-/

namespace Fifo
variable {α σ : Type*}

/-- `taken` and `entered` record what has left the queue and what has come into it. -/
structure Drain (α σ : Type*) where
  queue : List α
  rest : σ
  taken : List α
  entered : List α

namespace Drain

def start (queue : List α) (rest : σ) : Drain α σ :=
  { queue := queue, rest := rest, taken := [], entered := [] }

def turn (handler : σ → α → σ × List α) (d : Drain α σ) : Drain α σ :=
  match d.queue with
  | [] => d
  | a :: queue =>
    let r := handler d.rest a
    { queue := queue ++ r.2, rest := r.1, taken := d.taken ++ [a], entered := d.entered ++ r.2 }

def Empty (d : Drain α σ) : Prop :=
  d.queue.isEmpty = true

instance : DecidablePred (Empty : Drain α σ → Prop) :=
  fun d => inferInstanceAs (Decidable (d.queue.isEmpty = true))

variable {handler : σ → α → σ × List α} {d d' : Drain α σ} {queue : List α} {rest : σ}

theorem empty_iff : d.Empty ↔ d.queue = [] :=
  List.isEmpty_iff

theorem turn_of_cons {a : α} (h : d.queue = a :: queue) :
    d.turn handler =
      { queue := queue ++ (handler d.rest a).2, rest := (handler d.rest a).1
        taken := d.taken ++ [a], entered := d.entered ++ (handler d.rest a).2 } := by
  unfold turn
  rw [h]

theorem exists_cons_of_not_empty (h : ¬ d.Empty) : ∃ a queue, d.queue = a :: queue := by
  rw [empty_iff] at h
  obtain ⟨a, queue, hq⟩ := List.exists_cons_of_ne_nil h
  exact ⟨a, queue, hq⟩

/-- First in, first out. -/
structure InOrder (initial : List α) (d : Drain α σ) : Prop where
  eq : d.taken ++ d.queue = initial ++ d.entered

theorem InOrder.start (queue : List α) (rest : σ) : InOrder queue (start queue rest) :=
  ⟨(List.append_nil _).symm⟩

theorem InOrder.turn {initial : List α} (h : InOrder initial d) :
    InOrder initial (d.turn handler) := by
  have heq := h.eq
  cases hq : d.queue with
  | nil =>
    have hsame : d.turn handler = d := by unfold Drain.turn; rw [hq]
    rwa [hsame]
  | cons a queue =>
    rw [hq] at heq
    rw [turn_of_cons hq]
    refine ⟨?_⟩
    calc d.taken ++ [a] ++ (queue ++ (handler d.rest a).2)
        = d.taken ++ a :: queue ++ (handler d.rest a).2 := by simp
      _ = initial ++ (d.entered ++ (handler d.rest a).2) := by rw [heq, List.append_assoc]

variable {w : α → ℕ}

def weight (w : α → ℕ) (d : Drain α σ) : ℕ :=
  (d.queue.map w).sum

theorem weight_turn_lt (hw : ∀ s a, ((handler s a).2.map w).sum < w a) (h : ¬ d.Empty) :
    (d.turn handler).weight w < d.weight w := by
  obtain ⟨a, queue, hq⟩ := exists_cons_of_not_empty h
  have hlt := hw d.rest a
  rw [turn_of_cons hq, weight, weight, hq]
  simp only [List.map_append, List.sum_append, List.map_cons, List.sum_cons]
  omega

end Drain
end Fifo
