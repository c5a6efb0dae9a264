import BlockchainMessaging.Lib.Run
import Mathlib.Logic.Function.Basic

/-!
# Machines side by side

Every party `k` of a family runs a machine of its own. A schedule is the order in which inputs reach
the parties, any interleaving of what each of them reads. What a party has come to is its own run on
its own inputs: the others neither help nor disturb it.
-/

namespace Machine
variable {κ : Type*} [DecidableEq κ] {σ ι : Type*}

/-- One input, fed to the party it is for. -/
def stepAt (step : κ → σ → ι → σ) (s : κ → σ) (e : κ × ι) : κ → σ :=
  Function.update s e.1 (step e.1 (s e.1) e.2)

/-- What the schedule feeds to the party `k`. -/
def inputsOf (k : κ) (schedule : List (κ × ι)) : List ι :=
  (schedule.filter fun e => e.1 = k).map Prod.snd

variable {step : κ → σ → ι → σ} {s : κ → σ} {k : κ} {e : κ × ι} {schedule : List (κ × ι)}

theorem stepAt_self : stepAt step s e e.1 = step e.1 (s e.1) e.2 :=
  Function.update_self ..

theorem stepAt_of_ne (h : e.1 ≠ k) : stepAt step s e k = s k :=
  Function.update_of_ne (Ne.symm h) ..

theorem mem_inputsOf {i : ι} : i ∈ inputsOf k schedule ↔ (k, i) ∈ schedule := by
  unfold inputsOf
  constructor
  · intro h
    obtain ⟨⟨k', i'⟩, hfed, rfl⟩ := List.mem_map.1 h
    obtain ⟨hmem, hk⟩ := List.mem_filter.1 hfed
    obtain rfl : k' = k := by simpa using hk
    exact hmem
  · intro h
    exact List.mem_map.2 ⟨(k, i), List.mem_filter.2 ⟨h, by simp⟩, rfl⟩

theorem inputsOf_concat (k : κ) (schedule : List (κ × ι)) (e : κ × ι) :
    inputsOf k (schedule ++ [e]) = inputsOf k schedule ++ if e.1 = k then [e.2] else [] := by
  unfold inputsOf
  by_cases h : e.1 = k <;> simp [h]

/-- A party's state after a schedule is that of its own run. -/
theorem run_stepAt (step : κ → σ → ι → σ) (s : κ → σ) (schedule : List (κ × ι)) (k : κ) :
    run (stepAt step) s schedule k = run (step k) (s k) (inputsOf k schedule) := by
  induction schedule generalizing s with
  | nil => rfl
  | cons e schedule ih =>
    have htail : run (stepAt step) s (e :: schedule) k =
        run (step k) (stepAt step s e k) (inputsOf k schedule) := ih (stepAt step s e)
    by_cases h : e.1 = k
    · subst h
      rw [htail, stepAt_self, inputsOf, inputsOf, List.filter_cons_of_pos (by simp)]
      rfl
    · rw [htail, stepAt_of_ne h, inputsOf, inputsOf, List.filter_cons_of_neg (by simpa using h)]

end Machine
