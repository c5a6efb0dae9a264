import Mathlib.Logic.Function.Iterate
import Mathlib.Data.Nat.Find

/-!
# Loops that may not end

`loop step done` repeats `step` until `done` holds. It takes the number of turns it may make as fuel
and is `none` when this is used up; `Ends` says that some fuel is enough. The loop ends in the first
state of `s, step s, step (step s), …` at which `done` holds, and in no other.
-/

namespace While
variable {σ : Type*} (step : σ → σ) (done : σ → Prop)

/-- `s'` is the first state met from `s` on at which `done` holds, met after `k` turns. -/
def FirstDone (s : σ) (k : ℕ) : Prop :=
  done (step^[k] s) ∧ ∀ j < k, ¬ done (step^[j] s)

theorem FirstDone.succ {step : σ → σ} {done : σ → Prop} {s : σ} {k : ℕ} (hs : ¬ done s)
    (h : FirstDone step done (step s) k) : FirstDone step done s (k + 1) := by
  refine ⟨h.1, fun j hj => ?_⟩
  cases j with
  | zero => exact hs
  | succ j => exact h.2 j (by omega)

variable [DecidablePred done]

def loop : ℕ → σ → Option σ
  | 0, s => if done s then some s else none
  | fuel + 1, s => if done s then some s else loop fuel (step s)

def Ends (s s' : σ) : Prop :=
  ∃ fuel, loop step done fuel s = some s'

variable {step done}

theorem loop_of_done {s : σ} (h : done s) (fuel : ℕ) : loop step done fuel s = some s := by
  cases fuel with
  | zero => exact if_pos h
  | succ fuel => exact if_pos h

theorem loop_succ_of_not_done {s : σ} (h : ¬ done s) (fuel : ℕ) :
    loop step done (fuel + 1) s = loop step done fuel (step s) :=
  if_neg h

theorem exists_firstDone_of_loop {s' : σ} : ∀ {fuel : ℕ} {s : σ}, loop step done fuel s = some s' →
    ∃ k, FirstDone step done s k ∧ s' = step^[k] s
  | 0, s, h => by
    unfold loop at h
    split at h
    · rename_i hdone
      cases h
      exact ⟨0, ⟨hdone, fun j hj => absurd hj (Nat.not_lt_zero j)⟩, rfl⟩
    · cases h
  | fuel + 1, s, h => by
    by_cases hdone : done s
    · rw [loop_of_done hdone] at h
      cases h
      exact ⟨0, ⟨hdone, fun j hj => absurd hj (Nat.not_lt_zero j)⟩, rfl⟩
    · rw [loop_succ_of_not_done hdone] at h
      obtain ⟨k, hk, rfl⟩ := exists_firstDone_of_loop h
      exact ⟨k + 1, hk.succ hdone, rfl⟩

theorem loop_of_firstDone : ∀ {k : ℕ} {s : σ}, FirstDone step done s k →
    loop step done k s = some (step^[k] s)
  | 0, s, h => loop_of_done h.1 0
  | k + 1, s, h => by
    have hs : ¬ done s := h.2 0 (Nat.succ_pos k)
    have hk : FirstDone step done (step s) k := ⟨h.1, fun j hj => h.2 (j + 1) (by omega)⟩
    rw [loop_succ_of_not_done hs, loop_of_firstDone hk, Function.iterate_succ_apply]

theorem ends_iff {s s' : σ} :
    Ends step done s s' ↔ ∃ k, FirstDone step done s k ∧ s' = step^[k] s := by
  constructor
  · rintro ⟨fuel, h⟩
    exact exists_firstDone_of_loop h
  · rintro ⟨k, hk, rfl⟩
    exact ⟨k, loop_of_firstDone hk⟩

theorem exists_ends_iff {s : σ} : (∃ s', Ends step done s s') ↔ ∃ k, done (step^[k] s) := by
  constructor
  · rintro ⟨s', h⟩
    obtain ⟨k, hk, -⟩ := ends_iff.1 h
    exact ⟨k, hk.1⟩
  · intro h
    exact ⟨_, ends_iff.2 ⟨Nat.find h, ⟨Nat.find_spec h, fun j hj => Nat.find_min h hj⟩, rfl⟩⟩

/-- An invariant of the turns holds at the end, where `done` does too. -/
theorem Ends.inv {I : σ → Prop} (hstep : ∀ s, ¬ done s → I s → I (step s)) {s s' : σ}
    (h : Ends step done s s') (hs : I s) : I s' ∧ done s' := by
  obtain ⟨k, hk, rfl⟩ := ends_iff.1 h
  refine ⟨?_, hk.1⟩
  have hturns : ∀ j ≤ k, I (step^[j] s) := by
    intro j
    induction j with
    | zero => exact fun _ => hs
    | succ j ih =>
      intro hj
      rw [Function.iterate_succ_apply']
      exact hstep _ (hk.2 j (by omega)) (ih (by omega))
  exact hturns k le_rfl

/-- A loop whose turns bring a measure down ends. -/
theorem exists_ends_of_measure (μ : σ → ℕ) (hμ : ∀ s, ¬ done s → μ (step s) < μ s) (s : σ) :
    ∃ s', Ends step done s s' := by
  rw [exists_ends_iff]
  induction hm : μ s using Nat.strong_induction_on generalizing s with
  | _ m ih =>
    subst hm
    by_cases hdone : done s
    · exact ⟨0, hdone⟩
    · obtain ⟨k, hk⟩ := ih _ (hμ s hdone) (step s) rfl
      exact ⟨k + 1, by rwa [Function.iterate_succ_apply]⟩

end While
