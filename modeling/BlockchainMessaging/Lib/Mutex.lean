import Mathlib.Logic.Function.Basic

/-!
# Threads around a mutex

Each thread `k` stands at a place of its program. `Guarded` says that the owner of the mutex, and
nobody else, is at a critical place. A step moves one thread: within the places of its kind, into
the critical ones when the mutex is free, or out of them.
-/

namespace Mutex
variable {κ π : Type*}

def Guarded (critical : π → Prop) (place : κ → π) (owner : Option κ) : Prop :=
  ∀ k, critical (place k) ↔ owner = some k

namespace Guarded
variable {critical : π → Prop} {place : κ → π} {owner : Option κ} {j k : κ} {p : π}

theorem unique (h : Guarded critical place owner) (hj : critical (place j))
    (hk : critical (place k)) : j = k := by
  have hown := (h j).1 hj
  rw [(h k).1 hk] at hown
  exact (Option.some.inj hown).symm

theorem not_critical (h : Guarded critical place owner) (hk : critical (place k)) (hne : j ≠ k) :
    ¬ critical (place j) :=
  fun hj => hne (h.unique hj hk)

variable [DecidableEq κ]

/-- A step between two places of one kind. -/
theorem stay (h : Guarded critical place owner) (hp : critical p ↔ critical (place k)) :
    Guarded critical (Function.update place k p) owner := by
  intro j
  rcases eq_or_ne j k with rfl | hne
  · rw [Function.update_self, hp]
    exact h j
  · rw [Function.update_of_ne hne]
    exact h j

theorem acquire (h : Guarded critical place none) (hp : critical p) :
    Guarded critical (Function.update place k p) (some k) := by
  intro j
  rcases eq_or_ne j k with rfl | hne
  · rw [Function.update_self]
    exact iff_of_true hp rfl
  · rw [Function.update_of_ne hne]
    have hj : ¬ critical (place j) := fun hc => by cases (h j).1 hc
    exact iff_of_false hj fun heq => hne (Option.some.inj heq).symm

theorem release (h : Guarded critical place owner) (hk : critical (place k)) (hp : ¬ critical p) :
    Guarded critical (Function.update place k p) none := by
  intro j
  rcases eq_or_ne j k with rfl | hne
  · rw [Function.update_self]
    exact iff_of_false hp (by simp)
  · rw [Function.update_of_ne hne]
    exact iff_of_false (h.not_critical hk hne) (by simp)

end Guarded
end Mutex
