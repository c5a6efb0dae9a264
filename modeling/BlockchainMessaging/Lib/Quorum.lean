import Mathlib.Algebra.Order.Field.Rat
import Mathlib.Tactic.FieldSimp
import Mathlib.Tactic.Linarith
import Mathlib.Tactic.NormNum

/-!
# Votes counted as percentages

Percentages are exact. The quotient `0 / 0` of an empty poll is not a number, and no comparison with
it holds.
-/

namespace Quorum

/-- `part` in percent of `whole`, for a part that is at most the whole; `none` is the NaN of
`0 / 0`. -/
def percentage (part whole : ℕ) : Option ℚ :=
  if whole = 0 then none else some (part * 100 / whole)

def reaches (p : Option ℚ) (threshold : ℕ) : Bool :=
  p.any fun x => decide ((threshold : ℚ) ≤ x)

theorem reaches_percentage (part whole threshold : ℕ) :
    reaches (percentage part whole) threshold = true ↔ whole ≠ 0 ∧ threshold * whole ≤ part * 100 := by
  unfold percentage
  split
  · rename_i h
    simp [reaches, h]
  · rename_i h
    have hpos : (0 : ℚ) < whole := by exact_mod_cast Nat.pos_of_ne_zero h
    simp only [reaches, Option.any_some, decide_eq_true_eq, le_div_iff₀ hpos, ne_eq, h, not_false_eq_true,
      true_and]
    exact_mod_cast Iff.rfl

/-- No vote at all never reaches a positive threshold. -/
theorem not_reaches_zero {whole threshold : ℕ} (h : 0 < threshold) :
    reaches (percentage 0 whole) threshold = false := by
  rw [Bool.eq_false_iff, ne_eq, reaches_percentage]
  rintro ⟨hw, hle⟩
  have := Nat.mul_pos h (Nat.pos_of_ne_zero hw)
  omega

end Quorum
