import BlockchainMessaging.Lib.Run
import Mathlib.Algebra.Order.Group.Int
import Mathlib.Algebra.Ring.Int.Defs
import Mathlib.Order.Lattice

/-!
# Counters that stop at bounds

A step that adds to a counter and keeps it between two bounds is a `Clamp`. One clamp after the other
is a clamp again, with the shifts added up. So a run of such steps depends on where it starts only
through the sum of the shifts, and lies between the runs from the two ends.
-/

open Machine

/-- `x ↦ max lo (min hi (x + shift))`. -/
structure Clamp where
  lo : ℤ
  hi : ℤ
  shift : ℤ
  lo_le : lo ≤ hi

namespace Clamp

def act (x : ℤ) (c : Clamp) : ℤ :=
  max c.lo (min c.hi (x + c.shift))

variable {lo hi x y : ℤ} {cs : List Clamp}

theorem act_mono (c : Clamp) (h : x ≤ y) : act x c ≤ act y c := by
  unfold act
  omega

/-- A clamp of what is kept between two numbers is kept between the clamps of these. -/
theorem act_between (c : Clamp) {a b : ℤ} (hle : a ≤ b) (y : ℤ) :
    act (max a (min b y)) c = max (act a c) (min (act b c) (y + c.shift)) := by
  have hc := c.lo_le
  unfold act
  rcases le_total y a with hy | hy
  · rw [min_eq_right (hy.trans hle), max_eq_left hy]
    omega
  · rcases le_total y b with hy' | hy'
    · rw [min_eq_right hy', max_eq_right hy]
      omega
    · rw [min_eq_left hy', max_eq_right hle]
      omega

/-- The clamps all keep to these bounds. -/
def Within (lo hi : ℤ) (cs : List Clamp) : Prop :=
  ∀ c ∈ cs, c.lo = lo ∧ c.hi = hi

/-- The run from `x` is what the shifts make of `x`, kept between the runs from the two bounds. -/
theorem run_act (hcs : Within lo hi cs) (hx : lo ≤ x ∧ x ≤ hi) :
    run act x cs =
      max (run act lo cs) (min (run act hi cs) (x + (cs.map Clamp.shift).sum)) := by
  have hruns : run act lo cs ≤ run act hi cs ∧
      run act x cs =
        max (run act lo cs) (min (run act hi cs) (x + (cs.map Clamp.shift).sum)) := by
    induction cs using List.reverseRecOn with
    | nil =>
      have hnil : ∀ z, run act z [] = z := fun _ => rfl
      simp only [hnil, List.map_nil, List.sum_nil, add_zero]
      omega
    | append_singleton cs c ih =>
      obtain ⟨hle, heq⟩ := ih fun d hd => hcs d (List.mem_append_left _ hd)
      simp only [run_concat, List.map_append, List.sum_append, List.map_singleton,
        List.sum_singleton, heq]
      refine ⟨c.act_mono hle, ?_⟩
      rw [c.act_between hle, add_assoc]
  exact hruns.2

end Clamp
