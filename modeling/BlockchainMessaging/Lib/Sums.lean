import Mathlib.Algebra.BigOperators.Group.Finset.Basic
import Mathlib.Algebra.Order.BigOperators.Group.Finset
import Mathlib.Algebra.Order.BigOperators.Group.List
import Mathlib.Algebra.Order.Group.Defs

/-!
# Sums with signs and with repetitions

`gain xs` is the sum of the positive terms of `xs`, the largest sum a sublist can have. The second
part compares a sum over the entries of a list with the sum over its distinct entries.
-/

namespace Sums
variable {G : Type*} [AddCommGroup G] [LinearOrder G] [IsOrderedAddMonoid G]

/-- The sum of the positive terms. -/
def gain (xs : List G) : G :=
  (xs.map fun x => max x 0).sum

theorem sum_le_gain_of_sublist {ys xs : List G} (h : ys.Sublist xs) : ys.sum ≤ gain xs := by
  induction h with
  | slnil => exact le_refl _
  | cons x _ ih =>
    calc _ ≤ _ := ih
      _ ≤ max x 0 + _ := le_add_of_nonneg_left (le_max_right x 0)
  | cons_cons x _ ih =>
    rw [List.sum_cons]
    exact add_le_add (le_max_left x 0) ih

omit [IsOrderedAddMonoid G] in
theorem sum_filter_pos (xs : List G) : (xs.filter fun x => 0 < x).sum = gain xs := by
  induction xs with
  | nil => rfl
  | cons x xs ih =>
    rw [gain, List.map_cons, List.sum_cons, ← gain, ← ih]
    rcases lt_or_ge 0 x with hx | hx
    · rw [List.filter_cons_of_pos (by simpa using hx), List.sum_cons, max_eq_left hx.le]
    · rw [List.filter_cons_of_neg (by simpa using hx), max_eq_right hx, zero_add]

theorem forall_sublist_sum_le_iff {xs : List G} {b : G} :
    (∀ ys : List G, ys.Sublist xs → ys.sum ≤ b) ↔ gain xs ≤ b := by
  constructor
  · intro h
    rw [← sum_filter_pos]
    exact h _ List.filter_sublist
  · exact fun h ys hys => (sum_le_gain_of_sublist hys).trans h

omit [IsOrderedAddMonoid G] in
theorem gain_of_nonneg {xs : List G} (h : ∀ x ∈ xs, 0 ≤ x) : gain xs = xs.sum := by
  unfold gain
  rw [List.map_congr_left fun x hx => max_eq_left (h x hx), List.map_id']

/-! ### Repetitions -/

variable {α : Type*} [DecidableEq α] {l : List α} {f : α → G}

/-- Counting repeated entries once loses nothing exactly when they contribute nothing. -/
theorem sum_count_le_iff (hf : ∀ a ∈ l, 0 ≤ f a) :
    (l.map f).sum ≤ ∑ a ∈ l.toFinset, f a ↔ ∀ a ∈ l, 1 < l.count a → f a = 0 := by
  have hle : ∀ a ∈ l.toFinset, f a ≤ l.count a • f a := by
    intro a ha
    have hmem := List.mem_toFinset.1 ha
    have hpos : 1 ≤ l.count a := List.count_pos_iff.2 hmem
    calc f a = 1 • f a := (one_nsmul _).symm
      _ ≤ l.count a • f a := nsmul_le_nsmul_left (hf a hmem) hpos
  rw [Finset.sum_list_map_count]
  constructor
  · intro h a ha hc
    have heq := (Finset.sum_eq_sum_iff_of_le hle).1 (le_antisymm (Finset.sum_le_sum hle) h)
    have ha' : f a = l.count a • f a := heq a (List.mem_toFinset.2 ha)
    obtain ⟨n, hn⟩ : ∃ n, l.count a = n + 1 + 1 := ⟨l.count a - 2, by omega⟩
    rw [hn, succ_nsmul, right_eq_add] at ha'
    refine le_antisymm ?_ (hf a ha)
    calc f a = 1 • f a := (one_nsmul _).symm
      _ ≤ (n + 1) • f a := nsmul_le_nsmul_left (hf a ha) (Nat.le_add_left 1 n)
      _ = 0 := ha'
  · intro h
    refine Finset.sum_le_sum fun a ha => ?_
    have hmem := List.mem_toFinset.1 ha
    rcases Nat.lt_or_ge 1 (l.count a) with hc | hc
    · rw [h a hmem hc, nsmul_zero]
    · calc l.count a • f a ≤ 1 • f a := nsmul_le_nsmul_left (hf a hmem) hc
        _ = f a := one_nsmul _

end Sums
