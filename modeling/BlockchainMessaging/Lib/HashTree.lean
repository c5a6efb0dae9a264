import Mathlib.Algebra.Group.Nat.Defs
import Mathlib.Algebra.Order.Floor.Div
import Mathlib.Data.Nat.Log
import Mathlib.Data.List.Basic
import Mathlib.GroupTheory.GroupAction.Ring
import Mathlib.Logic.Function.Iterate

/-!
# Trees built level by level over lists of any length

A level takes the values below it two by two, the last one with itself when their number is odd.
Such a tree of height `h` cannot tell a list from `complete h` of it, the list in which all this
repetition is written out (`iterate_complete`), and whatever else it cannot tell apart is a collision
of the function at its nodes (`complete_eq_or_collision`).
-/

namespace HashTree
variable {α β : Type*}

/-! ### One level -/

def pairs : List α → List (α × α)
  | [] => []
  | [a] => [(a, a)]
  | a :: b :: l => (a, b) :: pairs l

def unpair (p : α × α) : List α :=
  [p.1, p.2]

theorem length_pairs : ∀ l : List α, (pairs l).length = (l.length + 1) / 2
  | [] => by simp [pairs]
  | [_] => by simp [pairs]
  | _ :: _ :: l => by
    rw [pairs, List.length_cons, length_pairs l, List.length_cons, List.length_cons]
    omega

theorem pairs_flatMap_unpair : ∀ q : List (α × α), pairs (q.flatMap unpair) = q
  | [] => rfl
  | p :: q => by
    rw [List.flatMap_cons, show unpair p = [p.1, p.2] from rfl]
    exact congrArg (p :: ·) (pairs_flatMap_unpair q)

theorem flatMap_unpair_pairs : ∀ {l : List α}, l.length % 2 = 0 → (pairs l).flatMap unpair = l
  | [], _ => rfl
  | [_], h => absurd h (by simp)
  | a :: b :: l, h => by
    rw [pairs, List.flatMap_cons, flatMap_unpair_pairs (by simp at h; omega)]
    rfl

/-- Pushing the last value of an odd list once more changes nothing. -/
theorem pairs_append_getLast : ∀ {l : List α} {b : α}, l.length % 2 = 1 → l.getLast? = some b →
    pairs (l ++ [b]) = pairs l
  | [], _, h, _ => absurd h (by simp)
  | [a], b, _, hb => by
    obtain rfl : a = b := by simpa using hb
    rfl
  | [_, _], _, h, _ => absurd h (by simp)
  | a :: c :: d :: l, b, h, hb => by
    have hodd : (d :: l).length % 2 = 1 := by
      simp only [List.length_cons] at h ⊢
      omega
    have hlast : (d :: l).getLast? = some b := by simpa using hb
    exact congrArg ((a, c) :: ·) (pairs_append_getLast hodd hlast)

theorem pairs_take : ∀ (k : ℕ) (l : List α), pairs (l.take (2 * k)) = (pairs l).take k
  | 0, l => by simp [pairs]
  | k + 1, [] => rfl
  | k + 1, [a] => by simp [Nat.mul_succ, pairs]
  | k + 1, a :: b :: l => by simp [Nat.mul_succ, pairs, pairs_take k l]

theorem pairs_drop : ∀ (k : ℕ) (l : List α), pairs (l.drop (2 * k)) = (pairs l).drop k
  | 0, l => by simp
  | k + 1, [] => rfl
  | k + 1, [a] => by simp [Nat.mul_succ, pairs]
  | k + 1, a :: b :: l => by simp [Nat.mul_succ, pairs, pairs_drop k l]

theorem forall_mem_pairs {P : α → Prop} : ∀ {l : List α}, (∀ a ∈ l, P a) →
    ∀ p ∈ pairs l, P p.1 ∧ P p.2
  | [], _ => by simp [pairs]
  | [a], h => by simpa [pairs] using h
  | a :: b :: l, h => by
    intro p hp
    rcases List.mem_cons.1 hp with rfl | hp
    · exact ⟨h a (by simp), h b (by simp)⟩
    · exact forall_mem_pairs (fun c hc => h c (by simp [hc])) p hp

/-! ### The list that a tree of height `h` reads -/

/-- `2 ^ h` values: those of the list, its end repeated as the levels repeat it. -/
def complete : ℕ → List α → List α
  | 0, l => l
  | h + 1, l =>
    if l.length ≤ 2 ^ h then complete h l ++ complete h l
    else l.take (2 ^ h) ++ complete h (l.drop (2 ^ h))

theorem complete_of_le {h : ℕ} {l : List α} (hl : l.length ≤ 2 ^ h) :
    complete (h + 1) l = complete h l ++ complete h l :=
  if_pos hl

theorem complete_of_lt {h : ℕ} {l : List α} (hl : 2 ^ h < l.length) :
    complete (h + 1) l = l.take (2 ^ h) ++ complete h (l.drop (2 ^ h)) :=
  if_neg hl.not_ge

theorem complete_map (f : α → β) : ∀ (h : ℕ) (l : List α),
    complete h (l.map f) = (complete h l).map f
  | 0, l => rfl
  | h + 1, l => by
    rw [complete, complete, List.length_map]
    split_ifs with hle
    · rw [complete_map f h l, List.map_append]
    · rw [← List.map_take, ← List.map_drop, complete_map f h, List.map_append]

theorem prefix_complete : ∀ (h : ℕ) (l : List α), l <+: complete h l
  | 0, l => List.prefix_rfl
  | h + 1, l => by
    rw [complete]
    split_ifs with hle
    · exact (prefix_complete h l).trans (List.prefix_append _ _)
    · conv_lhs => rw [← List.take_append_drop (2 ^ h) l]
      exact List.prefix_append_right_inj _ |>.2 (prefix_complete h _)

theorem mem_of_mem_complete {a : α} : ∀ {h : ℕ} {l : List α}, a ∈ complete h l → a ∈ l
  | 0, l, ha => ha
  | h + 1, l, ha => by
    rw [complete] at ha
    split_ifs at ha with hle
    · rcases List.mem_append.1 ha with ha | ha <;> exact mem_of_mem_complete ha
    · rcases List.mem_append.1 ha with ha | ha
      · exact List.mem_of_mem_take ha
      · exact List.mem_of_mem_drop (mem_of_mem_complete ha)

/-- Seen from the level above. The induction is on the height, from the top: pairing commutes with
the split in halves. -/
theorem complete_succ : ∀ {h : ℕ} {l : List α}, l.length ≤ 2 ^ (h + 1) →
    complete (h + 1) l = (complete h (pairs l)).flatMap unpair
  | 0, [], _ => rfl
  | 0, [_], _ => rfl
  | 0, [_, _], _ => rfl
  | 0, _ :: _ :: _ :: _, hl => absurd hl (by simp)
  | h + 1, l, hl => by
    have hlen := length_pairs l
    have hpow : 2 ^ (h + 1) = 2 * 2 ^ h := Nat.pow_succ'
    have hpow' : 2 ^ (h + 1 + 1) = 2 * 2 ^ (h + 1) := Nat.pow_succ'
    rcases le_or_gt l.length (2 ^ (h + 1)) with hle | hlt
    · rw [complete_of_le hle, complete_succ hle, complete_of_le (by omega), List.flatMap_append]
    · have htake : (l.take (2 ^ (h + 1))).length % 2 = 0 := by
        rw [List.length_take]
        omega
      rw [complete_of_lt hlt, complete_succ (by rw [List.length_drop]; omega),
        complete_of_lt (by omega), List.flatMap_append, hpow, pairs_drop, ← pairs_take, ← hpow,
        flatMap_unpair_pairs htake]

theorem eq_of_complete_eq {h : ℕ} {l m : List α} (hlen : l.length = m.length)
    (heq : complete h l = complete h m) : l = m := by
  have hm : m <+: complete h l := heq ▸ prefix_complete h m
  exact (List.prefix_of_prefix_length_le (prefix_complete h l) hm hlen.le).eq_of_length hlen

/-! ### All levels -/

section
variable (f : α × α → α)

def level (l : List α) : List α :=
  (pairs l).map f

/-- The pairs that `h` levels combine. -/
def nodes : ℕ → List α → List (α × α)
  | 0, _ => []
  | h + 1, l => pairs l ++ nodes h (level f l)

/-- The last level of a non-empty list, of one value. -/
def top (l : List α) : List α :=
  (level f)^[Nat.clog 2 l.length] l

/-- The level at height `h` below the last one, counted from there. -/
def cut (h : ℕ) (l : List α) : List α :=
  (level f)^[Nat.clog 2 l.length - h] l

variable {f}

theorem length_level (l : List α) : (level f l).length = (l.length + 1) / 2 := by
  rw [level, List.length_map, length_pairs]

theorem length_level_le {h : ℕ} {l : List α} (hl : l.length ≤ 2 ^ (h + 1)) :
    (level f l).length ≤ 2 ^ h := by
  rw [Nat.pow_succ] at hl
  rw [length_level]
  omega

theorem length_iterate_level_le_iff {k m : ℕ} {l : List α} :
    ((level f)^[k] l).length ≤ m ↔ l.length ≤ 2 ^ k * m := by
  induction k generalizing l with
  | zero => simp
  | succ k ih =>
    rw [Function.iterate_succ_apply, ih, length_level, Nat.pow_succ', Nat.mul_assoc]
    omega

/-- Halving and rounding up `k` times is dividing by `2 ^ k` and rounding up. -/
theorem length_iterate_level (k : ℕ) (l : List α) :
    ((level f)^[k] l).length = l.length ⌈/⌉ 2 ^ k :=
  eq_of_forall_ge_iff fun m => by
    rw [length_iterate_level_le_iff, ceilDiv_le_iff_le_mul (Nat.two_pow_pos k)]

theorem length_iterate_level_le {k h : ℕ} {l : List α} (hl : l.length ≤ 2 ^ (k + h)) :
    ((level f)^[k] l).length ≤ 2 ^ h := by
  rwa [length_iterate_level_le_iff, ← Nat.pow_add]

theorem iterate_level_ne_nil : ∀ {k : ℕ} {l : List α}, l ≠ [] → (level f)^[k] l ≠ []
  | 0, l, hl => hl
  | k + 1, l, hl => by
    have := List.length_pos_iff.2 hl
    rw [Function.iterate_succ_apply]
    refine iterate_level_ne_nil (List.ne_nil_of_length_pos ?_)
    rw [length_level]
    omega

theorem clog_length_level {l : List α} (hl : 1 < l.length) :
    Nat.clog 2 l.length = Nat.clog 2 (level f l).length + 1 := by
  rw [Nat.clog_of_one_lt Nat.one_lt_two hl, length_level]
  rfl

theorem top_level {l : List α} (hl : 1 < l.length) : top f (level f l) = top f l := by
  rw [top, top, clog_length_level (f := f) hl, Function.iterate_succ_apply]

theorem top_of_length_le_one {l : List α} (hl : l.length ≤ 1) : top f l = l := by
  rw [top, Nat.clog_of_right_le_one hl, Function.iterate_zero_apply]

theorem exists_top_eq {l : List α} (hl : l ≠ []) : ∃ a, top f l = [a] := by
  have hle : (top f l).length ≤ 2 ^ 0 := length_iterate_level_le (Nat.le_pow_clog Nat.one_lt_two _)
  have hpos : 0 < (top f l).length := List.length_pos_iff.2 (iterate_level_ne_nil hl)
  exact List.length_eq_one_iff.1 (by omega)

theorem length_cut_le (h : ℕ) (l : List α) : (cut f h l).length ≤ 2 ^ h := by
  refine length_iterate_level_le ((Nat.le_pow_clog Nat.one_lt_two _).trans ?_)
  exact Nat.pow_le_pow_right Nat.two_pos (by omega)

theorem iterate_cut {h : ℕ} {l : List α} (hh : h ≤ Nat.clog 2 l.length) :
    (level f)^[h] (cut f h l) = top f l := by
  rw [cut, ← Function.iterate_add_apply, Nat.add_sub_cancel' hh, top]

theorem nodes_add : ∀ (k h : ℕ) (l : List α),
    nodes f (k + h) l = nodes f k l ++ nodes f h ((level f)^[k] l)
  | 0, h, l => by simp [nodes]
  | k + 1, h, l => by
    rw [Nat.succ_add, nodes, nodes, nodes_add k h, List.append_assoc, Function.iterate_succ_apply]

theorem nodes_cut_subset {h : ℕ} {l : List α} (hh : h ≤ Nat.clog 2 l.length) :
    nodes f h (cut f h l) ⊆ nodes f (Nat.clog 2 l.length) l := by
  have hnodes := nodes_add (f := f) (Nat.clog 2 l.length - h) h l
  rw [Nat.sub_add_cancel hh] at hnodes
  rw [hnodes]
  exact List.subset_append_right _ _

/-- What holds of the leaves and of every value of `f` holds of both sides of every node. -/
theorem forall_mem_nodes {P : α → Prop} (hf : ∀ p, P (f p)) : ∀ {h : ℕ} {l : List α},
    (∀ a ∈ l, P a) → ∀ p ∈ nodes f h l, P p.1 ∧ P p.2
  | 0, l, hl => by simp [nodes]
  | h + 1, l, hl => by
    intro p hp
    rcases List.mem_append.1 hp with hp | hp
    · exact forall_mem_pairs hl p hp
    · refine forall_mem_nodes hf (fun a ha => ?_) p hp
      obtain ⟨q, -, rfl⟩ := List.mem_map.1 ha
      exact hf q

/-! ### The last level from its two halves -/

theorem level_take (k : ℕ) (l : List α) : level f (l.take (2 * k)) = (level f l).take k := by
  rw [level, pairs_take, List.map_take, level]

theorem level_drop (k : ℕ) (l : List α) : level f (l.drop (2 * k)) = (level f l).drop k := by
  rw [level, pairs_drop, List.map_drop, level]

theorem iterate_level_take : ∀ (h k : ℕ) (l : List α),
    (level f)^[h] (l.take (2 ^ h * k)) = ((level f)^[h] l).take k
  | 0, k, l => by simp
  | h + 1, k, l => by
    rw [Function.iterate_succ_apply, Function.iterate_succ_apply, Nat.pow_succ', Nat.mul_assoc,
      level_take, iterate_level_take h k]

theorem iterate_level_drop : ∀ (h k : ℕ) (l : List α),
    (level f)^[h] (l.drop (2 ^ h * k)) = ((level f)^[h] l).drop k
  | 0, k, l => by simp
  | h + 1, k, l => by
    rw [Function.iterate_succ_apply, Function.iterate_succ_apply, Nat.pow_succ', Nat.mul_assoc,
      level_drop, iterate_level_drop h k]

theorem iterate_level_append (h : ℕ) (l : List α) :
    (level f)^[h] l = (level f)^[h] (l.take (2 ^ h)) ++ (level f)^[h] (l.drop (2 ^ h)) := by
  have htake := iterate_level_take (f := f) h 1 l
  have hdrop := iterate_level_drop (f := f) h 1 l
  rw [Nat.mul_one] at htake hdrop
  rw [htake, hdrop, List.take_append_drop]

theorem iterate_level_singleton : ∀ (k : ℕ) (a : α),
    (level f)^[k] [a] = [(fun x => f (x, x))^[k] a]
  | 0, a => rfl
  | k + 1, a => by
    rw [Function.iterate_succ_apply, Function.iterate_succ_apply]
    exact iterate_level_singleton k _

/-- Above its last level a tree goes on with one value, which every level pairs with itself. -/
theorem iterate_level_eq {h : ℕ} {l : List α} {a : α} (hl : l.length ≤ 2 ^ h)
    (ha : top f l = [a]) :
    (level f)^[h] l = [(fun x => f (x, x))^[h - Nat.clog 2 l.length] a] := by
  have hclog : Nat.clog 2 l.length ≤ h := Nat.clog_le_of_le_pow hl
  calc (level f)^[h] l
      = (level f)^[h - Nat.clog 2 l.length] (top f l) := by
        rw [top, ← Function.iterate_add_apply, Nat.sub_add_cancel hclog]
    _ = _ := by rw [ha, iterate_level_singleton]

/-- The left half of a tree is full; what is missing on the right is made up for above it. -/
theorem top_split {h : ℕ} {l : List α} {a b : α} (hlt : 2 ^ h < l.length)
    (hle : l.length ≤ 2 ^ (h + 1)) (ha : top f (l.take (2 ^ h)) = [a])
    (hb : top f (l.drop (2 ^ h)) = [b]) :
    top f l = [f (a, (fun x => f (x, x))^[h - Nat.clog 2 (l.length - 2 ^ h)] b)] := by
  have hclog : Nat.clog 2 l.length = h + 1 :=
    Nat.le_antisymm (Nat.clog_le_of_le_pow hle) ((Nat.lt_clog_iff_pow_lt Nat.one_lt_two).2 hlt)
  have hleft : (l.take (2 ^ h)).length = 2 ^ h := by
    rw [List.length_take]
    omega
  have hright : (l.drop (2 ^ h)).length ≤ 2 ^ h := by
    rw [Nat.pow_succ] at hle
    rw [List.length_drop]
    omega
  rw [top, hclog, Function.iterate_succ_apply', iterate_level_append, iterate_level_eq hleft.le ha,
    iterate_level_eq hright hb, hleft, Nat.clog_pow 2 h Nat.one_lt_two, Nat.sub_self,
    List.length_drop]
  rfl

/-! ### What the last level tells of the first -/

theorem iterate_complete : ∀ {h : ℕ} {l : List α}, l.length ≤ 2 ^ h →
    (level f)^[h] (complete h l) = (level f)^[h] l
  | 0, l, _ => rfl
  | h + 1, l, hl =>
    calc (level f)^[h + 1] (complete (h + 1) l)
        = (level f)^[h] ((complete h (pairs l)).map f) := by
          rw [complete_succ hl, Function.iterate_succ_apply, level, pairs_flatMap_unpair]
      _ = (level f)^[h] (complete h (level f l)) := by rw [← complete_map, level]
      _ = (level f)^[h] (level f l) := iterate_complete (length_level_le hl)

theorem eq_or_collision_of_map_eq {g : α → β} : ∀ {l m : List α}, l.map g = m.map g →
    l = m ∨ ∃ p ∈ l, ∃ q ∈ m, p ≠ q ∧ g p = g q
  | [], [], _ => .inl rfl
  | [], _ :: _, h => by simp at h
  | _ :: _, [], h => by simp at h
  | a :: l, b :: m, h => by
    simp only [List.map_cons, List.cons.injEq] at h
    by_cases hab : a = b
    · subst hab
      refine (eq_or_collision_of_map_eq h.2).imp (congrArg _) ?_
      rintro ⟨p, hp, q, hq, hpq⟩
      exact ⟨p, List.mem_cons_of_mem _ hp, q, List.mem_cons_of_mem _ hq, hpq⟩
    · exact .inr ⟨a, List.mem_cons_self, b, List.mem_cons_self, hab, h.1⟩

/-- From the top down: where the values of a level agree, the pairs below agree or collide. -/
theorem complete_eq_or_collision : ∀ {h : ℕ} {l m : List α}, l.length ≤ 2 ^ h → m.length ≤ 2 ^ h →
    (level f)^[h] l = (level f)^[h] m →
    complete h l = complete h m ∨ ∃ p ∈ nodes f h l, ∃ q ∈ nodes f h m, p ≠ q ∧ f p = f q
  | 0, l, m, _, _, heq => .inl heq
  | h + 1, l, m, hl, hm, heq => by
    rw [complete_succ hl, complete_succ hm]
    rcases complete_eq_or_collision (length_level_le hl) (length_level_le hm) heq with
      heq | ⟨p, hp, q, hq, hpq⟩
    · rw [level, level, complete_map, complete_map] at heq
      refine (eq_or_collision_of_map_eq heq).imp (congrArg _) ?_
      rintro ⟨p, hp, q, hq, hpq⟩
      exact ⟨p, List.mem_append_left _ (mem_of_mem_complete hp), q,
        List.mem_append_left _ (mem_of_mem_complete hq), hpq⟩
    · exact .inr ⟨p, List.mem_append_right _ hp, q, List.mem_append_right _ hq, hpq⟩

variable {h : ℕ} {l m : List α}

theorem top_eq_of_complete_cut_eq (hl : h ≤ Nat.clog 2 l.length) (hm : h ≤ Nat.clog 2 m.length)
    (heq : complete h (cut f h l) = complete h (cut f h m)) : top f l = top f m := by
  rw [← iterate_cut hl, ← iterate_cut hm, ← iterate_complete (length_cut_le h l), heq,
    iterate_complete (length_cut_le h m)]

theorem complete_cut_eq_or_collision (hl : h ≤ Nat.clog 2 l.length) (hm : h ≤ Nat.clog 2 m.length)
    (heq : top f l = top f m) :
    complete h (cut f h l) = complete h (cut f h m) ∨
      ∃ p ∈ nodes f (Nat.clog 2 l.length) l, ∃ q ∈ nodes f (Nat.clog 2 m.length) m,
        p ≠ q ∧ f p = f q := by
  rw [← iterate_cut hl, ← iterate_cut hm] at heq
  refine (complete_eq_or_collision (length_cut_le h l) (length_cut_le h m) heq).imp_right ?_
  rintro ⟨p, hp, q, hq, hpq⟩
  exact ⟨p, nodes_cut_subset hl hp, q, nodes_cut_subset hm hq, hpq⟩

end
end HashTree
