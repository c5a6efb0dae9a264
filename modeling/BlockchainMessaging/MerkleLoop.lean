import BlockchainMessaging.Hash
import BlockchainMessaging.Lib.While

/-!
# The `while` loop of `calculateMerkleRoot`, turn by turn

`merkleTurn` is the body of the loop, with the index of the inner loop. The hash pushed once more
onto an odd `tree` keeps `tree[i + 1]` inside, and `newLevel` has half the size of `tree`, rounded
up: neither stands in a loop condition.
-/

namespace BlockchainMessaging.HashUtils
open HashTree While

/-- The inner loop from `i` on; `none` when `tree[i]` or `tree[i + 1]` is past the end. -/
def innerLoop (doubleHash : Bytes → Bytes) (tree : List Bytes) (i : ℕ) (newLevel : List Bytes) :
    Option (List Bytes) :=
  if i < tree.length then do
    let left ← tree[i]?
    let right ← tree[i + 1]?
    innerLoop doubleHash tree (i + 2) (newLevel ++ [doubleHash (left ++ right)])
  else some newLevel
termination_by tree.length - i

def merkleTurn (doubleHash : Bytes → Bytes) (tree : List Bytes) : Option (List Bytes) := do
  let tree ← padLevel tree
  innerLoop doubleHash tree 0 []

/-- A turn from a state of the loop; `none` is the loop stuck at an access past the end. -/
def merkleStep (doubleHash : Bytes → Bytes) (s : Option (List Bytes)) : Option (List Bytes) :=
  s.bind (merkleTurn doubleHash)

/-- The test `tree.size() > 1` fails, or the loop is stuck. -/
def MerkleDone : Option (List Bytes) → Prop
  | none => True
  | some tree => ¬ tree.length > 1

instance : DecidablePred MerkleDone
  | none => inferInstanceAs (Decidable True)
  | some tree => inferInstanceAs (Decidable (¬ tree.length > 1))

/-- Whenever the inner loop runs on `tree`, with its last hash pushed once more if its size is odd,
`i + 1` is an index. -/
def InRange (tree : List Bytes) : Prop :=
  ∃ padded, padLevel tree = some padded ∧
    ∀ i, i % 2 = 0 → i < padded.length → i + 1 < padded.length

variable {doubleHash : Bytes → Bytes}

theorem inRange (tree : List Bytes) : InRange tree := by
  obtain ⟨padded, hpadded, heven, -⟩ := exists_padLevel tree
  exact ⟨padded, hpadded, fun i hi hlt => by omega⟩

/-- Of an even `tree` the inner loop makes the next level, from any even index on. -/
theorem innerLoop_eq {tree : List Bytes} (heven : tree.length % 2 = 0) {i : ℕ} (hi : i % 2 = 0)
    (newLevel : List Bytes) :
    innerLoop doubleHash tree i newLevel =
      some (newLevel ++ level (node doubleHash) (tree.drop i)) := by
  rw [innerLoop]
  split_ifs with hlt
  · have hlt' : i + 1 < tree.length := by omega
    rw [List.getElem?_eq_getElem hlt, List.getElem?_eq_getElem hlt', Option.bind_eq_bind,
      Option.bind_some, Option.bind_some, innerLoop_eq heven (by omega),
      List.drop_eq_getElem_cons hlt, List.drop_eq_getElem_cons hlt', List.append_assoc]
    rfl
  · rw [List.drop_eq_nil_of_le (not_lt.1 hlt), level, pairs, List.map_nil, List.append_nil]
termination_by tree.length - i

theorem merkleTurn_eq (tree : List Bytes) :
    merkleTurn doubleHash tree = some (level (node doubleHash) tree) := by
  obtain ⟨padded, hpadded, heven, hpairs⟩ := exists_padLevel tree
  rw [merkleTurn, hpadded, Option.bind_eq_bind, Option.bind_some, innerLoop_eq heven rfl,
    List.drop_zero, List.nil_append, level, hpairs, level]

theorem iterate_merkleStep (k : ℕ) (tree : List Bytes) :
    (merkleStep doubleHash)^[k] (some tree) = some ((level (node doubleHash))^[k] tree) := by
  induction k generalizing tree with
  | zero => rfl
  | succ k ih =>
    rw [Function.iterate_succ_apply, merkleStep, Option.bind_some, merkleTurn_eq, ih,
      Function.iterate_succ_apply]

/-- The loop of `calculateMerkleRoot` makes these turns. -/
theorem merkleLoop_eq_loop (fuel : ℕ) (tree : List Bytes) :
    merkleLoop doubleHash fuel tree =
      (loop (merkleStep doubleHash) MerkleDone fuel (some tree)).join := by
  induction fuel generalizing tree with
  | zero =>
    rw [merkleLoop]
    split_ifs with hlt
    · have hnot : ¬ MerkleDone (some tree) := not_not.2 hlt
      rw [loop, if_neg hnot]
      rfl
    · rw [loop_of_done (show MerkleDone (some tree) from hlt)]
      rfl
  | succ fuel ih =>
    rw [merkleLoop]
    split_ifs with hlt
    · have hnot : ¬ MerkleDone (some tree) := not_not.2 hlt
      rw [loop_succ_of_not_done hnot, merkleStep, Option.bind_some, merkleTurn_eq, ← ih,
        levelStrings_eq, Option.bind_some, map_concat_eq_level]
    · rw [loop_of_done (show MerkleDone (some tree) from hlt)]
      rfl

theorem merkleDone_iterate_iff (k : ℕ) (tree : List Bytes) :
    MerkleDone ((merkleStep doubleHash)^[k] (some tree)) ↔ Nat.clog 2 tree.length ≤ k := by
  rw [iterate_merkleStep, Nat.clog_le_iff_le_pow Nat.one_lt_two, MerkleDone, not_lt,
    length_iterate_level_le_iff, Nat.mul_one]

theorem firstDone_merkleStep_iff (k : ℕ) (tree : List Bytes) :
    FirstDone (merkleStep doubleHash) MerkleDone (some tree) k ↔ k = Nat.clog 2 tree.length := by
  simp only [FirstDone, merkleDone_iterate_iff, not_le]
  constructor
  · rintro ⟨hle, hlt⟩
    refine hle.antisymm' (not_lt.1 fun h => ?_)
    exact lt_irrefl _ (hlt _ h)
  · rintro rfl
    exact ⟨le_rfl, fun j hj => hj⟩

/-- On a list of `n` transactions, not empty, the loop ends after `⌈log₂ n⌉` turns. The sizes at its
tests are `n`, `⌈n / 2⌉`, `⌈n / 4⌉` and so on, no access is past the end, and one hash is left,
the root. -/
theorem merkleLoop_turns (hash doubleHash : Bytes → Bytes) (transactions : List Bytes)
    (h : transactions ≠ []) :
    (∀ k, FirstDone (merkleStep doubleHash) MerkleDone (some transactions) k ↔
      k = Nat.clog 2 transactions.length) ∧
    (∀ k ≤ Nat.clog 2 transactions.length, ∃ tree,
      (merkleStep doubleHash)^[k] (some transactions) = some tree ∧
        tree.length = transactions.length ⌈/⌉ 2 ^ k ∧ InRange tree) ∧
    ∃ root, (merkleStep doubleHash)^[Nat.clog 2 transactions.length] (some transactions) =
        some [root] ∧ calculateMerkleRoot hash doubleHash transactions = some root := by
  refine ⟨fun k => firstDone_merkleStep_iff k transactions, fun k _ => ?_, ?_⟩
  · exact ⟨_, iterate_merkleStep k transactions, length_iterate_level k transactions, inRange _⟩
  · obtain ⟨root, htop, hroot⟩ := exists_root hash doubleHash h
    refine ⟨root, ?_, hroot⟩
    rw [iterate_merkleStep, ← top, htop]

theorem merkleLoop_turns_three :
    FirstDone (merkleStep id) MerkleDone (some [ascii "a", ascii "b", ascii "c"]) 2 :=
  ((merkleLoop_turns id id [ascii "a", ascii "b", ascii "c"] (List.cons_ne_nil _ _)).1 2).2
    (by decide)

end BlockchainMessaging.HashUtils
