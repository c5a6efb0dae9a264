import BlockchainMessaging.Text
import BlockchainMessaging.Lib.HashTree

/-!
# Merkle roots (`crypto/hash.hpp`, `crypto/hash.cpp`)

`hash` and `doubleHash` are those of `SHA256`, any functions. `none` is an access outside a vector,
or a `while` loop that outruns its fuel; `exists_calculateMerkleRoot` says that there is neither.
-/

namespace BlockchainMessaging.HashUtils
open HashTree

/-- `tree.push_back(tree.back())` when the size is odd. -/
def padLevel (tree : List Bytes) : Option (List Bytes) :=
  if tree.length % 2 ≠ 0 then tree.getLast?.map fun back => tree ++ [back] else some tree

/-- The values of `combined` in the inner loop, on the part of `tree` from `i` on. -/
def combined : List Bytes → Option (List Bytes)
  | [] => some []
  | [_] => none  -- `tree[i + 1]` is past the end
  | left :: right :: tree => (combined tree).map ((left ++ right) :: ·)

/-- The strings one turn of the `while` loop hashes, in order. -/
def levelStrings (tree : List Bytes) : Option (List Bytes) :=
  (padLevel tree).bind combined

def merkleLoop (doubleHash : Bytes → Bytes) : ℕ → List Bytes → Option (List Bytes)
  | 0, tree => if tree.length > 1 then none else some tree
  | fuel + 1, tree =>
    if tree.length > 1 then
      (levelStrings tree).bind fun strings => merkleLoop doubleHash fuel (strings.map doubleHash)
    else some tree

def calculateMerkleRoot (hash doubleHash : Bytes → Bytes) (transactions : List Bytes) :
    Option Bytes :=
  if transactions.isEmpty then some (hash (ascii ""))
  else (merkleLoop doubleHash transactions.length transactions).bind fun tree => tree[0]?

/-- What `merkleLoop` passes to `doubleHash`. -/
def loopStrings (doubleHash : Bytes → Bytes) : ℕ → List Bytes → List Bytes
  | 0, _ => []
  | fuel + 1, tree =>
    if tree.length > 1 then
      match levelStrings tree with
      | none => []
      | some strings => strings ++ loopStrings doubleHash fuel (strings.map doubleHash)
    else []

/-- What `calculateMerkleRoot` passes to `doubleHash`. -/
def hashedStrings (doubleHash : Bytes → Bytes) (transactions : List Bytes) : List Bytes :=
  loopStrings doubleHash transactions.length transactions

/-! ### The loop builds the tree -/

def concat (p : Bytes × Bytes) : Bytes :=
  p.1 ++ p.2

def node (doubleHash : Bytes → Bytes) (p : Bytes × Bytes) : Bytes :=
  doubleHash (concat p)

theorem combined_eq : ∀ {tree : List Bytes}, tree.length % 2 = 0 →
    combined tree = some ((pairs tree).map concat)
  | [], _ => rfl
  | [_], h => absurd h (by simp)
  | left :: right :: tree, h => by
    rw [combined, combined_eq (by simp at h; omega)]
    rfl

theorem exists_padLevel (tree : List Bytes) :
    ∃ padded, padLevel tree = some padded ∧ padded.length % 2 = 0 ∧ pairs padded = pairs tree := by
  unfold padLevel
  split_ifs with hodd
  · obtain ⟨back, hback⟩ := Option.isSome_iff_exists.1
      (List.getLast?_isSome.2 (show tree ≠ [] by rintro rfl; simp at hodd))
    refine ⟨tree ++ [back], by rw [hback]; rfl, ?_, pairs_append_getLast (by omega) hback⟩
    rw [List.length_append, List.length_singleton]
    omega
  · exact ⟨tree, rfl, by omega, rfl⟩

theorem levelStrings_eq (tree : List Bytes) :
    levelStrings tree = some ((pairs tree).map concat) := by
  obtain ⟨padded, hpadded, heven, hpairs⟩ := exists_padLevel tree
  rw [levelStrings, hpadded, Option.bind_some, combined_eq heven, hpairs]

variable {doubleHash : Bytes → Bytes}

theorem map_concat_eq_level (tree : List Bytes) :
    ((pairs tree).map concat).map doubleHash = level (node doubleHash) tree :=
  List.map_map

theorem merkleLoop_eq : ∀ {fuel : ℕ} {tree : List Bytes}, tree.length ≤ 2 ^ fuel →
    merkleLoop doubleHash fuel tree = some (top (node doubleHash) tree)
  | 0, tree, h => by
    rw [merkleLoop, if_neg (by simpa using h), top_of_length_le_one (by simpa using h)]
  | fuel + 1, tree, h => by
    rw [merkleLoop]
    split_ifs with hlt
    · rw [levelStrings_eq, Option.bind_some, map_concat_eq_level, merkleLoop_eq (length_level_le h),
        top_level hlt]
    · rw [top_of_length_le_one (by omega)]

theorem loopStrings_eq : ∀ {fuel : ℕ} {tree : List Bytes}, tree.length ≤ 2 ^ fuel →
    loopStrings doubleHash fuel tree =
      (nodes (node doubleHash) (Nat.clog 2 tree.length) tree).map concat
  | 0, tree, h => by
    rw [loopStrings, Nat.clog_of_right_le_one (by simpa using h)]
    rfl
  | fuel + 1, tree, h => by
    rw [loopStrings]
    split_ifs with hlt
    · simp only [levelStrings_eq, map_concat_eq_level]
      rw [loopStrings_eq (length_level_le h), clog_length_level (f := node doubleHash) hlt, nodes,
        List.map_append]
    · rw [Nat.clog_of_right_le_one (by omega)]
      rfl

theorem calculateMerkleRoot_eq (hash : Bytes → Bytes) {transactions : List Bytes}
    (h : transactions ≠ []) :
    calculateMerkleRoot hash doubleHash transactions =
      (top (node doubleHash) transactions)[0]? := by
  rw [calculateMerkleRoot, if_neg (by simpa using h), merkleLoop_eq Nat.lt_two_pow_self.le,
    Option.bind_some]

theorem hashedStrings_eq (transactions : List Bytes) :
    hashedStrings doubleHash transactions =
      (nodes (node doubleHash) (Nat.clog 2 transactions.length) transactions).map concat :=
  loopStrings_eq Nat.lt_two_pow_self.le

/-- The root is the one value of the last level. -/
theorem exists_root (hash doubleHash : Bytes → Bytes) {transactions : List Bytes}
    (h : transactions ≠ []) :
    ∃ root, top (node doubleHash) transactions = [root] ∧
      calculateMerkleRoot hash doubleHash transactions = some root := by
  obtain ⟨root, hroot⟩ := exists_top_eq (f := node doubleHash) h
  refine ⟨root, hroot, ?_⟩
  rw [calculateMerkleRoot_eq hash h, hroot]
  rfl

/-- The computation of a root ends, inside its vectors. -/
theorem exists_calculateMerkleRoot (hash doubleHash : Bytes → Bytes) (transactions : List Bytes) :
    ∃ root, calculateMerkleRoot hash doubleHash transactions = some root := by
  by_cases h : transactions = []
  · exact ⟨hash (ascii ""), if_pos (by simpa using h)⟩
  · obtain ⟨root, -, hroot⟩ := exists_root hash doubleHash h
    exact ⟨root, hroot⟩

end BlockchainMessaging.HashUtils
