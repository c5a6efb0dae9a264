import BlockchainMessaging.Hash

/-!
# What a Merkle root binds

The root of a list is the root of the list with its padding written out, so it binds the list only
up to padding, and only if it is known at which level of the tree the list stands: neither the
number of transactions nor a mark on leaves or nodes enters the hash. `row` puts two lists on one
level.
-/

namespace BlockchainMessaging.HashUtils
open HashTree

/-- `doubleHash` has one value on two different strings of the list. -/
def Collision (doubleHash : Bytes → Bytes) (strings : List Bytes) : Prop :=
  ∃ s ∈ strings, ∃ t ∈ strings, s ≠ t ∧ doubleHash s = doubleHash t

instance (doubleHash : Bytes → Bytes) (strings : List Bytes) :
    Decidable (Collision doubleHash strings) :=
  inferInstanceAs (Decidable (∃ s ∈ strings, ∃ t ∈ strings, s ≠ t ∧ doubleHash s = doubleHash t))

def height (transactions : List Bytes) : ℕ :=
  Nat.clog 2 transactions.length

/-- The `2 ^ h` strings that the tree holds `h` levels below its root, padding written out. -/
def row (doubleHash : Bytes → Bytes) (h : ℕ) (transactions : List Bytes) : List Bytes :=
  complete h (cut (node doubleHash) h transactions)

section
variable {doubleHash : Bytes → Bytes} {l m : List Bytes}

theorem concat_injective_of_length {p q : Bytes × Bytes} (hp : p.1.length = 64)
    (hq : q.1.length = 64) (h : concat p = concat q) : p = q := by
  obtain ⟨h1, h2⟩ := List.append_inj h (hp.trans hq.symm)
  exact Prod.ext h1 h2

/-- Two different pairs of nodes are two different strings, since all nodes have 64 characters. -/
theorem collision_of_nodes (hD : ∀ s, (doubleHash s).length = 64) (hl : ∀ tx ∈ l, tx.length = 64)
    (hm : ∀ tx ∈ m, tx.length = 64)
    (h : ∃ p ∈ nodes (node doubleHash) (Nat.clog 2 l.length) l,
      ∃ q ∈ nodes (node doubleHash) (Nat.clog 2 m.length) m,
        p ≠ q ∧ node doubleHash p = node doubleHash q) :
    Collision doubleHash (hashedStrings doubleHash l ++ hashedStrings doubleHash m) := by
  obtain ⟨p, hp, q, hq, hne, heq⟩ := h
  have hp64 := (forall_mem_nodes (P := fun s => s.length = 64) (fun p => hD (concat p)) hl p hp).1
  have hq64 := (forall_mem_nodes (P := fun s => s.length = 64) (fun p => hD (concat p)) hm q hq).1
  refine ⟨concat p, List.mem_append_left _ ?_, concat q, List.mem_append_right _ ?_, ?_, heq⟩
  · rw [hashedStrings_eq]
    exact List.mem_map_of_mem hp
  · rw [hashedStrings_eq]
    exact List.mem_map_of_mem hq
  · exact fun hpq => hne (concat_injective_of_length hp64 hq64 hpq)

theorem calculateMerkleRoot_eq_iff (hash : Bytes → Bytes) (hl : l ≠ []) (hm : m ≠ []) :
    calculateMerkleRoot hash doubleHash l = calculateMerkleRoot hash doubleHash m ↔
      top (node doubleHash) l = top (node doubleHash) m := by
  obtain ⟨a, ha, hroot⟩ := exists_root hash doubleHash hl
  obtain ⟨b, hb, hroot'⟩ := exists_root hash doubleHash hm
  rw [hroot, hroot', ha, hb, Option.some_inj, List.singleton_inj]

theorem row_eq_or_collision (hD : ∀ s, (doubleHash s).length = 64)
    (hl : ∀ tx ∈ l, tx.length = 64) (hm : ∀ tx ∈ m, tx.length = 64)
    (heq : top (node doubleHash) l = top (node doubleHash) m) :
    row doubleHash (min (height l) (height m)) l = row doubleHash (min (height l) (height m)) m ∨
      Collision doubleHash (hashedStrings doubleHash l ++ hashedStrings doubleHash m) :=
  (complete_cut_eq_or_collision (min_le_left _ _) (min_le_right _ _) heq).imp_right
    (collision_of_nodes hD hl hm)

theorem row_of_height_eq {h : ℕ} (hl : height l = h) : row doubleHash h l = complete h l := by
  rw [row, cut, show Nat.clog 2 l.length = h from hl, Nat.sub_self, Function.iterate_zero_apply]

end

/-- Among lists of one length the root binds every entry and its place. -/
theorem merkleRoot_binds (hash doubleHash : Bytes → Bytes) (hD : ∀ s, (doubleHash s).length = 64)
    (l m : List Bytes) (hlen : l.length = m.length) (hl : ∀ tx ∈ l, tx.length = 64)
    (hm : ∀ tx ∈ m, tx.length = 64)
    (heq : calculateMerkleRoot hash doubleHash l = calculateMerkleRoot hash doubleHash m) :
    l = m ∨ Collision doubleHash (hashedStrings doubleHash l ++ hashedStrings doubleHash m) := by
  rcases eq_or_ne l [] with rfl | hne
  · exact .inl (List.eq_nil_of_length_eq_zero hlen.symm).symm
  have hne' : m ≠ [] := by
    rintro rfl
    exact hne (List.eq_nil_of_length_eq_zero hlen)
  have hheight : height l = height m := congrArg (Nat.clog 2) hlen
  refine (row_eq_or_collision hD hl hm ((calculateMerkleRoot_eq_iff hash hne hne').1 heq)).imp_left
    fun hrow => ?_
  rw [hheight, min_self, row_of_height_eq hheight, row_of_height_eq rfl] at hrow
  exact eq_of_complete_eq hlen hrow

/-- A function with results of 64 characters that looks at the last character only. -/
def Sample.lastHash (s : Bytes) : Bytes :=
  List.replicate 64 (s.getLastD 0 + 1)

def Sample.leaf (c : UInt8) : Bytes :=
  List.replicate 64 c

@[simp] theorem Sample.length_leaf (c : UInt8) : (leaf c).length = 64 :=
  List.length_replicate

theorem Sample.length_lastHash (s : Bytes) : (lastHash s).length = 64 :=
  List.length_replicate

theorem merkleRoot_binds_two :
    Collision Sample.lastHash
      (hashedStrings Sample.lastHash [Sample.leaf 97, Sample.leaf 98] ++
        hashedStrings Sample.lastHash [Sample.leaf 99, Sample.leaf 98]) :=
  (merkleRoot_binds Sample.lastHash Sample.lastHash Sample.length_lastHash
    [Sample.leaf 97, Sample.leaf 98] [Sample.leaf 99, Sample.leaf 98] rfl (by simp) (by simp)
    (by decide +kernel)).resolve_left (by decide +kernel)

/-! ### Lists of different lengths -/

/-- Across lengths the root binds the row of the lower tree's transactions, and only this row: a
list and the same list with part of its padding written out have one root, and so have a list of
node hashes and the list below it. -/
theorem merkleRoot_eq_iff_row (hash doubleHash : Bytes → Bytes)
    (hD : ∀ s, (doubleHash s).length = 64) (l m : List Bytes) (hl : l ≠ []) (hm : m ≠ [])
    (hl64 : ∀ tx ∈ l, tx.length = 64) (hm64 : ∀ tx ∈ m, tx.length = 64) :
    ∃ root₁ root₂, calculateMerkleRoot hash doubleHash l = some root₁ ∧
      calculateMerkleRoot hash doubleHash m = some root₂ ∧
      (row doubleHash (min (height l) (height m)) l =
        row doubleHash (min (height l) (height m)) m → root₁ = root₂) ∧
      (root₁ = root₂ →
        row doubleHash (min (height l) (height m)) l =
            row doubleHash (min (height l) (height m)) m ∨
          Collision doubleHash (hashedStrings doubleHash l ++ hashedStrings doubleHash m)) := by
  obtain ⟨root₁, h1⟩ := exists_calculateMerkleRoot hash doubleHash l
  obtain ⟨root₂, h2⟩ := exists_calculateMerkleRoot hash doubleHash m
  have hroots : root₁ = root₂ ↔ top (node doubleHash) l = top (node doubleHash) m := by
    rw [← calculateMerkleRoot_eq_iff hash hl hm, h1, h2, Option.some_inj]
  refine ⟨root₁, root₂, h1, h2, fun hrow => ?_, fun hroot => ?_⟩
  · exact hroots.2 (top_eq_of_complete_cut_eq (min_le_left _ _) (min_le_right _ _) hrow)
  · exact row_eq_or_collision hD hl64 hm64 (hroots.1 hroot)

/-- Three transactions, and the same three with the third one repeated. -/
theorem padding_written_out :
    ¬ ∀ (hash doubleHash : Bytes → Bytes), (∀ s, (doubleHash s).length = 64) →
      ∀ l m : List Bytes, l ≠ [] → m ≠ [] → l.length ≠ m.length →
        (∀ tx ∈ l, tx.length = 64) → (∀ tx ∈ m, tx.length = 64) →
        calculateMerkleRoot hash doubleHash l ≠ calculateMerkleRoot hash doubleHash m ∨
          Collision doubleHash (hashedStrings doubleHash l ++ hashedStrings doubleHash m) := by
  intro h
  rcases h Sample.lastHash Sample.lastHash Sample.length_lastHash
    [Sample.leaf 97, Sample.leaf 98, Sample.leaf 100]
    [Sample.leaf 97, Sample.leaf 98, Sample.leaf 100, Sample.leaf 100]
    (List.cons_ne_nil _ _) (List.cons_ne_nil _ _) (by simp) (by simp) (by simp) with h | h
  · revert h
    decide +kernel
  · revert h
    decide +kernel

theorem merkleRoot_eq_iff_row_padding :
    ∃ root₁ root₂,
      calculateMerkleRoot Sample.lastHash Sample.lastHash
          [Sample.leaf 97, Sample.leaf 98, Sample.leaf 100] = some root₁ ∧
        calculateMerkleRoot Sample.lastHash Sample.lastHash
          [Sample.leaf 97, Sample.leaf 98, Sample.leaf 100, Sample.leaf 100] = some root₂ ∧
        root₁ = root₂ := by
  obtain ⟨root₁, root₂, h1, h2, hroot, -⟩ := merkleRoot_eq_iff_row Sample.lastHash
    Sample.lastHash Sample.length_lastHash [Sample.leaf 97, Sample.leaf 98, Sample.leaf 100]
    [Sample.leaf 97, Sample.leaf 98, Sample.leaf 100, Sample.leaf 100] (List.cons_ne_nil _ _)
    (List.cons_ne_nil _ _) (by simp) (by simp)
  exact ⟨root₁, root₂, h1, h2, hroot (by decide +kernel)⟩

/-! ### The tree from its root down -/

theorem isGreatest_pow_log {n : ℕ} (hn : 2 ≤ n) :
    IsGreatest {p | p < n ∧ ∃ k, p = 2 ^ k} (2 ^ Nat.log 2 (n - 1)) := by
  have hle : 2 ^ Nat.log 2 (n - 1) ≤ n - 1 := Nat.pow_log_le_self 2 (by omega)
  refine ⟨⟨by omega, _, rfl⟩, ?_⟩
  rintro _ ⟨hlt, k, rfl⟩
  exact Nat.pow_le_pow_right Nat.two_pos (Nat.le_log_of_pow_le Nat.one_lt_two (by omega))

/-- The root from the roots of the first `2 ^ h` transactions and of the rest, where `2 ^ h` is the
largest power of two below the number of transactions. -/
theorem merkleRoot_split (hash doubleHash : Bytes → Bytes) (l : List Bytes) (hl : 2 ≤ l.length) :
    let h := Nat.log 2 (l.length - 1)
    IsGreatest {p | p < l.length ∧ ∃ k, p = 2 ^ k} (2 ^ h) ∧
      Nat.clog 2 (l.length - 2 ^ h) ≤ h ∧
      ∃ left right, calculateMerkleRoot hash doubleHash (l.take (2 ^ h)) = some left ∧
        calculateMerkleRoot hash doubleHash (l.drop (2 ^ h)) = some right ∧
        calculateMerkleRoot hash doubleHash l = some (doubleHash
          (left ++ (fun x => doubleHash (x ++ x))^[h - Nat.clog 2 (l.length - 2 ^ h)] right)) := by
  intro h
  have hmax := isGreatest_pow_log hl
  have hlt : 2 ^ h < l.length := hmax.1.1
  have hle : l.length ≤ 2 ^ (h + 1) := by
    have hlog : l.length - 1 < 2 ^ (h + 1) := Nat.lt_pow_succ_log_self Nat.one_lt_two _
    omega
  have hrest : l.length - 2 ^ h ≤ 2 ^ h := by
    rw [Nat.pow_succ] at hle
    omega
  have hpos : 0 < 2 ^ h := Nat.two_pow_pos h
  have hne : l ≠ [] := List.ne_nil_of_length_pos (by omega)
  have htake : l.take (2 ^ h) ≠ [] := by
    refine List.ne_nil_of_length_pos ?_
    rw [List.length_take]
    omega
  have hdrop : l.drop (2 ^ h) ≠ [] := by
    refine List.ne_nil_of_length_pos ?_
    rw [List.length_drop]
    omega
  obtain ⟨left, ha, hleft⟩ := exists_root hash doubleHash htake
  obtain ⟨right, hb, hright⟩ := exists_root hash doubleHash hdrop
  refine ⟨hmax, Nat.clog_le_of_le_pow hrest, left, right, hleft, hright, ?_⟩
  rw [calculateMerkleRoot_eq hash hne, top_split hlt hle ha hb]
  rfl

theorem merkleRoot_split_three :
    ∃ left right, calculateMerkleRoot Sample.lastHash Sample.lastHash
        ([Sample.leaf 97, Sample.leaf 98, Sample.leaf 99].take 2) = some left ∧
      calculateMerkleRoot Sample.lastHash Sample.lastHash
        ([Sample.leaf 97, Sample.leaf 98, Sample.leaf 99].drop 2) = some right ∧
      calculateMerkleRoot Sample.lastHash Sample.lastHash
        [Sample.leaf 97, Sample.leaf 98, Sample.leaf 99] =
          some (Sample.lastHash (left ++ Sample.lastHash (right ++ right))) :=
  (merkleRoot_split Sample.lastHash Sample.lastHash
    [Sample.leaf 97, Sample.leaf 98, Sample.leaf 99] (by simp)).2.2

end BlockchainMessaging.HashUtils
