import BlockchainMessaging.Blockchain

/-!
# What `reachConsensus` decides

The votes of a pool depend on the block only through its validity and through whether it has a
FINANCIAL transaction, on a validator only through its type. So the count has a closed form in each
case, and the percentage turns into an inequality between lengths.
-/

namespace BlockchainMessaging

def Block.HasFinancial (block : Block) : Prop :=
  ∃ tx ∈ block.transactions, tx.type = .financial

instance (block : Block) : Decidable block.HasFinancial :=
  inferInstanceAs (Decidable (∃ tx ∈ block.transactions, tx.type = .financial))

namespace Blockchain
variable {E : Env} {bc : Blockchain} {block : Block}

/-- The validators that vote on the block. -/
def pool (bc : Blockchain) (block : Block) : List Validator :=
  if block.HasFinancial then bc.financialValidators else bc.messageValidators

theorem foldl_collectVote (validators : List Validator) (approvals count : ℕ) :
    validators.foldl (collectVote E block) (approvals, count) =
      (approvals + validators.countP fun v => v.validateBlock E block, count + validators.length) := by
  induction validators generalizing approvals count with
  | nil => rfl
  | cons v vs ih =>
    rw [List.foldl_cons, collectVote, ih, List.countP_cons, List.length_cons]
    split
    · simp only [Prod.mk.injEq]; omega
    · simp only [Prod.mk.injEq]; omega

theorem reachConsensus_eq_reaches :
    bc.reachConsensus E block =
      Quorum.reaches
        (Quorum.percentage ((bc.pool block).countP fun v => v.validateBlock E block)
          (bc.pool block).length) bc.consensusThreshold := by
  have hpool : (if block.transactions.any (fun tx => tx.type = .financial) = true
      then bc.financialValidators else bc.messageValidators) = bc.pool block := by
    refine if_congr ?_ rfl rfl
    simp [Block.HasFinancial]
  unfold reachConsensus
  simp only [hpool, foldl_collectVote, Nat.zero_add]

/-! ### The number of approvals -/

theorem countP_of_not_isValid (h : block.isValid E = false) (vs : List Validator) :
    (vs.countP fun v => v.validateBlock E block) = 0 := by
  rw [List.countP_eq_zero]
  intro v _ hv
  rw [Validator.validateBlock_iff, h] at hv
  exact absurd hv.1 Bool.false_ne_true

theorem countP_of_not_hasFinancial (h : block.isValid E = true) (hfin : ¬ block.HasFinancial)
    (vs : List Validator) : (vs.countP fun v => v.validateBlock E block) = vs.length := by
  rw [List.countP_eq_length]
  exact fun v _ => Validator.validateBlock_iff.2 ⟨h, fun hf => absurd hf hfin⟩

theorem countP_of_hasFinancial (h : block.isValid E = true) (hfin : block.HasFinancial)
    (vs : List Validator) :
    (vs.countP fun v => v.validateBlock E block) = vs.countP fun v => v.type ≠ .message := by
  refine List.countP_congr fun v _ => ?_
  rw [Validator.validateBlock_iff, decide_eq_true_eq]
  exact ⟨fun hv => hv.2 hfin, fun hv => ⟨h, fun _ => hv⟩⟩

end Blockchain

/-- `reachConsensus` is true exactly when the block is valid, the selected pool is not empty and, for
a block with a FINANCIAL transaction, three quarters of the financial pool may vote on it. -/
theorem reachConsensus_iff (E : Env) (bc : Blockchain) (block : Block)
    (hthr : bc.consensusThreshold = 75) :
    bc.reachConsensus E block = true ↔
      block.isValid E = true ∧ bc.pool block ≠ [] ∧
        (block.HasFinancial →
          3 * bc.financialValidators.length ≤
            4 * bc.financialValidators.countP fun v => v.type ≠ .message) := by
  rw [Blockchain.reachConsensus_eq_reaches, Quorum.reaches_percentage, hthr, ne_eq,
    List.length_eq_zero_iff]
  cases hvalid : block.isValid E with
  | false =>
    have hlen : bc.pool block ≠ [] → 0 < (bc.pool block).length := List.length_pos_iff.2
    rw [Blockchain.countP_of_not_isValid hvalid]
    simp only [Bool.false_eq_true, false_and, iff_false, not_and]
    intro hne hle
    have := hlen hne
    omega
  | true =>
    by_cases hfin : block.HasFinancial
    · have hpool : bc.pool block = bc.financialValidators := if_pos hfin
      rw [hpool, Blockchain.countP_of_hasFinancial hvalid hfin]
      simp only [true_and, hfin, forall_const]
      exact and_congr_right fun _ => by omega
    · rw [Blockchain.countP_of_not_hasFinancial hvalid hfin]
      simp only [true_and, hfin, false_imp_iff, and_true, and_iff_left_iff_imp]
      exact fun _ => by omega

theorem reachConsensus_iff_sample :
    Sample.blockchain.reachConsensus Sample.env (Sample.block [Sample.payment "bob" 10]) = true :=
  (reachConsensus_iff Sample.env Sample.blockchain (Sample.block [Sample.payment "bob" 10]) rfl).2
    ⟨by decide +kernel, by decide +kernel, fun _ => by decide +kernel⟩

end BlockchainMessaging
