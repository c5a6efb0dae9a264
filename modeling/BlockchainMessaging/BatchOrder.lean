import BlockchainMessaging.Renaming

/-!
# The order within a block

A payment is checked against the balances from before its block, and what a block moves is a sum. So
the order in which the transactions of a block stand does not count, nor does the order in which the
validators of a pool vote: it shows in the hashes, and there only.
-/

namespace BlockchainMessaging
open Machine

/-- The same batch in another order, at another time. -/
structure Batch.Reordered (b b' : Batch) : Prop where
  transactions : b.transactions.Perm b'.transactions
  messageValidators : b.messageValidators.Perm b'.messageValidators
  financialValidators : b.financialValidators.Perm b'.financialValidators

/-- The parties keep their names, and the amounts their unit. -/
theorem Batch.Reordered.alike {b b' : Batch} (h : b.Reordered b') (E : Env) : b.Alike E id 1 b' where
  transactions := ⟨b'.transactions, h.transactions,
    List.forall₂_same.2 fun tx _ => ⟨rfl, rfl, rfl, (one_mul tx.amount).symm, rfl⟩⟩
  messageValidators := h.messageValidators
  financialValidators := h.financialValidators

/-- Two blockchains grow by the same batches, each behind its own latest block, but the transactions of
every batch stand in any order in their two blocks, the validators in any order in their pools, and
the clocks are any. Every call of `addBlock` then returns or throws the same on both, and the balances
and the lengths of the chains stay the same. -/
theorem run_reordered (E : Env) (now now' : ℤ) (batches batches' : List Batch)
    (h : List.Forall₂ Batch.Reordered batches batches') :
    let bc := run (Blockchain.addBatch E) (Blockchain.init E now) batches
    let bc' := run (Blockchain.addBatch E) (Blockchain.init E now') batches'
    (∀ a, bc.getBalance a = bc'.getBalance a) ∧ bc.chain.length = bc'.chain.length ∧
    outputs (Blockchain.addBatch E) (fun bc b => [bc.resultOf E b]) (Blockchain.init E now) batches =
      outputs (Blockchain.addBatch E) (fun bc b => [bc.resultOf E b]) (Blockchain.init E now')
        batches' := by
  intro bc bc'
  obtain ⟨hledger, hresults⟩ := SameLedger.run Function.injective_id one_pos
    (h.imp fun _ _ hb => hb.alike E) (SameLedger.init E id 1 now now')
  exact ⟨fun a => ((hledger.balances a).trans (one_mul _)).symm, hledger.length, hresults⟩

section
open Sample

/-- `alice` pays a negative amount, and then spends twice in one block what she has got by it. -/
theorem run_reordered_alice :
    let bc := run (Blockchain.addBatch env) (Blockchain.init env 1700000000)
      [batch 1700000060 [payment "bob" (-5)],
        batch 1700000120 [payment "bob" 5, payment "carol" 5]]
    let bc' := run (Blockchain.addBatch env) (Blockchain.init env 1700000001)
      [batch 1700000060 [payment "bob" (-5)],
        batch 1700000120 [payment "carol" 5, payment "bob" 5]]
    ∀ a, bc.getBalance a = bc'.getBalance a := by
  refine (run_reordered env 1700000000 1700000001 _ _ ?_).1
  refine .cons ⟨.refl _, .refl _, .refl _⟩ (.cons ⟨?_, .refl _, .refl _⟩ .nil)
  exact List.Perm.swap _ _ _

end

end BlockchainMessaging
