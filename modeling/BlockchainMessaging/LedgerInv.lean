import BlockchainMessaging.ReachConsensus

/-!
# Balances and the chain

`Blockchain.transfers` is the chain read as a list of transfers. The balance of an account minus
what these transfers did to it never changes (`opening_step`), so the balances are the opening
balances with the chain posted on top. From this follow what a call may do to the sign of the
balances, and how often a transaction is posted.
-/

namespace BlockchainMessaging
open Machine Ledger

namespace Blockchain

/-- The FINANCIAL transactions in the blocks of the chain, in order. -/
def financial (bc : Blockchain) : List Transaction :=
  bc.chain.flatMap Block.financial

def transfers (bc : Blockchain) : List (Transfer Bytes Amount) :=
  bc.financial.map Transaction.transfer

/-- What is left of a balance when the chain is taken back. -/
def opening (bc : Blockchain) (a : Bytes) : Amount :=
  bc.getBalance a - net bc.transfers a

variable {E : Env} {bc : Blockchain} {block : Block} {o : Offer}

theorem financial_pushBlock : (bc.pushBlock block).financial = bc.financial ++ block.financial := by
  simp [financial]

theorem transfers_pushBlock : (bc.pushBlock block).transfers = bc.transfers ++ block.transfers := by
  rw [transfers, financial_pushBlock, List.map_append]
  rfl

theorem opening_pushBlock (a : Bytes) : (bc.pushBlock block).opening a = bc.opening a := by
  rw [opening, opening, getBalance_pushBlock, transfers_pushBlock, net_append]
  abel

theorem opening_step (a : Bytes) : (bc.step E o).opening a = bc.opening a := by
  rcases step_cases E bc o with ⟨-, heq⟩ | ⟨-, heq⟩ <;> rw [heq]
  · rw [opening_pushBlock]
    rfl
  · rfl

theorem total_step : (bc.step E o).accountBalances.total = bc.accountBalances.total := by
  rcases step_cases E bc o with ⟨-, heq⟩ | ⟨-, heq⟩ <;> rw [heq]
  · rw [total_pushBlock]
    rfl
  · rfl

theorem opening_run (bc : Blockchain) (offers : List Offer) (a : Bytes) :
    (run (Blockchain.step E) bc offers).opening a = bc.opening a :=
  run_eq (fun s => s.opening a) (fun _ _ => opening_step a) bc offers

theorem total_run (bc : Blockchain) (offers : List Offer) :
    (run (Blockchain.step E) bc offers).accountBalances.total = bc.accountBalances.total :=
  run_eq (fun s => s.accountBalances.total) (fun _ _ => total_step) bc offers

theorem opening_of_financial_nil (h : bc.financial = []) (a : Bytes) :
    bc.opening a = bc.getBalance a := by
  simp [opening, transfers, h]

theorem getBalance_run_of_financial_nil (h : bc.financial = []) (offers : List Offer) (a : Bytes) :
    (run (Blockchain.step E) bc offers).getBalance a =
      bc.getBalance a + net (run (Blockchain.step E) bc offers).transfers a := by
  rw [← opening_of_financial_nil h, ← opening_run (E := E) bc offers a, opening]
  abel

end Blockchain

/-- The ledger of a fresh blockchain is its chain replayed: over any calls, returning or throwing,
every balance is the net effect of the FINANCIAL transactions of the chain, money is neither made
nor lost, and a call that throws changes neither the chain nor a balance. -/
theorem ledger_of_run (E : Env) (now : ℤ) (offers : List Offer) :
    let bc := run (Blockchain.step E) (Blockchain.init E now) offers
    (∀ a, bc.getBalance a =
      (bc.financial.map fun tx =>
        (if tx.recipient = a then tx.amount else 0) - (if tx.sender = a then tx.amount else 0)).sum) ∧
    bc.accountBalances.total = 0 ∧
    ∀ (o : Offer) (err : String), ((bc.withPools o).addBlock E o.block).1 = .error err →
      ((bc.withPools o).addBlock E o.block).2.chain = bc.chain ∧
      ∀ a, ((bc.withPools o).addBlock E o.block).2.getBalance a = bc.getBalance a := by
  intro bc
  have hnil : (Blockchain.init E now).financial = [] := rfl
  refine ⟨fun a => ?_, ?_, fun o err herr => ?_⟩
  · have hbal := Blockchain.getBalance_run_of_financial_nil (E := E) hnil offers a
    rw [show (Blockchain.init E now).getBalance a = 0 from Book.balance_empty a, zero_add] at hbal
    rw [hbal, Blockchain.transfers, net, List.map_map]
    rfl
  · rw [Blockchain.total_run]
    exact Book.total_empty
  · rcases Blockchain.addBlock_cases E (bc.withPools o) o.block with ⟨-, heq⟩ | ⟨-, _, heq⟩
    · rw [heq] at herr
      cases herr
    · rw [heq]
      exact ⟨rfl, fun _ => rfl⟩

/-! ### Overdrafts -/

namespace Blockchain

def Solvent (bc : Blockchain) : Prop :=
  ∀ a, 0 ≤ bc.getBalance a

/-- Every account that sends more than one FINANCIAL transaction of the block has, with what it
receives in the block, at least what it sends. -/
def CoversRepeated (bc : Blockchain) (block : Block) : Prop :=
  ∀ a, 2 ≤ block.transfers.countP (fun t => t.src = a) →
    sent block.transfers a ≤ bc.getBalance a + received block.transfers a

end Blockchain

def Block.NonnegAmounts (block : Block) : Prop :=
  ∀ tx ∈ block.financial, 0 ≤ tx.amount

namespace Blockchain
variable {E : Env} {bc : Blockchain} {block : Block}

theorem solvent_pushBlock_iff (hb : bc.Solvent) (hpos : block.NonnegAmounts)
    (hv : bc.validateBlock E block = true) :
    (bc.pushBlock block).Solvent ↔ bc.CoversRepeated block := by
  have hcov : ∀ t ∈ block.transfers, t.amount ≤ bc.getBalance t.src := by
    intro t ht
    obtain ⟨tx, htx, rfl⟩ := List.mem_map.1 ht
    obtain ⟨hmem, hfin⟩ := Block.mem_financial.1 htx
    exact (validateBlock_iff.1 hv).2.2 tx hmem hfin
  have hnonneg : ∀ t ∈ block.transfers, 0 ≤ t.amount := by
    intro t ht
    obtain ⟨tx, htx, rfl⟩ := List.mem_map.1 ht
    exact hpos tx htx
  rw [Solvent, CoversRepeated, ← solvent_iff hb hnonneg hcov]
  exact forall_congr' fun a => by rw [getBalance_pushBlock]

theorem solvent_addBlock_iff (hb : bc.Solvent) (hpos : block.NonnegAmounts) :
    ((bc.addBlock E block).1 = .ok () → (bc.addBlock E block).2.Solvent) ↔
      (bc.Accepts E block → bc.CoversRepeated block) := by
  rcases addBlock_cases E bc block with ⟨hacc, heq⟩ | ⟨hacc, err, heq⟩
  · rw [heq]
    simp only [forall_const, hacc]
    exact solvent_pushBlock_iff hb hpos hacc.1
  · simp [heq, hacc]

theorem solvent_step_iff {o : Offer} (hb : bc.Solvent) (hpos : o.block.NonnegAmounts) :
    (bc.step E o).Solvent ↔ ((bc.withPools o).Accepts E o.block → bc.CoversRepeated o.block) := by
  have hb' : (bc.withPools o).Solvent := hb
  rcases step_cases E bc o with ⟨hacc, heq⟩ | ⟨hacc, heq⟩ <;> rw [heq]
  · rw [solvent_pushBlock_iff hb' hpos hacc.1]
    exact ⟨fun h _ => h, fun h => h hacc⟩
  · exact iff_of_true hb' fun h => absurd h hacc

end Blockchain

/-- `validateBlock` looks at one transaction at a time, against the balances before the block. A
call of `addBlock` leaves every account at or above zero exactly when it rejects the block or every
account that sends repeatedly in the block is covered. A run leaves no account below zero, after the
first `n` calls for any `n`, exactly when each of its calls is such at the state it finds. -/
theorem no_overdraft_iff (E : Env) :
    (∀ (bc : Blockchain) (block : Block), bc.Solvent → block.NonnegAmounts →
      (((bc.addBlock E block).1 = .ok () → (bc.addBlock E block).2.Solvent) ↔
        (bc.Accepts E block → bc.CoversRepeated block))) ∧
    ∀ (bc : Blockchain) (offers : List Offer), bc.Solvent →
      (∀ o ∈ offers, o.block.NonnegAmounts) →
      ((∀ n, (run (Blockchain.step E) bc (offers.take n)).Solvent) ↔
        Along (Blockchain.step E)
          (fun bc o => (bc.withPools o).Accepts E o.block → bc.CoversRepeated o.block) bc offers) := by
  constructor
  · intro bc block hb hpos
    exact Blockchain.solvent_addBlock_iff hb hpos
  · intro bc offers hb hpos
    have hstep : ∀ (s : Blockchain) (o : Offer), o.block.NonnegAmounts → s.Solvent →
        ((s.step E o).Solvent ↔ ((s.withPools o).Accepts E o.block → s.CoversRepeated o.block)) :=
      fun _ _ ho hs => Blockchain.solvent_step_iff hs ho
    exact forall_run_take_iff_along_of (I := Blockchain.Solvent) (J := Blockchain.Solvent)
      (fun _ h => h) (fun s o ho hs => (hstep s o ho hs).1) (fun s o ho hs => (hstep s o ho hs).2) hb
      hpos

section
open Sample

theorem Sample.solvent_blockchain : blockchain.Solvent := by
  intro a
  show 0 ≤ (Book.adjust ∅ (ascii "alice") (· + 10)).balance a
  rw [Book.balance_adjust]
  split <;> simp

/-- `alice` holds 10 and pays 10 twice in one block. -/
theorem overdraft_in_one_block :
    ¬ ∀ (E : Env) (bc : Blockchain) (block : Block), bc.Solvent → block.NonnegAmounts →
      (bc.addBlock E block).1 = .ok () → (bc.addBlock E block).2.Solvent := by
  intro h
  have hpos : (block [payment "bob" 10, payment "carol" 10]).NonnegAmounts := by
    unfold Block.NonnegAmounts
    decide +kernel
  have halice := h env blockchain _ solvent_blockchain hpos (by decide +kernel) (ascii "alice")
  revert halice
  decide +kernel

theorem no_overdraft_iff_covered :
    (blockchain.pushBlock (block [payment "bob" 4, payment "carol" 4])).Solvent ∧
    (run (Blockchain.step env) blockchain [offer [payment "bob" 4, payment "carol" 4]]).Solvent := by
  have hpos : (block [payment "bob" 4, payment "carol" 4]).NonnegAmounts := by
    unfold Block.NonnegAmounts
    decide +kernel
  have hcov : blockchain.CoversRepeated (block [payment "bob" 4, payment "carol" 4]) := by
    intro a ha
    by_cases haa : ascii "alice" = a
    · subst haa
      decide +kernel
    · exfalso
      revert ha
      simp [block, Block.init, Block.transfers, Block.financial, payment, Transaction.ofParties,
        Transaction.ofType, Transaction.transfer, haa]
  have hacc : blockchain.Accepts env (block [payment "bob" 4, payment "carol" 4]) := by
    decide +kernel
  have h := (no_overdraft_iff env).1 blockchain _ solvent_blockchain hpos
  rw [Blockchain.addBlock_of_accepts hacc] at h
  refine ⟨h.2 (fun _ => hcov) rfl, ((no_overdraft_iff env).2 blockchain
    [offer [payment "bob" 4, payment "carol" 4]] solvent_blockchain ?_).2 ⟨fun _ => hcov, trivial⟩ 1⟩
  intro o ho
  rw [List.mem_singleton.1 ho]
  exact hpos

end

/-! ### Replays -/

/-- The validators that vote on the offered block. -/
def Offer.pool (o : Offer) : List Validator :=
  if o.block.HasFinancial then o.financialValidators else o.messageValidators

namespace Blockchain

/-- No two FINANCIAL transactions of the chain have the same hash. -/
def NoReplay (bc : Blockchain) : Prop :=
  (bc.financial.map Transaction.getHash).Nodup

/-- The FINANCIAL transactions of the block have hashes that are new to the chain and differ from
each other. -/
def Fresh (bc : Blockchain) (block : Block) : Prop :=
  (block.financial.map Transaction.getHash).Nodup ∧
    ∀ tx ∈ block.financial, tx.getHash ∉ bc.financial.map Transaction.getHash

variable {E : Env} {bc : Blockchain} {block : Block} {o : Offer}

/-- What decides over a block: the block, the hash of the last one, the balances and the validators. -/
theorem accepts_withPools_iff :
    (bc.withPools o).Accepts E o.block ↔
      o.block.isValid E = true ∧ o.block.previousHash = bc.getLatestBlock.hash ∧
        (∀ tx ∈ o.block.financial, tx.amount ≤ bc.getBalance tx.sender) ∧
        Quorum.reaches (Quorum.percentage (o.pool.countP fun v => v.validateBlock E o.block)
          o.pool.length) bc.consensusThreshold = true := by
  rw [Accepts, validateBlock_iff, reachConsensus_eq_reaches]
  simp only [Block.mem_financial, and_imp, and_assoc]
  rfl

theorem consensusThreshold_step : (bc.step E o).consensusThreshold = bc.consensusThreshold := by
  rcases step_cases E bc o with ⟨-, heq⟩ | ⟨-, heq⟩ <;> rw [heq]
  · rw [pushBlock_eq]
    rfl
  · rfl

theorem noReplay_pushBlock_iff : (bc.pushBlock block).NoReplay ↔ bc.NoReplay ∧ bc.Fresh block := by
  unfold NoReplay Fresh
  rw [financial_pushBlock, List.map_append, List.nodup_append']
  refine and_congr_right fun _ => and_congr_right fun _ => ?_
  rw [List.disjoint_right]
  simp

theorem noReplay_step_iff :
    (bc.step E o).NoReplay ↔
      bc.NoReplay ∧ ((bc.withPools o).Accepts E o.block → bc.Fresh o.block) := by
  rcases step_cases E bc o with ⟨hacc, heq⟩ | ⟨hacc, heq⟩ <;> rw [heq]
  · rw [noReplay_pushBlock_iff]
    exact and_congr_right fun _ => ⟨fun h _ => h, fun h => h hacc⟩
  · exact ⟨fun h => ⟨h, fun h' => absurd h' hacc⟩, fun h => h.1⟩

end Blockchain

/-- `addBlock` keeps no record of the transactions it has posted. A FINANCIAL transaction is posted
once for every occurrence in a block of the chain. Whether a block is taken hangs on the block, on the
hash of the last one, the balances and the validators, and on no transaction of the chain; so no
transaction is posted twice exactly when every block that is taken happens to bring new hashes. -/
theorem replay_of_run (E : Env) (now : ℤ) (bc : Blockchain) (offers : List Offer)
    (hgen : bc.chain = [Block.init E now 0 [] (ascii "0")]) :
    let bc' := run (Blockchain.step E) bc offers
    (∀ a, bc'.getBalance a = bc.getBalance a + net bc'.transfers a) ∧
    (∀ o : Offer, (bc'.withPools o).Accepts E o.block ↔
      o.block.isValid E = true ∧ o.block.previousHash = bc'.getLatestBlock.hash ∧
        (∀ tx ∈ o.block.financial, tx.amount ≤ bc'.getBalance tx.sender) ∧
        Quorum.reaches (Quorum.percentage (o.pool.countP fun v => v.validateBlock E o.block)
          o.pool.length) bc.consensusThreshold = true) ∧
    (bc'.NoReplay ↔ Along (Blockchain.step E)
      (fun bc o => (bc.withPools o).Accepts E o.block → bc.Fresh o.block) bc offers) := by
  intro bc'
  have hnil : bc.financial = [] := by rw [Blockchain.financial, hgen]; rfl
  refine ⟨Blockchain.getBalance_run_of_financial_nil hnil offers, fun o => ?_, ?_⟩
  · have hthreshold : bc'.consensusThreshold = bc.consensusThreshold :=
      run_eq Blockchain.consensusThreshold (fun _ _ => Blockchain.consensusThreshold_step) bc offers
    rw [← hthreshold]
    exact Blockchain.accepts_withPools_iff
  · have hstart : bc.NoReplay := by rw [Blockchain.NoReplay, hnil]; exact List.nodup_nil
    exact run_iff_along (fun _ _ h => (Blockchain.noReplay_step_iff.1 h).1)
      (fun _ _ hs => Blockchain.noReplay_step_iff.trans (and_iff_right hs)) hstart offers

section
open Sample

/-- One payment of 1, twice in one block. -/
theorem replay_in_one_block :
    ¬ ∀ (E : Env) (now : ℤ) (bc : Blockchain) (offers : List Offer),
      bc.chain = [Block.init E now 0 [] (ascii "0")] → bc.Solvent →
      (run (Blockchain.step E) bc offers).NoReplay := by
  intro h
  have := h env 1700000000 blockchain [offer [payment "bob" 1, payment "bob" 1]] rfl
    solvent_blockchain
  unfold Blockchain.NoReplay at this
  revert this
  decide +kernel

theorem replay_of_run_twice :
    (run (Blockchain.step env) blockchain [offer [payment "bob" 1, payment "bob" 1]]).getBalance
      (ascii "bob") = 2 := by
  rw [(replay_of_run env 1700000000 blockchain [offer [payment "bob" 1, payment "bob" 1]] rfl).1]
  decide +kernel

end

end BlockchainMessaging
