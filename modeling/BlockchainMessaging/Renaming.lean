import BlockchainMessaging.ChainContents

/-!
# What a blockchain does not see of its transactions

`addBlock` asks of a transaction whether it is valid, whether it is a payment, and whether its sender
has the amount, and it moves the amount. So the parties may get other names all through a run, and the
amounts another unit: the same calls succeed, and the balances are those of other accounts.
-/

namespace BlockchainMessaging
open Machine Ledger

/-- What goes into the next block, and who votes on it. -/
structure Batch where
  now : ℤ
  transactions : List Transaction
  messageValidators : List Validator
  financialValidators : List Validator

/-- The transaction `tx'` is `tx` between other parties, in another unit. Its inputs, its outputs, its
hash and its clock are its own. -/
structure Transaction.Renamed (E : Env) (π : Bytes → Bytes) (c : Amount) (tx tx' : Transaction) :
    Prop where
  type : tx'.type = tx.type
  sender : tx'.sender = π tx.sender
  recipient : tx'.recipient = π tx.recipient
  amount : tx'.amount = c * tx.amount
  isValid : E.isValid tx' = E.isValid tx

/-- The same batch under other names, at another time. -/
structure Batch.Renamed (E : Env) (π : Bytes → Bytes) (c : Amount) (b b' : Batch) : Prop where
  transactions : List.Forall₂ (Transaction.Renamed E π c) b.transactions b'.transactions
  messageValidators : b'.messageValidators = b.messageValidators
  financialValidators : b'.financialValidators = b.financialValidators

/-- The same batch under other names, in any order. -/
structure Batch.Alike (E : Env) (π : Bytes → Bytes) (c : Amount) (b b' : Batch) : Prop where
  transactions : ∃ txs, b.transactions.Perm txs ∧
    List.Forall₂ (Transaction.Renamed E π c) txs b'.transactions
  messageValidators : b.messageValidators.Perm b'.messageValidators
  financialValidators : b.financialValidators.Perm b'.financialValidators

/-- Two blockchains that count alike, under the names and in the unit of each. -/
structure SameLedger (π : Bytes → Bytes) (c : Amount) (bc bc' : Blockchain) : Prop where
  balances : ∀ a, bc'.getBalance (π a) = c * bc.getBalance a
  length : bc.chain.length = bc'.chain.length
  consensusThreshold : bc.consensusThreshold = bc'.consensusThreshold

namespace Blockchain

/-- The batch as the block that the constructor makes behind the latest one. -/
def offerOf (E : Env) (bc : Blockchain) (b : Batch) : Offer :=
  ⟨bc.nextBlock E b.now b.transactions, b.messageValidators, b.financialValidators⟩

/-- What `addBlock` returns or throws for this block. -/
def resultOf (E : Env) (bc : Blockchain) (b : Batch) : Except String Unit :=
  ((bc.withPools (bc.offerOf E b)).addBlock E (bc.nextBlock E b.now b.transactions)).1

def addBatch (E : Env) (bc : Blockchain) (b : Batch) : Blockchain :=
  bc.step E (bc.offerOf E b)

variable {E : Env} {bc bc' : Blockchain} {block block' : Block} {b b' : Batch}

theorem isValid_nextBlock_iff (now : ℤ) (txs : List Transaction) :
    (bc.nextBlock E now txs).isValid E = true ↔ ∀ tx ∈ txs, E.isValid tx = true := by
  rw [Block.isValid_iff]
  exact and_iff_right rfl

theorem validateBlock_offerOf_iff (b : Batch) :
    (bc.withPools (bc.offerOf E b)).validateBlock E (bc.nextBlock E b.now b.transactions) = true ↔
      ∀ tx ∈ b.transactions, E.isValid tx = true ∧
        (tx.type = .financial → tx.amount ≤ bc.getBalance tx.sender) := by
  rw [validateBlock_iff, isValid_nextBlock_iff]
  constructor
  · rintro ⟨hvalid, -, hfunds⟩ tx htx
    exact ⟨hvalid tx htx, hfunds tx htx⟩
  · intro h
    exact ⟨fun tx htx => (h tx htx).1, rfl, fun tx htx => (h tx htx).2⟩

/-- The vote is a count, over blocks that are valid and have payments alike. -/
theorem reachConsensus_congr (hvalid : block.isValid E = true ↔ block'.isValid E = true)
    (hfin : block.HasFinancial ↔ block'.HasFinancial)
    (hmessage : bc.messageValidators.Perm bc'.messageValidators)
    (hfinancial : bc.financialValidators.Perm bc'.financialValidators)
    (hthreshold : bc.consensusThreshold = bc'.consensusThreshold) :
    bc.reachConsensus E block = bc'.reachConsensus E block' := by
  have hpool : (bc.pool block).Perm (bc'.pool block') := by
    unfold pool
    by_cases h : block.HasFinancial
    · rwa [if_pos h, if_pos (hfin.1 h)]
    · rwa [if_neg h, if_neg (fun h' => h (hfin.2 h'))]
  have hvote : ∀ v : Validator, v.validateBlock E block = v.validateBlock E block' := by
    intro v
    rw [Bool.eq_iff_iff, Validator.validateBlock_iff, Validator.validateBlock_iff, hvalid]
    exact and_congr_right fun _ => imp_congr hfin Iff.rfl
  have hcount : ((bc.pool block).countP fun v => v.validateBlock E block) =
      (bc'.pool block').countP fun v => v.validateBlock E block' := by
    rw [hpool.countP_eq]
    simp only [hvote]
  rw [reachConsensus_eq_reaches, reachConsensus_eq_reaches, hcount, hpool.length_eq, hthreshold]

end Blockchain

section
variable {E : Env} {π : Bytes → Bytes} {c : Amount} {txs txs' : List Transaction}

theorem forall_iff_of_renamed (h : List.Forall₂ (Transaction.Renamed E π c) txs txs')
    {P Q : Transaction → Prop} (hiff : ∀ tx tx', tx.Renamed E π c tx' → (P tx ↔ Q tx')) :
    (∀ tx ∈ txs, P tx) ↔ ∀ tx' ∈ txs', Q tx' := by
  induction h with
  | nil => simp
  | cons hren _ ih => simp only [List.forall_mem_cons, ih, hiff _ _ hren]

theorem transfers_of_renamed (h : List.Forall₂ (Transaction.Renamed E π c) txs txs') :
    (txs'.filter fun tx => tx.type = .financial).map Transaction.transfer =
      ((txs.filter fun tx => tx.type = .financial).map Transaction.transfer).map
        (Transfer.relabel π (AddMonoidHom.mulLeft c)) := by
  induction h with
  | nil => rfl
  | @cons tx tx' _ _ hren _ ih =>
    have htransfer : tx'.transfer = tx.transfer.relabel π (AddMonoidHom.mulLeft c) := by
      rw [Transaction.transfer, hren.sender, hren.recipient, hren.amount]
      rfl
    by_cases hfin : tx.type = .financial
    · simp [hfin, hren.type, ih, htransfer]
    · simp [hfin, hren.type, ih]

end

namespace Batch
variable {E : Env} {π : Bytes → Bytes} {c : Amount} {b b' : Batch}

theorem Renamed.alike (h : b.Renamed E π c b') : b.Alike E π c b' where
  transactions := ⟨b.transactions, .refl _, h.transactions⟩
  messageValidators := by rw [h.messageValidators]
  financialValidators := by rw [h.financialValidators]

theorem Alike.forall_iff (h : b.Alike E π c b') {P Q : Transaction → Prop}
    (hiff : ∀ tx tx', tx.Renamed E π c tx' → (P tx ↔ Q tx')) :
    (∀ tx ∈ b.transactions, P tx) ↔ ∀ tx ∈ b'.transactions, Q tx := by
  obtain ⟨txs, hperm, hren⟩ := h.transactions
  simp only [hperm.mem_iff]
  exact forall_iff_of_renamed hren hiff

theorem Alike.hasFinancial_iff (h : b.Alike E π c b') :
    (∃ tx ∈ b.transactions, tx.type = .financial) ↔ ∃ tx ∈ b'.transactions, tx.type = .financial := by
  have hnone := h.forall_iff (P := fun tx => tx.type ≠ .financial) (Q := fun tx => tx.type ≠ .financial)
    fun tx tx' hren => by rw [hren.type]
  simpa using not_congr hnone

theorem Alike.net_transfers (hπ : Function.Injective π) (h : b.Alike E π c b') (bc bc' : Blockchain)
    (a : Bytes) : net (bc'.nextBlock E b'.now b'.transactions).transfers (π a) =
      c * net (bc.nextBlock E b.now b.transactions).transfers a := by
  obtain ⟨txs, hperm, hren⟩ := h.transactions
  have hsame : net (bc.nextBlock E b.now b.transactions).transfers a =
      net ((txs.filter fun tx => tx.type = .financial).map Transaction.transfer) a :=
    (((hperm.filter _).map _).map _).sum_eq
  rw [hsame]
  show net ((b'.transactions.filter fun tx => tx.type = .financial).map Transaction.transfer) (π a) = _
  rw [transfers_of_renamed hren, net_relabel hπ]
  rfl

end Batch

namespace SameLedger
variable {E : Env} {π : Bytes → Bytes} {c : Amount} {bc bc' : Blockchain} {b b' : Batch}

theorem init (E : Env) (π : Bytes → Bytes) (c : Amount) (now now' : ℤ) :
    SameLedger π c (Blockchain.init E now) (Blockchain.init E now') where
  balances a := by simp [Blockchain.init, Blockchain.getBalance]
  length := rfl
  consensusThreshold := rfl

theorem validateBlock_eq (hc : 0 < c) (h : SameLedger π c bc bc') (hb : b.Alike E π c b') :
    (bc.withPools (bc.offerOf E b)).validateBlock E (bc.nextBlock E b.now b.transactions) =
      (bc'.withPools (bc'.offerOf E b')).validateBlock E
        (bc'.nextBlock E b'.now b'.transactions) := by
  rw [Bool.eq_iff_iff, Blockchain.validateBlock_offerOf_iff, Blockchain.validateBlock_offerOf_iff]
  refine hb.forall_iff fun tx tx' hren => ?_
  rw [hren.isValid, hren.type, hren.amount, hren.sender, h.balances, mul_le_mul_iff_right₀ hc]

theorem reachConsensus_eq (h : SameLedger π c bc bc') (hb : b.Alike E π c b') :
    (bc.withPools (bc.offerOf E b)).reachConsensus E (bc.nextBlock E b.now b.transactions) =
      (bc'.withPools (bc'.offerOf E b')).reachConsensus E
        (bc'.nextBlock E b'.now b'.transactions) := by
  refine Blockchain.reachConsensus_congr ?_ hb.hasFinancial_iff hb.messageValidators
    hb.financialValidators h.consensusThreshold
  rw [Blockchain.isValid_nextBlock_iff, Blockchain.isValid_nextBlock_iff]
  exact hb.forall_iff fun tx tx' hren => by rw [hren.isValid]

theorem resultOf_eq (hc : 0 < c) (h : SameLedger π c bc bc') (hb : b.Alike E π c b') :
    bc.resultOf E b = bc'.resultOf E b' := by
  unfold Blockchain.resultOf Blockchain.addBlock
  rw [h.validateBlock_eq hc hb, h.reachConsensus_eq hb]
  split_ifs <;> rfl

theorem pushBlock (hπ : Function.Injective π) (h : SameLedger π c bc bc') (hb : b.Alike E π c b') :
    SameLedger π c
      ((bc.withPools (bc.offerOf E b)).pushBlock (bc.nextBlock E b.now b.transactions))
      ((bc'.withPools (bc'.offerOf E b')).pushBlock (bc'.nextBlock E b'.now b'.transactions)) where
  balances a := by
    rw [Blockchain.getBalance_pushBlock, Blockchain.getBalance_pushBlock,
      hb.net_transfers hπ bc bc', mul_add]
    exact congrArg (· + _) (h.balances a)
  length := by
    rw [Blockchain.chain_pushBlock, Blockchain.chain_pushBlock, List.length_append, List.length_append]
    exact congrArg (· + 1) h.length
  consensusThreshold := by
    rw [Blockchain.pushBlock_eq, Blockchain.pushBlock_eq]
    exact h.consensusThreshold

theorem addBatch (hπ : Function.Injective π) (hc : 0 < c) (h : SameLedger π c bc bc')
    (hb : b.Alike E π c b') : SameLedger π c (bc.addBatch E b) (bc'.addBatch E b') := by
  have hval := h.validateBlock_eq hc hb
  have hcons := h.reachConsensus_eq hb
  rcases Blockchain.step_cases E bc (bc.offerOf E b) with ⟨hacc, heq⟩ | ⟨hacc, heq⟩ <;>
    rcases Blockchain.step_cases E bc' (bc'.offerOf E b') with ⟨hacc', heq'⟩ | ⟨hacc', heq'⟩ <;>
    rw [Blockchain.addBatch, Blockchain.addBatch, heq, heq']
  · exact h.pushBlock hπ hb
  · exact absurd ⟨hval.symm.trans hacc.1, hcons.symm.trans hacc.2⟩ hacc'
  · exact absurd ⟨hval.trans hacc'.1, hcons.trans hacc'.2⟩ hacc
  · exact ⟨h.balances, h.length, h.consensusThreshold⟩

/-- Two runs whose batches differ in names, unit and order only. -/
theorem run (hπ : Function.Injective π) (hc : 0 < c) {batches batches' : List Batch}
    (hbs : List.Forall₂ (Batch.Alike E π c) batches batches') (h : SameLedger π c bc bc') :
    SameLedger π c (Machine.run (Blockchain.addBatch E) bc batches)
        (Machine.run (Blockchain.addBatch E) bc' batches') ∧
      outputs (Blockchain.addBatch E) (fun bc b => [bc.resultOf E b]) bc batches =
        outputs (Blockchain.addBatch E) (fun bc b => [bc.resultOf E b]) bc' batches' := by
  have hstep : ∀ bc bc' b b', SameLedger π c bc bc' → Batch.Alike E π c b b' →
      SameLedger π c (bc.addBatch E b) (bc'.addBatch E b') := fun _ _ _ _ h hb => h.addBatch hπ hc hb
  refine ⟨run_rel hstep hbs h, outputs_rel hstep (fun bc bc' b b' h hb => ?_) hbs h⟩
  rw [h.resultOf_eq hc hb]

end SameLedger

/-- Two blockchains grow by the same batches, each behind its own latest block, but on the one every
party has the name that `π` gives it, and every amount is the `c`-fold. Every call of `addBlock` then
returns or throws the same on both, the chains are as long as each other, and an account holds under its
new name the `c`-fold of what it holds under the old one. -/
theorem run_renamed (E : Env) {π : Bytes → Bytes} (hπ : Function.Injective π) {c : Amount}
    (hc : 0 < c) (now now' : ℤ) (batches batches' : List Batch)
    (h : List.Forall₂ (Batch.Renamed E π c) batches batches') :
    let bc := run (Blockchain.addBatch E) (Blockchain.init E now) batches
    let bc' := run (Blockchain.addBatch E) (Blockchain.init E now') batches'
    (∀ a, bc'.getBalance (π a) = c * bc.getBalance a) ∧ bc.chain.length = bc'.chain.length ∧
    outputs (Blockchain.addBatch E) (fun bc b => [bc.resultOf E b]) (Blockchain.init E now) batches =
      outputs (Blockchain.addBatch E) (fun bc b => [bc.resultOf E b]) (Blockchain.init E now')
        batches' := by
  intro bc bc'
  obtain ⟨hledger, hresults⟩ :=
    SameLedger.run hπ hc (h.imp fun _ _ hb => hb.alike) (SameLedger.init E π c now now')
  exact ⟨hledger.balances, hledger.length, hresults⟩

section
open Sample

/-- The batch holds these transactions, and one validator of each pool is for everything. -/
def Sample.batch (now : ℤ) (txs : List Transaction) : Batch :=
  ⟨now, txs, [validator "h" .hybrid], [validator "h" .hybrid]⟩

/-- `alice` and `bob` change places. -/
def Sample.swap (s : Bytes) : Bytes :=
  if s = ascii "alice" then ascii "bob" else if s = ascii "bob" then ascii "alice" else s

theorem Sample.swap_injective : Function.Injective swap := by
  have hinv : Function.Involutive swap := by
    intro s
    unfold swap
    by_cases h1 : s = ascii "alice"
    · subst h1; decide +kernel
    · by_cases h2 : s = ascii "bob"
      · subst h2; decide +kernel
      · simp [h1, h2]
  exact hinv.injective

/-- A payment as the constructor and `setAmount` make it at `now`: its output carries the name of the
recipient, its hash the clock. -/
def Sample.paid (now : ℤ) (sender recipient : String) (amount : Amount) : Transaction :=
  { Transaction.ofParties parts id (ascii sender) (ascii recipient) .financial now amount with
    amount := amount }

/-- `alice` pays a negative amount and spends twice what she has got by it; a minute later `bob` does so
with the double. -/
theorem run_renamed_swap :
    let bc := run (Blockchain.addBatch env) (Blockchain.init env 1700000000)
      [batch 1700000000 [paid 1700000000 "alice" "bob" (-5)],
        batch 1700000000 [paid 1700000000 "alice" "bob" 5, paid 1700000000 "alice" "carol" 5]]
    let bc' := run (Blockchain.addBatch env) (Blockchain.init env 1700000060)
      [batch 1700000060 [paid 1700000060 "bob" "alice" (-10)],
        batch 1700000060 [paid 1700000060 "bob" "alice" 10, paid 1700000060 "bob" "carol" 10]]
    ∀ a, bc'.getBalance (swap a) = 2 * bc.getBalance a := by
  have hren : ∀ {s s' r r' : String} {a a' : Amount}, ascii s' = swap (ascii s) →
      ascii r' = swap (ascii r) → a' = 2 * a →
      (paid 1700000000 s r a).Renamed env swap 2 (paid 1700000060 s' r' a') :=
    fun hs hr ha => ⟨rfl, hs, hr, ha, rfl⟩
  refine (run_renamed env swap_injective (by decide +kernel) 1700000000 1700000060 _ _ ?_).1
  refine .cons ⟨.cons (hren ?_ ?_ ?_) .nil, rfl, rfl⟩
    (.cons ⟨.cons (hren ?_ ?_ ?_) (.cons (hren ?_ ?_ ?_) .nil), rfl, rfl⟩ .nil) <;> decide +kernel

end
end BlockchainMessaging
