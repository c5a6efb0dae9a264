import BlockchainMessaging.Validator
import BlockchainMessaging.Lib.Ledger
import BlockchainMessaging.Lib.Quorum
import BlockchainMessaging.Lib.Run

/-!
# The blockchain (`core/blockchain.hpp`, `core/blockchain.cpp`)

`chain_ne` holds by construction: the constructor pushes the genesis block and no member function
removes a block, so `chain.back()` is always defined. `accountBalances` is the finite map of the
source; `getBalance`, which has no body, reads it. `pendingTransactions`, `difficulty` and
`miningReward` are left out, no code with a body uses them.
-/

namespace BlockchainMessaging
open Ledger

structure Blockchain where
  chain : List Block
  accountBalances : Book Bytes Amount
  messageValidators : List Validator
  financialValidators : List Validator
  consensusThreshold : ℕ
  chain_ne : chain ≠ []

namespace Blockchain

/-- The constructor; `now` is the clock at the creation of the genesis block. -/
def init (E : Env) (now : ℤ) : Blockchain :=
  { chain := [Block.init E now 0 [] (ascii "0")], accountBalances := ∅, messageValidators := [],
    financialValidators := [], consensusThreshold := 75, chain_ne := List.cons_ne_nil _ _ }

def getLatestBlock (bc : Blockchain) : Block :=
  bc.chain.getLast bc.chain_ne

def getBalance (bc : Blockchain) (address : Bytes) : Amount :=
  bc.accountBalances.balance address

def validateBlock (E : Env) (bc : Blockchain) (block : Block) : Bool :=
  if !block.isValid E then false
  else if block.previousHash ≠ bc.getLatestBlock.hash then false
  else block.transactions.all fun tx =>
    if !E.isValid tx then false
    else if tx.type = .financial then
      if bc.getBalance tx.sender < tx.amount then false else true
    else true

/-- One turn of the loop that collects the votes, on `(approvalCount, validatorCount)`. -/
def collectVote (E : Env) (block : Block) (counts : ℕ × ℕ) (validator : Validator) : ℕ × ℕ :=
  (if validator.validateBlock E block then counts.1 + 1 else counts.1, counts.2 + 1)

/-- The source takes `begin()` and `end()` for `std::any_of` from two temporaries; read here as one
list, the transactions of the block. -/
def reachConsensus (E : Env) (bc : Blockchain) (block : Block) : Bool :=
  let hasFinancialTx := block.transactions.any fun tx => tx.type = .financial
  let validators := if hasFinancialTx then bc.financialValidators else bc.messageValidators
  let (approvalCount, validatorCount) := validators.foldl (collectVote E block) (0, 0)
  Quorum.reaches (Quorum.percentage approvalCount validatorCount) bc.consensusThreshold

def processTransaction (bc : Blockchain) (tx : Transaction) : Blockchain :=
  if tx.type = .financial then
    { bc with
      accountBalances :=
        (bc.accountBalances.adjust tx.sender (· - tx.amount)).adjust tx.recipient (· + tx.amount) }
  else bc

/-- The effect of `addBlock` past its checks. -/
def pushBlock (bc : Blockchain) (block : Block) : Blockchain :=
  block.transactions.foldl processTransaction
    { bc with
      chain := bc.chain ++ [block]
      chain_ne := List.append_ne_nil_of_right_ne_nil _ (List.cons_ne_nil _ _) }

/-- `.error` is the `std::runtime_error` thrown, next to the state it leaves. -/
def addBlock (E : Env) (bc : Blockchain) (block : Block) : Except String Unit × Blockchain :=
  if !bc.validateBlock E block then (.error "Invalid block", bc)
  else if !bc.reachConsensus E block then (.error "Consensus not reached", bc)
  else (.ok (), bc.pushBlock block)

/-! ### What one call does -/

/-- The block passes the two checks of `addBlock`. -/
def Accepts (E : Env) (bc : Blockchain) (block : Block) : Prop :=
  bc.validateBlock E block = true ∧ bc.reachConsensus E block = true

instance (E : Env) (bc : Blockchain) (block : Block) : Decidable (bc.Accepts E block) :=
  inferInstanceAs (Decidable (_ ∧ _))

section
variable {E : Env} {bc : Blockchain} {block : Block}

theorem addBlock_of_accepts (h : bc.Accepts E block) :
    bc.addBlock E block = (.ok (), bc.pushBlock block) := by
  simp [addBlock, h.1, h.2]

theorem addBlock_of_not_accepts (h : ¬ bc.Accepts E block) :
    ∃ err, bc.addBlock E block = (.error err, bc) := by
  unfold addBlock
  cases hv : bc.validateBlock E block with
  | false => exact ⟨_, rfl⟩
  | true =>
    cases hc : bc.reachConsensus E block with
    | false => exact ⟨_, rfl⟩
    | true => exact absurd ⟨hv, hc⟩ h

theorem addBlock_cases (E : Env) (bc : Blockchain) (block : Block) :
    (bc.Accepts E block ∧ bc.addBlock E block = (.ok (), bc.pushBlock block)) ∨
      (¬ bc.Accepts E block ∧ ∃ err, bc.addBlock E block = (.error err, bc)) := by
  by_cases hacc : bc.Accepts E block
  · exact .inl ⟨hacc, addBlock_of_accepts hacc⟩
  · exact .inr ⟨hacc, addBlock_of_not_accepts hacc⟩

theorem validateBlock_iff :
    bc.validateBlock E block = true ↔
      block.isValid E = true ∧ block.previousHash = bc.getLatestBlock.hash ∧
        ∀ tx ∈ block.transactions, tx.type = .financial → tx.amount ≤ bc.getBalance tx.sender := by
  unfold validateBlock
  cases hb : block.isValid E with
  | false => simp
  | true =>
    have htx := (Block.isValid_iff.1 hb).2
    by_cases hp : block.previousHash = bc.getLatestBlock.hash
    · simp only [hp, Bool.not_true, Bool.false_eq_true, ↓reduceIte, ne_eq, not_true_eq_false,
        List.all_eq_true, true_and]
      refine forall₂_congr fun tx hmem => ?_
      by_cases hfin : tx.type = .financial <;> simp [htx tx hmem, hfin]
    · simp [hp]

/-! ### The ledger seen through `Ledger.Transfer` -/

end
end Blockchain

/-- The movement of money a transaction stands for. -/
def Transaction.transfer (tx : Transaction) : Transfer Bytes Amount :=
  ⟨tx.sender, tx.recipient, tx.amount⟩

/-- The FINANCIAL transactions of a block, in order. -/
def Block.financial (block : Block) : List Transaction :=
  block.transactions.filter fun tx => tx.type = .financial

def Block.transfers (block : Block) : List (Transfer Bytes Amount) :=
  block.financial.map Transaction.transfer

theorem Block.mem_financial {block : Block} {tx : Transaction} :
    tx ∈ block.financial ↔ tx ∈ block.transactions ∧ tx.type = .financial := by
  simp [Block.financial]

namespace Blockchain
variable {E : Env} {bc : Blockchain} {block : Block}

theorem foldl_processTransaction (txs : List Transaction) (bc : Blockchain) :
    txs.foldl processTransaction bc =
      { bc with
        accountBalances :=
          ((txs.filter fun tx => tx.type = .financial).map Transaction.transfer).foldl Book.post
            bc.accountBalances } := by
  induction txs generalizing bc with
  | nil => rfl
  | cons tx txs ih =>
    rw [List.foldl_cons, ih, processTransaction]
    by_cases h : tx.type = .financial
    · simp [h, Book.post, Transaction.transfer]
    · simp [h]

theorem pushBlock_eq (bc : Blockchain) (block : Block) :
    bc.pushBlock block =
      { bc with
        chain := bc.chain ++ [block]
        accountBalances := block.transfers.foldl Book.post bc.accountBalances
        chain_ne := List.append_ne_nil_of_right_ne_nil _ (List.cons_ne_nil _ _) } :=
  foldl_processTransaction _ _

@[simp] theorem chain_pushBlock : (bc.pushBlock block).chain = bc.chain ++ [block] := by
  rw [pushBlock_eq]

theorem getBalance_pushBlock (a : Bytes) :
    (bc.pushBlock block).getBalance a = bc.getBalance a + net block.transfers a := by
  rw [pushBlock_eq]
  exact Book.balance_foldl_post _ _ a

theorem total_pushBlock :
    (bc.pushBlock block).accountBalances.total = bc.accountBalances.total := by
  rw [pushBlock_eq]
  exact Book.total_foldl_post _ _

end Blockchain

/-! ### Runs -/

/-- A block offered to `addBlock` while these validators are registered: `registerValidator` and
`removeValidator` have no body, so the pools may be any at every call. -/
structure Offer where
  block : Block
  messageValidators : List Validator
  financialValidators : List Validator

namespace Blockchain

/-- The blockchain as the offer meets it. -/
def withPools (bc : Blockchain) (o : Offer) : Blockchain :=
  { bc with messageValidators := o.messageValidators, financialValidators := o.financialValidators }

/-- The state a call of `addBlock` leaves, whether it returns or throws. -/
def step (E : Env) (bc : Blockchain) (o : Offer) : Blockchain :=
  ((bc.withPools o).addBlock E o.block).2

theorem step_cases (E : Env) (bc : Blockchain) (o : Offer) :
    ((bc.withPools o).Accepts E o.block ∧ bc.step E o = (bc.withPools o).pushBlock o.block) ∨
      (¬ (bc.withPools o).Accepts E o.block ∧ bc.step E o = bc.withPools o) := by
  rcases addBlock_cases E (bc.withPools o) o.block with ⟨hacc, heq⟩ | ⟨hacc, err, heq⟩
  · exact .inl ⟨hacc, by rw [step, heq]⟩
  · exact .inr ⟨hacc, by rw [step, heq]⟩

end Blockchain

/-! ### Sample values

A hash function with results of the right length, a toy signature scheme, validators, and a chain on
which `alice` holds 10. The pools hold the same validator, one that votes on every block, so nothing
hangs on the pool that `reachConsensus` selects. -/

namespace Sample

def env : Env :=
  { sha256 := fun _ => List.replicate 64 48, isValid := fun _ => true }

def validator (name : String) (type : ValidatorType) : Validator :=
  Validator.init (ascii name) type ⟨8000, 16384, 100⟩

def validators : List Validator :=
  [validator "h" .hybrid]

def parts : Parts :=
  { inputHash := fun _ => List.replicate 64 48, outputHash := fun _ => List.replicate 64 48,
    inputVerify := fun _ => true }

/-- A signature is the message followed by the key, a ciphertext too. -/
def encryption : Encryption where
  encrypt message recipientPublicKey := some (message ++ recipientPublicKey)
  sign message privateKey := some (message ++ privateKey)
  generatePublicKey privateKey := some privateKey
  verify message signature publicKey := signature == message ++ publicKey

def payment (recipient : String) (amount : Amount) : Transaction :=
  { Transaction.ofParties parts id (ascii "alice") (ascii recipient) .financial 1700000000 amount with
    amount := amount }

def genesis : Block :=
  Block.init env 1700000000 0 [] (ascii "0")

def blockchain : Blockchain :=
  { Blockchain.init env 1700000000 with
    accountBalances := Book.adjust ∅ (ascii "alice") (· + 10)
    messageValidators := validators
    financialValidators := validators }

def block (transactions : List Transaction) : Block :=
  Block.init env 1700000060 1 transactions genesis.hash

def offered (block : Block) : Offer :=
  ⟨block, validators, validators⟩

def offer (transactions : List Transaction) : Offer :=
  offered (block transactions)

end Sample
end BlockchainMessaging
