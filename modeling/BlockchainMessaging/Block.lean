import BlockchainMessaging.Transaction

/-!
# Blocks (`core/block.hpp`, `core/block.cpp`)
-/

namespace BlockchainMessaging

/-- What blocks and chains use and the repository does not fix: SHA-256, as the function
`SHA256::hash` from strings to hexadecimal strings, and `Transaction::isValid`, which has no body. -/
structure Env where
  sha256 : Bytes → Bytes
  isValid : Transaction → Bool

structure Block where
  index : UInt32
  timestamp : ℤ
  previousHash : Bytes
  hash : Bytes
  transactions : List Transaction
  nonce : UInt32
deriving DecidableEq

namespace Block

/-- The string `calculateHash` collects in its `stringstream` and digests. -/
def preimage (block : Block) : Bytes :=
  decimal block.index.toNat ++ decimalInt block.timestamp ++ block.previousHash ++
    (block.transactions.map Transaction.getHash).flatten ++ decimal block.nonce.toNat

def calculateHash (E : Env) (block : Block) : Bytes :=
  E.sha256 block.preimage

/-- The constructor; `now` is the value of `std::time(nullptr)`. -/
def init (E : Env) (now : ℤ) (index : UInt32) (transactions : List Transaction)
    (previousHash : Bytes) : Block :=
  let block : Block :=
    { index := index, timestamp := now, previousHash := previousHash, hash := [],
      transactions := transactions, nonce := 0 }
  { block with hash := block.calculateHash E }

def isValid (E : Env) (block : Block) : Bool :=
  if block.calculateHash E ≠ block.hash then false
  else block.transactions.all E.isValid

theorem isValid_iff {E : Env} {block : Block} :
    block.isValid E = true ↔
      block.hash = block.calculateHash E ∧ ∀ tx ∈ block.transactions, E.isValid tx = true := by
  unfold isValid
  split
  · rename_i h
    simp [Ne.symm h]
  · rename_i h
    simp [(not_not.1 h).symm]

theorem isValid_init_nil (E : Env) (now : ℤ) (index : UInt32) (previousHash : Bytes) :
    (init E now index [] previousHash).isValid E = true :=
  isValid_iff.2 ⟨rfl, fun _ h => absurd h List.not_mem_nil⟩

end Block
end BlockchainMessaging
