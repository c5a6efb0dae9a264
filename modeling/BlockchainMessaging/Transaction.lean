import BlockchainMessaging.Text
import Mathlib.Data.Rat.Defs

/-!
# Transactions (`core/transaction.hpp`, `core/transaction.cpp`)

Amounts are exact rationals in place of `double`. `type`, `sender`, `recipient` and `amount` are the
attributes read by `getType`, `getSender`, `getRecipient` and `getAmount`: the rest of the repository
calls these, but the header declares no member behind them. No modelled function below uses them, in
particular none of them enters the hash.
-/

namespace BlockchainMessaging

abbrev Amount := ℚ

inductive TransactionType where
  | financial | message | reward
deriving DecidableEq, Repr

inductive TransactionStatus where
  | pending | confirmed | failed | expired
deriving DecidableEq, Repr

/-- `static_cast<int>(status)`. -/
def TransactionStatus.toNat : TransactionStatus → ℕ
  | .pending => 0
  | .confirmed => 1
  | .failed => 2
  | .expired => 3

theorem TransactionStatus.toNat_injective : Function.Injective TransactionStatus.toNat := by
  intro s t h
  cases s <;> cases t <;> first | rfl | cases h

/-- `amount` is read by `getTotalInput`; the header does not declare it. -/
structure TransactionInput where
  previousTxHash : Bytes
  outputIndex : UInt32
  signature : Bytes
  publicKey : Bytes
  amount : Amount
deriving DecidableEq

structure TransactionOutput where
  recipient : Bytes
  amount : Amount
  scriptPubKey : Bytes
  isSpent : Bool
deriving DecidableEq

structure Transaction where
  hash : Bytes
  inputs : List TransactionInput
  outputs : List TransactionOutput
  lockTime : UInt32
  status : TransactionStatus
  timestamp : ℤ
  encryptedMessage : Bytes
  messageRecipient : Bytes
  contractAddress : Bytes
  methodSignature : Bytes
  parameters : List Bytes
  type : TransactionType
  sender : Bytes
  recipient : Bytes
  amount : Amount
deriving DecidableEq

/-- The members of inputs and outputs that are declared without a body:
`TransactionInput::getHash`, `TransactionOutput::getHash` and `TransactionInput::verify`. -/
structure Parts where
  inputHash : TransactionInput → Bytes
  outputHash : TransactionOutput → Bytes
  inputVerify : TransactionInput → Bool

/-- One use of the `Encryption` class; `none` is a thrown exception. -/
structure Encryption where
  encrypt : Bytes → Bytes → Option Bytes
  sign : Bytes → Bytes → Option Bytes
  generatePublicKey : Bytes → Option Bytes
  verify : Bytes → Bytes → Bytes → Bool

namespace Transaction

/-! ### The hash -/

def messageSection (tx : Transaction) : Bytes :=
  if tx.encryptedMessage.isEmpty then [] else tx.encryptedMessage ++ tx.messageRecipient

def contractSection (tx : Transaction) : Bytes :=
  if tx.contractAddress.isEmpty then []
  else tx.contractAddress ++ tx.methodSignature ++ tx.parameters.flatten

/-- The string `calculateHash` collects in its `stringstream` and digests. -/
def preimage (P : Parts) (tx : Transaction) : Bytes :=
  decimalInt tx.timestamp ++ (tx.inputs.map P.inputHash).flatten ++
    (tx.outputs.map P.outputHash).flatten ++ decimal tx.lockTime.toNat ++ decimal tx.status.toNat ++
    tx.messageSection ++ tx.contractSection

/-- `doubleHash` stands for `SHA256::doubleHash`. -/
def calculateHash (P : Parts) (doubleHash : Bytes → Bytes) (tx : Transaction) : Bytes :=
  doubleHash (tx.preimage P)

def getHash (tx : Transaction) : Bytes :=
  tx.hash

/-! ### Constructors

`now` is the value of `std::time(nullptr)`; `uninit` is what an amount holds before it is set. -/

/-- `Transaction(type)`. -/
def ofType (P : Parts) (doubleHash : Bytes → Bytes) (type : TransactionType) (now : ℤ)
    (uninit : Amount) : Transaction :=
  let tx : Transaction :=
    { hash := [], inputs := [], outputs := [], lockTime := 0, status := .pending, timestamp := now,
      encryptedMessage := [], messageRecipient := [], contractAddress := [], methodSignature := [],
      parameters := [], type := type, sender := [], recipient := [], amount := uninit }
  { tx with hash := tx.calculateHash P doubleHash }

/-- The output created by the three-argument constructor. -/
def basicOutput (recipient : Bytes) (uninit : Amount) : TransactionOutput :=
  { recipient := recipient, amount := uninit, scriptPubKey := [], isSpent := false }

/-- `Transaction(sender, recipient, type)`: the delegated constructor has hashed the transaction
before the output is pushed. -/
def ofParties (P : Parts) (doubleHash : Bytes → Bytes) (sender recipient : Bytes)
    (type : TransactionType) (now : ℤ) (uninit : Amount) : Transaction :=
  let tx := ofType P doubleHash type now uninit
  { tx with
    outputs := tx.outputs ++ [basicOutput recipient uninit]
    sender := sender
    recipient := recipient }

/-! ### Mutators -/

/-- The loop of `sign` over the inputs: an exception from `generatePublicKey` leaves the inputs
signed so far, and the current one with its new signature, behind. -/
def signInputs (E : Encryption) (signature privateKey : Bytes) :
    List TransactionInput → Bool × List TransactionInput
  | [] => (true, [])
  | input :: rest =>
    match E.generatePublicKey privateKey with
    | none => (false, { input with signature := signature } :: rest)
    | some publicKey =>
      let r := signInputs E signature privateKey rest
      (r.1, { input with signature := signature, publicKey := publicKey } :: r.2)

def sign (P : Parts) (doubleHash : Bytes → Bytes) (E : Encryption) (privateKey : Bytes)
    (tx : Transaction) : Bool × Transaction :=
  match E.sign (tx.calculateHash P doubleHash) privateKey with
  | none => (false, tx)
  | some signature =>
    let r := signInputs E signature privateKey tx.inputs
    (r.1, { tx with inputs := r.2 })

/-- `none` when `Encryption::encrypt` throws. -/
def setMessage (E : Encryption) (message recipientPublicKey : Bytes) (tx : Transaction) :
    Option Transaction :=
  (E.encrypt message recipientPublicKey).map fun encrypted =>
    { tx with encryptedMessage := encrypted, messageRecipient := recipientPublicKey }

def setContractCall (P : Parts) (doubleHash : Bytes → Bytes) (contractAddr method : Bytes)
    (params : List Bytes) (tx : Transaction) : Transaction :=
  let tx := { tx with contractAddress := contractAddr, methodSignature := method, parameters := params }
  { tx with hash := tx.calculateHash P doubleHash }

/-! ### Verification -/

def getTotalInput (tx : Transaction) : Amount :=
  tx.inputs.foldl (fun total input => total + input.amount) 0

def getTotalOutput (tx : Transaction) : Amount :=
  tx.outputs.foldl (fun total output => total + output.amount) 0

def verify (P : Parts) (doubleHash : Bytes → Bytes) (E : Encryption) (tx : Transaction) : Bool :=
  if tx.inputs.isEmpty || tx.outputs.isEmpty then false
  else if tx.getTotalInput < tx.getTotalOutput then false
  else if !tx.inputs.all P.inputVerify then false
  else tx.inputs.all fun input =>
    E.verify (tx.calculateHash P doubleHash) input.signature input.publicKey

theorem exists_sign_eq (P : Parts) (doubleHash : Bytes → Bytes) (E : Encryption)
    (privateKey : Bytes) (tx : Transaction) :
    ∃ inputs, (tx.sign P doubleHash E privateKey).2 = { tx with inputs := inputs } := by
  unfold sign
  split
  exacts [⟨tx.inputs, rfl⟩, ⟨_, rfl⟩]

theorem signInputs_nil (E : Encryption) (signature privateKey : Bytes) :
    signInputs E signature privateKey [] = (true, []) := rfl

/-- Without inputs there is nothing to sign. -/
theorem sign_of_inputs_nil (P : Parts) (doubleHash : Bytes → Bytes) (E : Encryption)
    (privateKey : Bytes) {tx : Transaction} (h : tx.inputs = []) :
    (tx.sign P doubleHash E privateKey).2 = tx := by
  unfold sign
  split
  · rfl
  · rw [h, signInputs_nil]
    show { tx with inputs := [] } = tx
    rw [← h]

end Transaction
end BlockchainMessaging
