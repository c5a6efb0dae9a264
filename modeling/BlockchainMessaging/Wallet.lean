import BlockchainMessaging.TransactionVerify

/-!
# The wallet (`wallet/wallet.hpp`, `wallet/wallet.cpp`)

`createTransaction` checks the amount against the balance and nothing else: it gives the transaction no
input, takes negative amounts, and leaves the balance as it is. The message boxes and the other
histories are left out, `createTransaction` does not touch them.
-/

namespace BlockchainMessaging
open Machine

/-- `setAmount` and `signTransaction`, which the repository calls and nowhere declares. On a
transaction with one output, the constructor's, `setAmount` records the amount; `signTransaction`
records a signature in the inputs. Neither throws. -/
structure Setters where
  setAmount : Amount → Transaction → Transaction
  signTransaction : Bytes → Transaction → Transaction
  setAmount_eq : ∀ amount tx output, tx.outputs = [output] →
    setAmount amount tx = { tx with amount := amount, outputs := [{ output with amount := amount }] }
  signTransaction_eq : ∀ privateKey tx, ∃ inputs,
    signTransaction privateKey tx = { tx with inputs := inputs }

structure Wallet where
  address : Bytes
  privateKey : Bytes
  balance : Amount
  pending : List Transaction

namespace Wallet

/-- `now` and `uninit` are those of the constructor. -/
def newTransaction (S : Setters) (P : Parts) (doubleHash : Bytes → Bytes) (now : ℤ)
    (uninit : Amount) (w : Wallet) (recipient : Bytes) (amount : Amount) : Transaction :=
  let tx := Transaction.ofParties P doubleHash w.address recipient .financial now uninit
  S.signTransaction w.privateKey (S.setAmount amount tx)

/-- `.error` is the `std::runtime_error` thrown, next to the state it leaves. -/
def createTransaction (S : Setters) (P : Parts) (doubleHash : Bytes → Bytes) (now : ℤ)
    (uninit : Amount) (w : Wallet) (recipient : Bytes) (amount : Amount) :
    Except String Transaction × Wallet :=
  if amount > w.balance then (.error "Insufficient funds", w)
  else
    let tx := w.newTransaction S P doubleHash now uninit recipient amount
    (.ok tx, { w with pending := w.pending ++ [tx] })

variable {S : Setters} {P : Parts} {doubleHash : Bytes → Bytes} {now : ℤ} {uninit : Amount}
  {w : Wallet} {recipient : Bytes} {amount : Amount} {tx : Transaction}

theorem createTransaction_of_lt (h : w.balance < amount) :
    w.createTransaction S P doubleHash now uninit recipient amount =
      (.error "Insufficient funds", w) :=
  if_pos h

theorem createTransaction_of_le (h : amount ≤ w.balance) :
    w.createTransaction S P doubleHash now uninit recipient amount =
      (.ok (w.newTransaction S P doubleHash now uninit recipient amount),
        { w with pending := w.pending ++
          [w.newTransaction S P doubleHash now uninit recipient amount] }) :=
  if_neg (not_lt.2 h)

theorem createTransaction_eq_ok_iff :
    (w.createTransaction S P doubleHash now uninit recipient amount).1 = .ok tx ↔
      amount ≤ w.balance ∧ tx = w.newTransaction S P doubleHash now uninit recipient amount := by
  rcases lt_or_ge w.balance amount with hlt | hle
  · rw [createTransaction_of_lt hlt]
    simp [hlt]
  · rw [createTransaction_of_le hle]
    simp [hle, eq_comm]

theorem setAmount_ofParties (S : Setters) (amount : Amount) (sender recipient : Bytes) :
    S.setAmount amount (Transaction.ofParties P doubleHash sender recipient .financial now uninit) =
      { Transaction.ofParties P doubleHash sender recipient .financial now uninit with
        amount := amount
        outputs := [{ Transaction.basicOutput recipient uninit with amount := amount }] } :=
  S.setAmount_eq _ _ _ rfl

theorem newTransaction_eq : ∃ inputs,
    w.newTransaction S P doubleHash now uninit recipient amount =
      { Transaction.ofParties P doubleHash w.address recipient .financial now uninit with
        amount := amount
        outputs := [{ Transaction.basicOutput recipient uninit with amount := amount }]
        inputs := inputs } := by
  obtain ⟨inputs, h⟩ := S.signTransaction_eq w.privateKey (S.setAmount amount
    (Transaction.ofParties P doubleHash w.address recipient .financial now uninit))
  refine ⟨inputs, ?_⟩
  rw [newTransaction, h, setAmount_ofParties]

theorem type_newTransaction :
    (w.newTransaction S P doubleHash now uninit recipient amount).type = .financial := by
  obtain ⟨inputs, h⟩ := newTransaction_eq (S := S) (P := P) (w := w)
  rw [h]
  rfl

theorem transfer_newTransaction :
    (w.newTransaction S P doubleHash now uninit recipient amount).transfer =
      ⟨w.address, recipient, amount⟩ := by
  obtain ⟨inputs, h⟩ := newTransaction_eq (S := S) (P := P) (w := w)
  rw [h]
  rfl

theorem amount_newTransaction :
    (w.newTransaction S P doubleHash now uninit recipient amount).amount = amount :=
  congrArg Ledger.Transfer.amount transfer_newTransaction

theorem inputs_newTransaction {E : Encryption}
    (hsign : ∀ privateKey tx, S.signTransaction privateKey tx =
      (tx.sign P doubleHash E privateKey).2) :
    (w.newTransaction S P doubleHash now uninit recipient amount).inputs = [] := by
  have hnil : (S.setAmount amount (Transaction.ofParties P doubleHash w.address recipient .financial
      now uninit)).inputs = [] := by
    rw [setAmount_ofParties]
    rfl
  rw [newTransaction, hsign, Transaction.sign_of_inputs_nil P doubleHash E _ hnil]
  exact hnil

end Wallet

/-- The transaction `createTransaction` returns has no input, so `verify` rejects it, whatever the
wallet, the recipient and the amount. -/
theorem verify_createTransaction (S : Setters) (P : Parts) (doubleHash : Bytes → Bytes)
    (E : Encryption)
    (hsign : ∀ privateKey tx, S.signTransaction privateKey tx =
      (tx.sign P doubleHash E privateKey).2)
    (now : ℤ) (uninit : Amount) (w : Wallet) (recipient : Bytes) (amount : Amount)
    (tx : Transaction)
    (hret : (w.createTransaction S P doubleHash now uninit recipient amount).1 = .ok tx) :
    tx.verify P doubleHash E = false := by
  obtain ⟨-, rfl⟩ := Wallet.createTransaction_eq_ok_iff.1 hret
  rw [← Bool.not_eq_true, Transaction.verify_iff]
  exact fun hv => hv.1 (Wallet.inputs_newTransaction hsign)

section
open Sample

/-- `signTransaction` is `Transaction::sign`. -/
def Sample.setters : Setters where
  setAmount amount tx :=
    { tx with amount := amount, outputs := tx.outputs.map ({ · with amount := amount }) }
  signTransaction privateKey tx := (tx.sign parts id encryption privateKey).2
  setAmount_eq amount tx output h := by rw [h]; rfl
  signTransaction_eq privateKey tx := tx.exists_sign_eq parts id encryption privateKey

def Sample.wallet : Wallet :=
  { address := ascii "alice", privateKey := ascii "key", balance := 10, pending := [] }

/-- A payment of 5 from a wallet that holds 10. -/
theorem payment_not_verified :
    ¬ ∀ (S : Setters) (P : Parts) (doubleHash : Bytes → Bytes) (E : Encryption),
      (∀ privateKey tx, S.signTransaction privateKey tx =
        (tx.sign P doubleHash E privateKey).2) →
      (∀ message privateKey signature publicKey, E.sign message privateKey = some signature →
        E.generatePublicKey privateKey = some publicKey →
          E.verify message signature publicKey = true) →
      ∀ (now : ℤ) (uninit : Amount) (w : Wallet) (recipient : Bytes) (amount : Amount)
        (tx : Transaction),
        (w.createTransaction S P doubleHash now uninit recipient amount).1 = .ok tx →
          tx.verify P doubleHash E = true := by
  intro h
  have hv := h setters parts id encryption (fun _ _ => rfl) (fun message privateKey => by
    rintro _ _ ⟨⟩ ⟨⟩
    exact beq_self_eq_true (message ++ privateKey)) 1700000000 0 wallet (ascii "bob") 5 _ rfl
  revert hv
  decide +kernel

theorem verify_createTransaction_wallet :
    (wallet.newTransaction setters parts id 1700000000 0 (ascii "bob") 5).verify parts id
      encryption = false :=
  verify_createTransaction setters parts id encryption (fun _ _ => rfl) 1700000000 0 wallet
    (ascii "bob") 5 _ rfl

end

/-! ### What the pending transactions add up to -/

/-- A call of `createTransaction`, with what the constructor reads besides. -/
structure PaymentRequest where
  recipient : Bytes
  amount : Amount
  now : ℤ
  uninit : Amount

namespace Wallet
variable {S : Setters} {P : Parts} {doubleHash : Bytes → Bytes} {w : Wallet}

/-- The state a call leaves, whether it returns or throws. -/
def step (S : Setters) (P : Parts) (doubleHash : Bytes → Bytes) (w : Wallet) (r : PaymentRequest) :
    Wallet :=
  (w.createTransaction S P doubleHash r.now r.uninit r.recipient r.amount).2

def promised (w : Wallet) : Amount :=
  (w.pending.map Transaction.amount).sum

def covered (w : Wallet) (requests : List PaymentRequest) : List Amount :=
  (requests.map PaymentRequest.amount).filter (· ≤ w.balance)

theorem balance_step (w : Wallet) (r : PaymentRequest) :
    (w.step S P doubleHash r).balance = w.balance := by
  unfold step createTransaction
  split <;> rfl

theorem promised_step (w : Wallet) (r : PaymentRequest) :
    (w.step S P doubleHash r).promised = w.promised + (w.covered [r]).sum := by
  rcases lt_or_ge w.balance r.amount with hlt | hle
  · simp [step, createTransaction_of_lt hlt, covered, not_le.2 hlt]
  · simp [step, createTransaction_of_le hle, covered, promised, hle, amount_newTransaction]

theorem covered_cons (w : Wallet) (r : PaymentRequest) (requests : List PaymentRequest) :
    w.covered (r :: requests) = w.covered [r] ++ w.covered requests := by
  rw [covered, ← List.singleton_append, List.map_append, List.filter_append]
  rfl

theorem promised_run (w : Wallet) (requests : List PaymentRequest) :
    (run (step S P doubleHash) w requests).promised = w.promised + (w.covered requests).sum := by
  induction requests generalizing w with
  | nil => exact (add_zero _).symm
  | cons r requests ih =>
    have hcovered : (w.step S P doubleHash r).covered requests = w.covered requests := by
      rw [covered, balance_step, covered]
    calc (run (step S P doubleHash) (w.step S P doubleHash r) requests).promised
        = w.promised + (w.covered [r]).sum + (w.covered requests).sum := by
          rw [ih, promised_step, hcovered]
      _ = w.promised + (w.covered (r :: requests)).sum := by
          rw [covered_cons w r requests, List.sum_append, add_assoc]

theorem sum_covered_take_le {requests : List PaymentRequest} (h : ∀ r ∈ requests, 0 ≤ r.amount)
    (n : ℕ) : (w.covered (requests.take n)).sum ≤ (w.covered requests).sum := by
  have hsub : (w.covered (requests.take n)).Sublist (w.covered requests) :=
    ((List.take_sublist n requests).map _).filter _
  refine hsub.sum_le_sum fun amount hmem => ?_
  obtain ⟨r, hr, rfl⟩ := List.mem_map.1 (List.mem_of_mem_filter hmem)
  exact h r hr

end Wallet

/-- Every request is checked against the whole balance. The pending transactions stay within the
balance during the calls exactly when the amounts that do not exceed it add up to at most the
balance. -/
theorem wallet_promised_le_iff (S : Setters) (P : Parts) (doubleHash : Bytes → Bytes) (w : Wallet)
    (hpending : w.pending = []) (requests : List PaymentRequest)
    (hamounts : ∀ r ∈ requests, 0 ≤ r.amount) :
    (∀ n, (run (Wallet.step S P doubleHash) w (requests.take n)).promised ≤ w.balance) ↔
      ((requests.map PaymentRequest.amount).filter (· ≤ w.balance)).sum ≤ w.balance := by
  have hrun : ∀ is, (run (Wallet.step S P doubleHash) w is).promised = (w.covered is).sum := by
    intro is
    rw [Wallet.promised_run, Wallet.promised, hpending, List.map_nil, List.sum_nil, zero_add]
  simp only [hrun]
  constructor
  · intro h
    have hall := h requests.length
    rwa [List.take_length] at hall
  · exact fun h n => (Wallet.sum_covered_take_le hamounts n).trans h

section
open Sample

def Sample.request (recipient : String) (amount : Amount) : PaymentRequest :=
  ⟨ascii recipient, amount, 1700000000, 0⟩

/-- Two payments of 6 from a wallet that holds 10. -/
theorem promised_twice :
    ¬ ∀ (S : Setters) (P : Parts) (doubleHash : Bytes → Bytes) (w : Wallet), w.pending = [] →
      0 ≤ w.balance → ∀ requests : List PaymentRequest, (∀ r ∈ requests, 0 ≤ r.amount) →
        (run (Wallet.step S P doubleHash) w requests).promised ≤ w.balance := by
  intro h
  have hle := h setters parts id wallet rfl (by decide +kernel)
    [request "bob" 6, request "carol" 6] (by decide +kernel)
  revert hle
  decide +kernel

theorem wallet_promised_le_iff_wallet :
    (run (Wallet.step setters parts id) wallet
      ([request "bob" 6, request "carol" 11, request "carol" 4].take 3)).promised ≤ 10 :=
  (wallet_promised_le_iff setters parts id wallet rfl
    [request "bob" 6, request "carol" 11, request "carol" 4] (by decide +kernel)).2
    (by decide +kernel) 3

end

/-! ### The wallet's payment in a block -/

namespace Blockchain
variable {bc : Blockchain} {block : Block}

theorem chain_concat_ne (bc : Blockchain) (block : Block) : bc.chain ++ [block] ≠ [] :=
  List.append_ne_nil_of_right_ne_nil _ (List.cons_ne_nil _ _)

/-- The state in which `addBlock` has pushed the block and applied its first `n` transactions. -/
def applied (bc : Blockchain) (block : Block) (n : ℕ) : Blockchain :=
  (block.transactions.take n).foldl processTransaction
    { bc with chain := bc.chain ++ [block], chain_ne := bc.chain_concat_ne block }

theorem applied_length (bc : Blockchain) (block : Block) :
    bc.applied block block.transactions.length = bc.pushBlock block := by
  rw [applied, List.take_length, pushBlock]

theorem addBlock_eq_applied {E : Env} (hadd : (bc.addBlock E block).1 = .ok ()) :
    (bc.addBlock E block).2 = bc.applied block block.transactions.length := by
  rw [applied_length]
  rcases addBlock_cases E bc block with ⟨-, heq⟩ | ⟨-, err, heq⟩
  · rw [heq]
  · rw [heq] at hadd
    cases hadd

theorem applied_succ {i : ℕ} {tx : Transaction} (hi : block.transactions[i]? = some tx) :
    bc.applied block (i + 1) = (bc.applied block i).processTransaction tx := by
  rw [applied, List.take_add_one, hi, Option.toList_some, List.foldl_concat]
  rfl

theorem getBalance_processTransaction {tx : Transaction} (h : tx.type = .financial) (a : Bytes) :
    (bc.processTransaction tx).getBalance a = bc.getBalance a + tx.transfer.effect a := by
  rw [processTransaction, if_pos h]
  exact Ledger.Book.balance_post bc.accountBalances tx.transfer a

end Blockchain

/-- None of the checks on the way looks at the sign of the amount. While `addBlock` applies the
transactions of a block it has accepted, the wallet's payment leaves another recipient with at least
what it had exactly when the amount is not negative. -/
theorem payment_credits_iff (S : Setters) (P : Parts) (doubleHash : Bytes → Bytes) (now : ℤ)
    (uninit : Amount) (w : Wallet) (recipient : Bytes) (amount : Amount) (tx : Transaction)
    (hret : (w.createTransaction S P doubleHash now uninit recipient amount).1 = .ok tx)
    (E : Env) (bc : Blockchain) (block : Block) (hadd : (bc.addBlock E block).1 = .ok ())
    (i : ℕ) (hi : block.transactions[i]? = some tx) (hne : recipient ≠ w.address) :
    (bc.addBlock E block).2 = bc.applied block block.transactions.length ∧
      ((bc.applied block i).getBalance recipient ≤
        (bc.applied block (i + 1)).getBalance recipient ↔ 0 ≤ amount) := by
  refine ⟨Blockchain.addBlock_eq_applied hadd, ?_⟩
  obtain ⟨-, rfl⟩ := Wallet.createTransaction_eq_ok_iff.1 hret
  rw [Blockchain.applied_succ hi,
    Blockchain.getBalance_processTransaction Wallet.type_newTransaction,
    Wallet.transfer_newTransaction, Ledger.Transfer.effect, if_pos rfl, if_neg (Ne.symm hne),
    sub_zero, le_add_iff_nonneg_right]

section
open Sample

/-- A payment of -5 to `bob`. -/
theorem payment_takes :
    ¬ ∀ (S : Setters) (P : Parts) (doubleHash : Bytes → Bytes) (now : ℤ) (uninit : Amount)
      (w : Wallet) (recipient : Bytes) (amount : Amount) (tx : Transaction),
      (w.createTransaction S P doubleHash now uninit recipient amount).1 = .ok tx →
      ∀ (E : Env) (bc : Blockchain) (block : Block), (bc.addBlock E block).1 = .ok () →
        ∀ i : ℕ, block.transactions[i]? = some tx → recipient ≠ w.address →
          (bc.applied block i).getBalance recipient ≤
            (bc.applied block (i + 1)).getBalance recipient := by
  intro h
  have hle := h setters parts id 1700000000 0 wallet (ascii "bob") (-5) _ rfl env blockchain
    (block [wallet.newTransaction setters parts id 1700000000 0 (ascii "bob") (-5)])
    (by decide +kernel) 0 rfl (by decide)
  revert hle
  decide +kernel

theorem payment_credits_iff_wallet :
    let b := block [payment "carol" 1,
      wallet.newTransaction setters parts id 1700000000 0 (ascii "bob") 5]
    (blockchain.applied b 1).getBalance (ascii "bob") ≤
      (blockchain.applied b 2).getBalance (ascii "bob") :=
  (payment_credits_iff setters parts id 1700000000 0 wallet (ascii "bob") 5 _ rfl env blockchain
    (block [payment "carol" 1,
      wallet.newTransaction setters parts id 1700000000 0 (ascii "bob") 5])
    (by decide +kernel) 1 rfl (by decide)).2.2 (by decide +kernel)

end
end BlockchainMessaging
