import BlockchainMessaging.Mailbox
import BlockchainMessaging.NodeRuns
import BlockchainMessaging.StoredHash

/-!
# Wallets' transactions in a node's queue

`validateAndAddBlock` takes the transactions of the block out of the queue by their hashes, and the
hash of a transaction that a wallet has made is that of the clock at its construction. So the queue
loses, with each of these transactions, all that were made in the same second.
-/

namespace BlockchainMessaging
open Machine

/-- A wallet has made the transaction, by `createTransaction` or `createMessage`. -/
def MailEnv.Made (M : MailEnv) (tx : Transaction) : Prop :=
  ∃ balance keys call, tx ∈ MailWallet.paid M balance keys call ++ MailWallet.written M keys call

/-- The digests tell apart the seconds in which these transactions were made. -/
def MailEnv.TellsClocks (M : MailEnv) (txs : List Transaction) : Prop :=
  ∀ tx ∈ txs, ∀ tx' ∈ txs, M.doubleHash (decimalInt tx.timestamp ++ ascii "00") =
    M.doubleHash (decimalInt tx'.timestamp ++ ascii "00") → tx.timestamp = tx'.timestamp

namespace MailEnv.Made
variable {M : MailEnv} {tx tx' : Transaction}

/-- Neither `setAmount` nor `setMessage` nor the signature touches the stored hash. -/
theorem getHash (h : M.Made tx) : tx.getHash = M.doubleHash (decimalInt tx.timestamp ++ ascii "00") := by
  obtain ⟨balance, keys, call, htx⟩ := h
  rcases List.mem_append.1 htx with htx | htx
  · cases call with
    | createTransaction r =>
      rw [MailWallet.paid, List.mem_ite_nil_right, List.mem_singleton] at htx
      obtain ⟨-, rfl⟩ := htx
      let w : Wallet := ⟨keys.address, keys.privateKey, balance, []⟩
      have hnew : ∃ inputs, w.newTransaction M.setters M.parts M.doubleHash r.now r.uninit r.recipient
          r.amount = { Transaction.ofParties M.parts M.doubleHash w.address r.recipient .financial r.now
            r.uninit with
            amount := r.amount
            outputs := [{ Transaction.basicOutput r.recipient r.uninit with amount := r.amount }]
            inputs := inputs } := Wallet.newTransaction_eq
      obtain ⟨inputs, heq⟩ := hnew
      rw [heq]
      exact Transaction.hash_ofType M.parts M.doubleHash .financial r.now r.uninit
    | createMessage recipient message now uninit randBytes => cases htx
    | receiveMessage messageTx => cases htx
    | generateNewKeys draw => cases htx
  · cases call with
    | createMessage recipient message now uninit randBytes =>
      cases randBytes with
      | none => cases htx
      | some iv =>
        rw [MailWallet.written, List.mem_singleton] at htx
        subst htx
        obtain ⟨inputs, heq⟩ := M.setters.signTransaction_eq keys.privateKey
          { Transaction.ofParties M.parts M.doubleHash keys.address recipient .message now uninit with
            encryptedMessage := M.evp.encryptUpdate Evp.zeroKey iv message
            messageRecipient := recipient }
        rw [heq]
        exact Transaction.hash_ofType M.parts M.doubleHash .message now uninit
    | createTransaction r => cases htx
    | receiveMessage messageTx => cases htx
    | generateNewKeys draw => cases htx

theorem getHash_eq_iff {txs : List Transaction} (hM : M.TellsClocks txs) (h : M.Made tx)
    (h' : M.Made tx') (hmem : tx ∈ txs) (hmem' : tx' ∈ txs) :
    tx.getHash = tx'.getHash ↔ tx.timestamp = tx'.timestamp := by
  rw [h.getHash, h'.getHash]
  exact ⟨hM tx hmem tx' hmem', fun htime => by rw [htime]⟩

end MailEnv.Made

theorem Node.exists_submitted_of_mem_waiting {E : Env} {tx : Transaction} {node : Node}
    {calls : List NodeCall} (h : tx ∈ Node.waiting E node calls) :
    ∃ call ∈ calls, tx ∈ call.submitted E := by
  induction calls generalizing node with
  | nil => cases h
  | cons call calls ih =>
    rcases List.mem_append.1 h with h | h
    · exact ⟨call, List.mem_cons_self, List.mem_of_mem_filter h⟩
    · obtain ⟨call', hcall', htx⟩ := ih h
      exact ⟨call', List.mem_cons_of_mem call hcall', htx⟩

/-- After any calls that submit transactions made by wallets, a block of such transactions takes out
of the queue exactly those made in a second in which one of the block's was made, its own or not. -/
theorem queue_loses_seconds (M : MailEnv) (E : Env) (now : ℤ) (calls : List NodeCall)
    (hcalls : ∀ call ∈ calls, call.Removes)
    (hmade : ∀ call ∈ calls, ∀ tx ∈ call.submitted E, M.Made tx) (o : Offer) (F : Faults)
    (hF : ∀ i, F.remove i = none) (ho : ∀ tx ∈ o.block.transactions, M.Made tx)
    (hM : M.TellsClocks (calls.flatMap (NodeCall.submitted E) ++ o.block.transactions))
    (hacc : ((run (Node.step E) (Node.init E now) calls).blockchain.withPools o).Accepts E o.block) :
    let node := run (Node.step E) (Node.init E now) calls
    (node.step E (.validateAndAddBlock o F)).pendingTransactions =
      node.pendingTransactions.filter fun tx =>
        ∀ tx' ∈ o.block.transactions, tx.timestamp ≠ tx'.timestamp := by
  intro node
  have hqueue : ∀ tx ∈ node.pendingTransactions, ∃ call ∈ calls, tx ∈ call.submitted E := by
    intro tx htx
    have hrun : node.pendingTransactions = Node.waiting E (Node.init E now) calls :=
      Node.pendingTransactions_run hcalls (Node.init E now)
    rw [hrun] at htx
    exact Node.exists_submitted_of_mem_waiting htx
  have hcall : (NodeCall.validateAndAddBlock o F).Removes := hF
  have hadded : node.addedBy E (.validateAndAddBlock o F) = [o.block] := if_pos hacc
  rw [Node.pendingTransactions_step hcall, hadded, NodeCall.submitted, List.append_nil]
  refine List.filter_congr fun tx htx => ?_
  rw [decide_eq_decide, Node.Outstanding, List.forall_mem_singleton]
  obtain ⟨call, hcall, hsub⟩ := hqueue tx htx
  refine forall₂_congr fun tx' htx' => not_congr ?_
  exact (hmade call hcall tx hsub).getHash_eq_iff hM (ho tx' htx')
    (List.mem_append_left _ (List.mem_flatMap.2 ⟨call, hcall, hsub⟩)) (List.mem_append_right _ htx')

section
open Sample

def Sample.mailEnv : MailEnv where
  setters := setters
  parts := parts
  sha256 := id
  doubleHash := paddedEnv.sha256
  evp := evp
  encryption := encryption
  verifySignature _ := true
  decrypt encrypted _ := .ok encrypted

def Sample.keys : WalletKeys :=
  ⟨ascii "key", ascii "key", ascii "alice"⟩

/-- A payment of `alice` to `bob`. -/
def Sample.made (now : ℤ) (amount : Amount) : Transaction :=
  Wallet.newTransaction setters parts paddedEnv.sha256 now 0 ⟨keys.address, keys.privateKey, 10, []⟩
    (ascii "bob") amount

theorem Sample.made_made (now : ℤ) (amount : Amount) (h : amount ≤ 10) :
    mailEnv.Made (made now amount) := by
  refine ⟨10, keys, .createTransaction ⟨ascii "bob", amount, now, 0⟩, List.mem_append_left _ ?_⟩
  rw [MailWallet.paid, if_pos h]
  exact List.mem_singleton_self _

/-- Two payments made in one second, and one made in the next. -/
def Sample.submits : List NodeCall :=
  [.submitTransaction (made 1700000060 0) none, .submitTransaction (made 1700000060 5) none,
    .submitTransaction (made 1700000061 7) none]

/-- The payment of nothing is added to the chain, the one of 5 is lost with it, the one of 7 stays. -/
theorem queue_loses_seconds_made :
    let node := run (Node.step env) (Node.init env 1700000000) submits
    (node.step env (.validateAndAddBlock (offer [made 1700000060 0])
      ⟨fun _ => none, none⟩)).pendingTransactions = [made 1700000061 7] := by
  intro node
  have hmade : ∀ call ∈ submits, ∀ tx ∈ call.submitted env, mailEnv.Made tx := by
    intro call hcall tx htx
    simp only [submits, List.mem_cons, List.not_mem_nil, or_false] at hcall
    rcases hcall with rfl | rfl | rfl <;> rw [List.mem_singleton.1 htx] <;>
      exact made_made _ _ (by decide +kernel)
  have hremoves : ∀ call ∈ submits, call.Removes := by
    intro call hcall
    simp only [submits, List.mem_cons, List.not_mem_nil, or_false] at hcall
    rcases hcall with rfl | rfl | rfl <;> trivial
  have hblock : ∀ tx ∈ (offer [made 1700000060 0]).block.transactions, mailEnv.Made tx := by
    intro tx htx
    rw [List.mem_singleton.1 htx]
    exact made_made _ _ (by decide +kernel)
  exact (queue_loses_seconds mailEnv env 1700000000 submits hremoves hmade
    (offer [made 1700000060 0]) ⟨fun _ => none, none⟩ (fun _ => rfl) hblock
    (by unfold MailEnv.TellsClocks; decide +kernel) (by decide +kernel)).trans (by decide +kernel)

end
end BlockchainMessaging
