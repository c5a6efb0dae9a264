import BlockchainMessaging.Encryption
import BlockchainMessaging.Wallet
import BlockchainMessaging.WalletKeys
import BlockchainMessaging.Lib.Interleaving

/-!
# Mailboxes (`wallet/wallet.cpp`, `core/transaction.cpp`)

The message half of the wallet. `createMessage` encrypts for the recipient's address, where
`setMessage` asks for a public key. `receiveMessage` compares addresses and checks the signature,
`getDecryptedMessages` tries the private key of the moment on everything received and skips what
throws, empty messages among it.
-/

namespace BlockchainMessaging
open Machine

/-- What the functions below use and the repository does not fix. `verifySignature` is nowhere
declared; `decrypt` has no body, `.error` is the text of an exception it throws. -/
structure MailEnv where
  setters : Setters
  parts : Parts
  sha256 : Bytes → Bytes
  doubleHash : Bytes → Bytes
  evp : Evp
  encryption : Encryption
  verifySignature : Transaction → Bool
  decrypt : Bytes → Bytes → Except String Bytes

def Transaction.decryptMessage (M : MailEnv) (recipientPrivateKey : Bytes) (tx : Transaction) :
    Except String Bytes :=
  if tx.encryptedMessage.isEmpty then .error "No encrypted message found"
  else M.decrypt tx.encryptedMessage recipientPrivateKey

structure MessageBox where
  sentMessages : List Transaction
  receivedMessages : List Transaction

/-- The wallet with its message box. -/
structure MailWallet where
  keys : WalletKeys
  balance : Amount
  pending : List Transaction
  messageBox : MessageBox

namespace MailWallet

/-- The members that `createTransaction` uses. -/
def wallet (w : MailWallet) : Wallet :=
  { address := w.keys.address, privateKey := w.keys.privateKey, balance := w.balance
    pending := w.pending }

/-- `.error` is the exception of `encrypt`; `randBytes` is the IV it draws. -/
def createMessage (M : MailEnv) (now : ℤ) (uninit : Amount) (randBytes : Option IV) (w : MailWallet)
    (recipient message : Bytes) : Except String Transaction × MailWallet :=
  let messageTx :=
    Transaction.ofParties M.parts M.doubleHash w.keys.address recipient .message now uninit
  match messageTx.setMessage (M.evp.encryption randBytes M.encryption) message recipient with
  | none => (.error "Failed to generate IV", w)
  | some messageTx =>
    let messageTx := M.setters.signTransaction w.keys.privateKey messageTx
    (.ok messageTx, { w with
      messageBox := { w.messageBox with
        sentMessages := w.messageBox.sentMessages ++ [messageTx] } })

def receiveMessage (M : MailEnv) (w : MailWallet) (messageTx : Transaction) :
    Except String Unit × MailWallet :=
  if messageTx.recipient ≠ w.keys.address then (.error "Message not intended for this wallet", w)
  else if M.verifySignature messageTx then
    (.ok (), { w with
      messageBox := { w.messageBox with
        receivedMessages := w.messageBox.receivedMessages ++ [messageTx] } })
  else (.ok (), w)

def getDecryptedMessages (M : MailEnv) (w : MailWallet) : List Bytes :=
  w.messageBox.receivedMessages.filterMap fun messageTx =>
    (messageTx.decryptMessage M w.keys.privateKey).toOption

end MailWallet

/-- A call on a wallet, with the clock and the random values that it reads. -/
inductive WalletCall where
  | createTransaction (r : PaymentRequest)
  | createMessage (recipient message : Bytes) (now : ℤ) (uninit : Amount) (randBytes : Option IV)
  | receiveMessage (messageTx : Transaction)
  | generateNewKeys (draw : Fin 4 → UInt64)

namespace MailWallet

/-- The state a call leaves, whether it returns or throws. -/
def step (M : MailEnv) (w : MailWallet) : WalletCall → MailWallet
  | .createTransaction r =>
    { w with pending := (w.wallet.step M.setters M.parts M.doubleHash r).pending }
  | .createMessage recipient message now uninit randBytes =>
    (w.createMessage M now uninit randBytes recipient message).2
  | .receiveMessage messageTx => (w.receiveMessage M messageTx).2
  | .generateNewKeys draw =>
    { w with keys := (w.keys.generateNewKeys M.encryption M.sha256 draw).2 }

/-! ### What a call adds, as far as the keys decide it -/

def keysAfter (M : MailEnv) (keys : WalletKeys) : WalletCall → WalletKeys
  | .generateNewKeys draw => (keys.generateNewKeys M.encryption M.sha256 draw).2
  | _ => keys

/-- The transaction of a call of `createTransaction` that returns. -/
def paid (M : MailEnv) (balance : Amount) (keys : WalletKeys) : WalletCall → List Transaction
  | .createTransaction r =>
    if r.amount ≤ balance then
      [Wallet.newTransaction M.setters M.parts M.doubleHash r.now r.uninit
        ⟨keys.address, keys.privateKey, balance, []⟩ r.recipient r.amount]
    else []
  | _ => []

/-- The message as it goes out: signed after the ciphertext is in it, hashed before. -/
def written (M : MailEnv) (keys : WalletKeys) : WalletCall → List Transaction
  | .createMessage recipient message now uninit (some iv) =>
    [M.setters.signTransaction keys.privateKey
      { Transaction.ofParties M.parts M.doubleHash keys.address recipient .message now uninit with
        encryptedMessage := M.evp.encryptUpdate Evp.zeroKey iv message
        messageRecipient := recipient }]
  | _ => []

def taken (M : MailEnv) (keys : WalletKeys) : WalletCall → List Transaction
  | .receiveMessage messageTx =>
    if messageTx.recipient = keys.address ∧ M.verifySignature messageTx = true then [messageTx]
    else []
  | _ => []

variable {M : MailEnv} {w : MailWallet} {call : WalletCall}

theorem mem_taken {keys : WalletKeys} {tx : Transaction} :
    tx ∈ taken M keys call ↔
      call = .receiveMessage tx ∧ tx.recipient = keys.address ∧ M.verifySignature tx = true := by
  cases call with
  | receiveMessage messageTx =>
    rw [taken, List.mem_ite_nil_right, List.mem_singleton, WalletCall.receiveMessage.injEq]
    constructor
    · rintro ⟨h, rfl⟩
      exact ⟨rfl, h⟩
    · rintro ⟨rfl, h⟩
      exact ⟨h, rfl⟩
  | createTransaction r => simp [taken]
  | createMessage recipient message now uninit randBytes => simp [taken]
  | generateNewKeys draw => simp [taken]

theorem createMessage_snd (M : MailEnv) (now : ℤ) (uninit : Amount) (randBytes : Option IV)
    (w : MailWallet) (recipient message : Bytes) :
    (w.createMessage M now uninit randBytes recipient message).2 =
      { w with
        messageBox := { w.messageBox with
          sentMessages := w.messageBox.sentMessages ++
            written M w.keys (.createMessage recipient message now uninit randBytes) } } := by
  cases randBytes with
  | none =>
    have hnil : written M w.keys (.createMessage recipient message now uninit none) = [] := rfl
    rw [hnil, List.append_nil]
    rfl
  | some iv => rfl

theorem receiveMessage_snd (M : MailEnv) (w : MailWallet) (messageTx : Transaction) :
    (w.receiveMessage M messageTx).2 =
      { w with
        messageBox := { w.messageBox with
          receivedMessages := w.messageBox.receivedMessages ++
            taken M w.keys (.receiveMessage messageTx) } } := by
  unfold receiveMessage taken
  by_cases hto : messageTx.recipient = w.keys.address
  · cases hsigned : M.verifySignature messageTx <;> simp [hto, hsigned]
  · simp [hto]

theorem pending_createTransaction (M : MailEnv) (w : MailWallet) (r : PaymentRequest) :
    (w.wallet.step M.setters M.parts M.doubleHash r).pending =
      w.pending ++ paid M w.balance w.keys (.createTransaction r) := by
  rcases lt_or_ge w.balance r.amount with hlt | hle
  · have hrefused : w.wallet.step M.setters M.parts M.doubleHash r = w.wallet := by
      rw [Wallet.step, Wallet.createTransaction_of_lt hlt]
    rw [hrefused, paid, if_neg (not_le.2 hlt), List.append_nil]
    rfl
  · rw [Wallet.step, Wallet.createTransaction_of_le hle, paid, if_pos hle]
    rfl

theorem keys_step (w : MailWallet) (call : WalletCall) :
    (w.step M call).keys = keysAfter M w.keys call := by
  cases call with
  | createTransaction r => rfl
  | createMessage recipient message now uninit randBytes =>
    rw [step, createMessage_snd]
    rfl
  | receiveMessage messageTx =>
    rw [step, receiveMessage_snd]
    rfl
  | generateNewKeys draw => rfl

theorem balance_step (w : MailWallet) (call : WalletCall) : (w.step M call).balance = w.balance := by
  cases call with
  | createTransaction r => rfl
  | createMessage recipient message now uninit randBytes => rw [step, createMessage_snd]
  | receiveMessage messageTx => rw [step, receiveMessage_snd]
  | generateNewKeys draw => rfl

theorem pending_step (w : MailWallet) (call : WalletCall) :
    (w.step M call).pending = w.pending ++ paid M w.balance w.keys call := by
  cases call with
  | createTransaction r => exact pending_createTransaction M w r
  | createMessage recipient message now uninit randBytes =>
    rw [step, createMessage_snd]
    exact (List.append_nil _).symm
  | receiveMessage messageTx =>
    rw [step, receiveMessage_snd]
    exact (List.append_nil _).symm
  | generateNewKeys draw => exact (List.append_nil _).symm

theorem sentMessages_step (w : MailWallet) (call : WalletCall) :
    (w.step M call).messageBox.sentMessages = w.messageBox.sentMessages ++ written M w.keys call := by
  cases call with
  | createMessage recipient message now uninit randBytes => rw [step, createMessage_snd]
  | receiveMessage messageTx =>
    rw [step, receiveMessage_snd]
    exact (List.append_nil _).symm
  | createTransaction r => exact (List.append_nil _).symm
  | generateNewKeys draw => exact (List.append_nil _).symm

theorem receivedMessages_step (w : MailWallet) (call : WalletCall) :
    (w.step M call).messageBox.receivedMessages =
      w.messageBox.receivedMessages ++ taken M w.keys call := by
  cases call with
  | createMessage recipient message now uninit randBytes =>
    rw [step, createMessage_snd]
    exact (List.append_nil _).symm
  | receiveMessage messageTx => rw [step, receiveMessage_snd]
  | createTransaction r => exact (List.append_nil _).symm
  | generateNewKeys draw => exact (List.append_nil _).symm

theorem keys_run (w : MailWallet) (calls : List WalletCall) :
    (run (step M) w calls).keys = run (keysAfter M) w.keys calls := by
  induction calls generalizing w with
  | nil => rfl
  | cons call calls ih =>
    have htail : (run (step M) w (call :: calls)).keys = _ := ih (w.step M call)
    rw [htail, keys_step]
    rfl

theorem pending_run (w : MailWallet) (calls : List WalletCall) :
    (run (step M) w calls).pending =
      w.pending ++ outputs (keysAfter M) (paid M w.balance) w.keys calls := by
  induction calls generalizing w with
  | nil => exact (List.append_nil _).symm
  | cons call calls ih =>
    have htail : (run (step M) w (call :: calls)).pending = _ := ih (w.step M call)
    rw [htail, pending_step, balance_step, keys_step, outputs, List.append_assoc]

/-- An empty message is as good as none: there is nothing to decrypt. -/
theorem getDecryptedMessages_eq (M : MailEnv) (w : MailWallet) :
    w.getDecryptedMessages M =
      (w.messageBox.receivedMessages.filter fun tx => tx.encryptedMessage ≠ []).filterMap fun tx =>
        (M.decrypt tx.encryptedMessage w.keys.privateKey).toOption := by
  rw [getDecryptedMessages, List.filterMap_filter]
  refine List.filterMap_congr fun tx _ => ?_
  cases htext : tx.encryptedMessage with
  | nil => simp [Transaction.decryptMessage, htext, Except.toOption]
  | cons b text => simp [Transaction.decryptMessage, htext]

end MailWallet

/-- A network of wallets, with their calls interleaved in any way and anything at all delivered. Each
wallet's boxes and pending payments grow by what its own calls add under the keys of the moment:
messages that could be encrypted, deliveries to its address of the moment whose signature is good,
and payments within its balance; neither half of the wallet disturbs the other. What it reads is what
`decrypt` makes, with its last private key, of the deliveries that have a ciphertext. -/
theorem mailboxes_of_schedule {κ : Type*} [DecidableEq κ] (M : MailEnv) (start : κ → MailWallet)
    (schedule : List (κ × WalletCall)) (k : κ) :
    let calls := inputsOf k schedule
    let w := run (stepAt fun _ => MailWallet.step M) start schedule k
    let delivered := outputs (MailWallet.keysAfter M) (MailWallet.taken M) (start k).keys calls
    w.keys = run (MailWallet.keysAfter M) (start k).keys calls ∧
      w.pending = (start k).pending ++
        outputs (MailWallet.keysAfter M) (MailWallet.paid M (start k).balance) (start k).keys calls ∧
      w.messageBox.sentMessages = (start k).messageBox.sentMessages ++
        outputs (MailWallet.keysAfter M) (MailWallet.written M) (start k).keys calls ∧
      w.messageBox.receivedMessages = (start k).messageBox.receivedMessages ++ delivered ∧
      (∀ tx, tx ∈ delivered ↔ M.verifySignature tx = true ∧
        ∃ n, calls[n]? = some (.receiveMessage tx) ∧
          tx.recipient = (run (MailWallet.keysAfter M) (start k).keys (calls.take n)).address) ∧
      w.getDecryptedMessages M =
        (w.messageBox.receivedMessages.filter fun tx => tx.encryptedMessage ≠ []).filterMap fun tx =>
          (M.decrypt tx.encryptedMessage w.keys.privateKey).toOption := by
  intro calls w delivered
  have hw : w = run (MailWallet.step M) (start k) calls := run_stepAt _ _ schedule k
  rw [hw]
  refine ⟨MailWallet.keys_run _ _, MailWallet.pending_run _ _,
    run_log (C := fun w => w.messageBox.sentMessages) MailWallet.keys_step
      MailWallet.sentMessages_step _ _,
    run_log (C := fun w => w.messageBox.receivedMessages) MailWallet.keys_step
      MailWallet.receivedMessages_step _ _, fun tx => ?_, MailWallet.getDecryptedMessages_eq M _⟩
  rw [mem_outputs]
  simp only [MailWallet.mem_taken]
  constructor
  · rintro ⟨n, call, hcall, rfl, hto, hsigned⟩
    exact ⟨hsigned, n, hcall, hto⟩
  · rintro ⟨hsigned, n, hcall, hto⟩
    exact ⟨n, _, hcall, rfl, hto, hsigned⟩

end BlockchainMessaging
