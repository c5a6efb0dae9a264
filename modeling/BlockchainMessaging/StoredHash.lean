import BlockchainMessaging.Blockchain
import Mathlib.Data.List.DropRight
import Mathlib.Data.Rat.Encodable
import Mathlib.Logic.Equiv.List

/-!
# The stored hash of a transaction

The constructors and `setContractCall` store `calculateHash`, `setMessage` does not, and the
three-argument constructor pushes its output after the hash is stored. `Tracks` follows what a run of
the mutators does to the stored hash: it is the digest of the text the transaction had at the last
`setContractCall`, or of the constructor's text without the output.
-/

namespace BlockchainMessaging

/-- Both constructors digest the clock, the lock time and the status, nothing else. -/
theorem Transaction.hash_ofType (P : Parts) (doubleHash : Bytes → Bytes) (type : TransactionType)
    (now : ℤ) (uninit : Amount) :
    (ofType P doubleHash type now uninit).hash = doubleHash (decimalInt now ++ ascii "00") := by
  show doubleHash (preimage P _) = _
  simp [preimage, messageSection, contractSection]
  rfl

/-! ### Two constructions -/

/-- The arguments of `Transaction(sender, recipient, type)`, the clock it reads and what the
uninitialised amount holds. -/
structure Construction where
  sender : Bytes
  recipient : Bytes
  type : TransactionType
  now : ℤ
  uninit : Amount

namespace Construction

def build (P : Parts) (doubleHash : Bytes → Bytes) (c : Construction) : Transaction :=
  Transaction.ofParties P doubleHash c.sender c.recipient c.type c.now c.uninit

/-- `getHash` gives the digests of two different strings, whatever digests them. -/
def DigestsDiffer (P : Parts) (c₁ c₂ : Construction) : Prop :=
  ∃ s₁ s₂ : Bytes, s₁ ≠ s₂ ∧ ∀ doubleHash : Bytes → Bytes,
    (c₁.build P doubleHash).getHash = doubleHash s₁ ∧
      (c₂.build P doubleHash).getHash = doubleHash s₂

theorem getHash_build (P : Parts) (doubleHash : Bytes → Bytes) (c : Construction) :
    (c.build P doubleHash).getHash = doubleHash (decimalInt c.now ++ ascii "00") :=
  Transaction.hash_ofType P doubleHash c.type c.now c.uninit

theorem digestsDiffer_iff (P : Parts) (c₁ c₂ : Construction) :
    DigestsDiffer P c₁ c₂ ↔ c₁.now ≠ c₂.now := by
  constructor
  · rintro ⟨s₁, s₂, hne, h⟩ hnow
    obtain ⟨h1, h2⟩ := h id
    rw [getHash_build] at h1 h2
    exact hne (by rw [← show _ = s₁ from h1, ← show _ = s₂ from h2, hnow])
  · intro hnow
    refine ⟨decimalInt c₁.now ++ ascii "00", decimalInt c₂.now ++ ascii "00", fun h => ?_, fun D => ?_⟩
    · exact hnow (decimalInt_injective (List.append_cancel_right h))
    · exact ⟨getHash_build P D c₁, getHash_build P D c₂⟩

end Construction

/-- The delegated constructor hashes the transaction while it has no output, and neither the sender
nor the type is ever hashed: two constructions with different arguments get digests of different
strings exactly when they read different clocks. -/
theorem identity_iff (P : Parts) (c₁ c₂ : Construction) :
    ((c₁.sender, c₁.recipient, c₁.type) ≠ (c₂.sender, c₂.recipient, c₂.type) →
        Construction.DigestsDiffer P c₁ c₂) ↔
      ((c₁.sender, c₁.recipient, c₁.type) ≠ (c₂.sender, c₂.recipient, c₂.type) →
        c₁.now ≠ c₂.now) :=
  forall_congr' fun _ => Construction.digestsDiffer_iff P c₁ c₂

def Sample.tellingParts : Parts :=
  { Sample.parts with
    outputHash := fun o => decimal (Encodable.encode
      (o.recipient.map UInt8.toNat, (o.amount : ℚ), o.scriptPubKey.map UInt8.toNat, o.isSpent)) }

theorem Sample.outputHash_injective : Function.Injective Sample.tellingParts.outputHash := by
  have hbytes : Function.Injective (List.map UInt8.toNat) :=
    List.map_injective_iff.2 fun _ _ h => UInt8.toNat_inj.1 h
  intro o₁ o₂ h
  have := Encodable.encode_injective (decimal_injective h)
  simp only [Prod.mk.injEq] at this
  obtain ⟨hrcpt, hamount, hscript, hspent⟩ := this
  cases o₁
  cases o₂
  rw [TransactionOutput.mk.injEq]
  exact ⟨hbytes hrcpt, hamount, hbytes hscript, hspent⟩

/-- Two payments of `alice` in one second, to `bob` and to `carol`. -/
theorem same_second_same_digest :
    ¬ ∀ (P : Parts) (c₁ c₂ : Construction), Function.Injective P.outputHash →
      (c₁.sender, c₁.recipient, c₁.type) ≠ (c₂.sender, c₂.recipient, c₂.type) →
      Construction.DigestsDiffer P c₁ c₂ := by
  intro h
  have := h Sample.tellingParts ⟨ascii "alice", ascii "bob", .financial, 1700000000, 0⟩
    ⟨ascii "alice", ascii "carol", .financial, 1700000000, 0⟩ Sample.outputHash_injective
    (by decide +kernel)
  exact (Construction.digestsDiffer_iff _ _ _).1 this rfl

/-! ### Runs of mutators -/

/-- How a transaction is made: `Transaction(type)` or `Transaction(sender, recipient, type)`. -/
inductive Start where
  | ofType (type : TransactionType) (now : ℤ) (uninit : Amount)
  | ofParties (c : Construction)

namespace Start

def build (P : Parts) (doubleHash : Bytes → Bytes) : Start → Transaction
  | ofType type now uninit => Transaction.ofType P doubleHash type now uninit
  | ofParties c => c.build P doubleHash

def now : Start → ℤ
  | ofType _ now _ => now
  | ofParties c => c.now

def outputText (P : Parts) : Start → Bytes
  | ofType _ _ _ => []
  | ofParties c => P.outputHash (Transaction.basicOutput c.recipient c.uninit)

def hashedText (start : Start) : Bytes :=
  decimalInt start.now ++ ascii "00"

def text (P : Parts) (start : Start) : Bytes :=
  decimalInt start.now ++ start.outputText P ++ ascii "00"

theorem hashedText_eq_text_append_iff (P : Parts) (start : Start) (s : Bytes) :
    start.hashedText = start.text P ++ s ↔ s = [] ∧ start.outputText P = [] := by
  constructor
  · intro h
    have := congrArg List.length h
    simp only [hashedText, text, List.length_append] at this
    exact ⟨List.eq_nil_of_length_eq_zero (by omega), List.eq_nil_of_length_eq_zero (by omega)⟩
  · rintro ⟨rfl, hout⟩
    rw [hashedText, text, hout, List.append_nil, List.append_nil]

end Start

/-- A call of a mutator, with what `Encryption` does in it. -/
inductive Mutation where
  | setMessage (E : Encryption) (message recipientPublicKey : Bytes)
  | setContractCall (contractAddr method : Bytes) (params : List Bytes)
  | sign (E : Encryption) (privateKey : Bytes)

namespace Mutation

/-- A `setMessage` that throws leaves the transaction as it was. -/
def exec (P : Parts) (doubleHash : Bytes → Bytes) (tx : Transaction) : Mutation → Transaction
  | setMessage E message recipientPublicKey => (tx.setMessage E message recipientPublicKey).getD tx
  | setContractCall contractAddr method params =>
    tx.setContractCall P doubleHash contractAddr method params
  | sign E privateKey => (tx.sign P doubleHash E privateKey).2

def isContractCall : Mutation → Bool
  | setContractCall _ _ _ => true
  | _ => false

def messageText (before : Bytes) : Mutation → Bytes
  | setMessage E message recipientPublicKey =>
    match E.encrypt message recipientPublicKey with
    | none => before
    | some encrypted => if encrypted.isEmpty then [] else encrypted ++ recipientPublicKey
  | _ => before

def contractText (before : Bytes) : Mutation → Bytes
  | setContractCall contractAddr method params =>
    if contractAddr.isEmpty then [] else contractAddr ++ method ++ params.flatten
  | _ => before

theorem contractText_of_not_call {op : Mutation} (h : op.isContractCall = false) (before : Bytes) :
    op.contractText before = before := by
  cases op with
  | setContractCall => cases h
  | setMessage => rfl
  | sign => rfl

end Mutation

/-- The message that a sequence of calls leaves in the transaction, as text. -/
def messageText (ops : List Mutation) : Bytes :=
  ops.foldl Mutation.messageText []

def contractText (ops : List Mutation) : Bytes :=
  ops.foldl Mutation.contractText []

/-- The calls up to the last `setContractCall`, none when there is no `setContractCall`. -/
def upToLastCall (ops : List Mutation) : List Mutation :=
  ops.rdropWhile fun op => !op.isContractCall

/-- The string whose digest a run of calls leaves in `hash`. -/
def storedText (P : Parts) (start : Start) (ops : List Mutation) : Bytes :=
  if ops.any Mutation.isContractCall then
    start.text P ++ messageText (upToLastCall ops) ++ contractText ops
  else start.hashedText

theorem messageText_concat (ops : List Mutation) (op : Mutation) :
    messageText (ops ++ [op]) = op.messageText (messageText ops) :=
  List.foldl_concat ..

theorem contractText_concat (ops : List Mutation) (op : Mutation) :
    contractText (ops ++ [op]) = op.contractText (contractText ops) :=
  List.foldl_concat ..

theorem contractText_eq_nil {ops : List Mutation} (h : ops.any Mutation.isContractCall = false) :
    contractText ops = [] := by
  induction ops using List.reverseRecOn with
  | nil => rfl
  | append_singleton ops op ih =>
    rw [List.any_append, Bool.or_eq_false_iff] at h
    rw [contractText_concat, ih h.1, Mutation.contractText_of_not_call (by simpa using h.2)]

theorem upToLastCall_eq_nil {ops : List Mutation} (h : ops.any Mutation.isContractCall = false) :
    upToLastCall ops = [] := by
  refine List.rdropWhile_eq_nil_iff.2 fun op hop => ?_
  rw [Bool.not_eq_true', ← Bool.not_eq_true]
  exact fun hc => by simp [List.any_eq_false.1 h op hop] at hc

/-- Only `setContractCall` changes what is stored. -/
theorem storedText_concat (P : Parts) (start : Start) (ops : List Mutation) {op : Mutation}
    (h : op.isContractCall = false) :
    storedText P start (ops ++ [op]) = storedText P start ops := by
  have hcontract : contractText (ops ++ [op]) = contractText ops := by
    rw [contractText_concat, Mutation.contractText_of_not_call h]
  have hlast : upToLastCall (ops ++ [op]) = upToLastCall ops :=
    List.rdropWhile_concat_pos _ _ _ (by rw [h]; rfl)
  rw [storedText, storedText, hcontract, hlast, List.any_append]
  simp [h]

structure Tracks (P : Parts) (doubleHash : Bytes → Bytes) (start : Start) (ops : List Mutation)
    (tx : Transaction) : Prop where
  inputs : tx.inputs = []
  base : decimalInt tx.timestamp ++ (tx.inputs.map P.inputHash).flatten ++
    (tx.outputs.map P.outputHash).flatten ++ decimal tx.lockTime.toNat ++ decimal tx.status.toNat =
      start.text P
  message : tx.messageSection = messageText ops
  contract : tx.contractSection = contractText ops
  hash : tx.hash = doubleHash (storedText P start ops)

namespace Tracks
variable {P : Parts} {doubleHash : Bytes → Bytes} {start : Start} {ops : List Mutation}
  {tx : Transaction}

theorem preimage (h : Tracks P doubleHash start ops tx) :
    tx.preimage P = start.text P ++ messageText ops ++ contractText ops := by
  rw [Transaction.preimage, h.base, h.message, h.contract]

theorem build (P : Parts) (doubleHash : Bytes → Bytes) (start : Start) :
    Tracks P doubleHash start [] (start.build P doubleHash) := by
  cases start with
  | ofType type now uninit =>
    refine ⟨rfl, ?_, rfl, rfl, Transaction.hash_ofType P doubleHash type now uninit⟩
    simp [Start.build, Transaction.ofType, Start.text, Start.outputText, Start.now]
    rfl
  | ofParties c =>
    refine ⟨rfl, ?_, rfl, rfl, Construction.getHash_build P doubleHash c⟩
    simp [Start.build, Construction.build, Transaction.ofParties, Transaction.ofType, Start.text,
      Start.outputText, Start.now]
    rfl

theorem of_not_call (h : Tracks P doubleHash start ops tx) {op : Mutation} {tx' : Transaction}
    (hop : op.isContractCall = false) (hin : tx'.inputs = tx.inputs)
    (hout : tx'.outputs = tx.outputs) (htime : tx'.timestamp = tx.timestamp)
    (hlock : tx'.lockTime = tx.lockTime) (hstatus : tx'.status = tx.status)
    (hmessage : tx'.messageSection = op.messageText tx.messageSection)
    (hcontract : tx'.contractSection = tx.contractSection) (hhash : tx'.hash = tx.hash) :
    Tracks P doubleHash start (ops ++ [op]) tx' := by
  refine ⟨hin.trans h.inputs, ?_, ?_, ?_, ?_⟩
  · rw [hin, hout, htime, hlock, hstatus]
    exact h.base
  · rw [hmessage, messageText_concat, h.message]
  · rw [hcontract, contractText_concat, Mutation.contractText_of_not_call hop, h.contract]
  · rw [hhash, storedText_concat P start ops hop, h.hash]

theorem setMessage (h : Tracks P doubleHash start ops tx) (E : Encryption)
    (message recipientPublicKey : Bytes) :
    Tracks P doubleHash start (ops ++ [.setMessage E message recipientPublicKey])
      ((Mutation.setMessage E message recipientPublicKey).exec P doubleHash tx) := by
  cases henc : E.encrypt message recipientPublicKey with
  | none =>
    have hsame : (Mutation.setMessage E message recipientPublicKey).exec P doubleHash tx = tx := by
      simp [Mutation.exec, Transaction.setMessage, henc]
    rw [hsame]
    refine h.of_not_call rfl rfl rfl rfl rfl rfl ?_ rfl rfl
    rw [Mutation.messageText, henc]
  | some encrypted =>
    have hset : (Mutation.setMessage E message recipientPublicKey).exec P doubleHash tx =
        { tx with encryptedMessage := encrypted, messageRecipient := recipientPublicKey } := by
      simp [Mutation.exec, Transaction.setMessage, henc]
    rw [hset]
    refine h.of_not_call rfl rfl rfl rfl rfl rfl ?_ rfl rfl
    rw [Mutation.messageText, henc]
    rfl

theorem setContractCall (h : Tracks P doubleHash start ops tx) (contractAddr method : Bytes)
    (params : List Bytes) :
    Tracks P doubleHash start (ops ++ [.setContractCall contractAddr method params])
      ((Mutation.setContractCall contractAddr method params).exec P doubleHash tx) := by
  have hmessage : messageText (ops ++ [.setContractCall contractAddr method params]) =
      messageText ops := messageText_concat ..
  have hcontract : contractText (ops ++ [.setContractCall contractAddr method params]) =
      if contractAddr.isEmpty then [] else contractAddr ++ method ++ params.flatten :=
    contractText_concat ..
  refine ⟨h.inputs, h.base, ?_, ?_, ?_⟩
  · rw [hmessage, ← h.message]
    rfl
  · rw [hcontract]
    rfl
  · have hlast : upToLastCall (ops ++ [.setContractCall contractAddr method params]) =
        ops ++ [.setContractCall contractAddr method params] :=
      List.rdropWhile_concat_neg _ _ _ (by simp [Mutation.isContractCall])
    rw [storedText, if_pos (by simp [Mutation.isContractCall]), hlast, hmessage, hcontract,
      ← h.base, ← h.message]
    rfl

theorem sign (h : Tracks P doubleHash start ops tx) (E : Encryption) (privateKey : Bytes) :
    Tracks P doubleHash start (ops ++ [.sign E privateKey])
      ((Mutation.sign E privateKey).exec P doubleHash tx) := by
  rw [Mutation.exec, Transaction.sign_of_inputs_nil P doubleHash E privateKey h.inputs]
  exact h.of_not_call rfl rfl rfl rfl rfl rfl rfl rfl rfl

theorem step (ops : List Mutation) (op : Mutation) (tx : Transaction)
    (h : Tracks P doubleHash start ops tx) :
    Tracks P doubleHash start (ops ++ [op]) (op.exec P doubleHash tx) := by
  cases op with
  | setMessage E message recipientPublicKey => exact h.setMessage E message recipientPublicKey
  | setContractCall contractAddr method params => exact h.setContractCall contractAddr method params
  | sign E privateKey => exact h.sign E privateKey

theorem run (P : Parts) (doubleHash : Bytes → Bytes) (start : Start) (ops : List Mutation) :
    Tracks P doubleHash start ops
      (Machine.run (Mutation.exec P doubleHash) (start.build P doubleHash) ops) :=
  Machine.run_inv_history (J := Tracks P doubleHash start) (build P doubleHash start) step ops

end Tracks

theorem storedText_eq_iff (P : Parts) (start : Start) (ops : List Mutation) :
    storedText P start ops = start.text P ++ messageText ops ++ contractText ops ↔
      messageText ops = messageText (upToLastCall ops) ∧
        (ops.any Mutation.isContractCall ∨ start.outputText P = []) := by
  unfold storedText
  split
  · rename_i hcall
    rw [List.append_left_inj, List.append_right_inj]
    exact ⟨fun h => ⟨h.symm, .inl hcall⟩, fun h => h.1.symm⟩
  · rename_i hcall
    have hno : ops.any Mutation.isContractCall = false := by simpa using hcall
    rw [contractText_eq_nil hno, upToLastCall_eq_nil hno, List.append_nil,
      Start.hashedText_eq_text_append_iff]
    exact ⟨fun h => ⟨h.1, .inr h.2⟩, fun h => ⟨h.1, h.2.resolve_left hcall⟩⟩

/-- `getHash` is the digest of the transaction as it is exactly when no message was set, changed or
taken away since the last `setContractCall`, and the constructor's output, when it has one, was
followed by a `setContractCall`. -/
theorem hash_current_iff (P : Parts) (start : Start) (ops : List Mutation) :
    (∀ doubleHash : Bytes → Bytes,
        let tx := Machine.run (Mutation.exec P doubleHash) (start.build P doubleHash) ops
        tx.getHash = tx.calculateHash P doubleHash) ↔
      messageText ops = messageText (upToLastCall ops) ∧
        (ops.any Mutation.isContractCall ∨ start.outputText P = []) := by
  rw [← storedText_eq_iff]
  constructor
  · intro h
    have hrun := Tracks.run P id start ops
    rw [← hrun.preimage]
    exact hrun.hash.symm.trans (h id)
  · intro h doubleHash
    have hrun := Tracks.run P doubleHash start ops
    show Transaction.hash _ = doubleHash (Transaction.preimage P _)
    rw [hrun.hash, hrun.preimage, h]

/-- A transaction that is given a message after it is made. -/
theorem message_after_hash :
    ¬ ∀ (P : Parts) (start : Start) (ops : List Mutation) (doubleHash : Bytes → Bytes),
      (∀ i j : TransactionInput, i.previousTxHash = j.previousTxHash →
        i.outputIndex = j.outputIndex → P.inputHash i = P.inputHash j) →
      let tx := Machine.run (Mutation.exec P doubleHash) (start.build P doubleHash) ops
      tx.getHash = tx.calculateHash P doubleHash := by
  intro h
  have := h Sample.parts (.ofType .message 1700000000 0)
    [.setMessage Sample.encryption (ascii "hi") (ascii "bob")] id (fun _ _ _ _ => rfl)
  exact absurd this (by decide +kernel)

end BlockchainMessaging
