import BlockchainMessaging.StoredHash
import BlockchainMessaging.TransactionVerify

/-!
# Signing, editing, verifying

`sign` changes the signatures and keys of the inputs, which the digest does not read; `setMessage`
and `setContractCall` change what it does read, and nothing that `verify` reads besides. So a signed
transaction goes on being verified as long as its digested string is the one that was signed.
-/

namespace BlockchainMessaging
open Machine

namespace TransactionInput

def signedBy (signature publicKey : Bytes) (input : TransactionInput) : TransactionInput :=
  { input with signature := signature, publicKey := publicKey }

end TransactionInput

namespace Mutation

def isSign : Mutation → Bool
  | sign _ _ => true
  | _ => false

/-- An edit leaves inputs and outputs alone. -/
theorem exec_of_not_sign (P : Parts) (doubleHash : Bytes → Bytes) (tx : Transaction)
    {op : Mutation} (h : op.isSign = false) :
    (op.exec P doubleHash tx).inputs = tx.inputs ∧
      (op.exec P doubleHash tx).outputs = tx.outputs := by
  cases op with
  | setMessage E message recipientPublicKey =>
    rw [exec, Transaction.setMessage]
    cases E.encrypt message recipientPublicKey with
    | none => exact ⟨rfl, rfl⟩
    | some encrypted => exact ⟨rfl, rfl⟩
  | setContractCall contractAddr method params => exact ⟨rfl, rfl⟩
  | sign E privateKey => cases h

theorem run_of_not_sign (P : Parts) (doubleHash : Bytes → Bytes) (tx : Transaction)
    {ops : List Mutation} (h : ∀ op ∈ ops, op.isSign = false) :
    (run (exec P doubleHash) tx ops).inputs = tx.inputs ∧
      (run (exec P doubleHash) tx ops).outputs = tx.outputs := by
  refine run_inv_along (P := fun _ (op : Mutation) => op.isSign = false)
    (I := fun tx' : Transaction => tx'.inputs = tx.inputs ∧ tx'.outputs = tx.outputs) ?_ ⟨rfl, rfl⟩
    (along_of_forall_mem (fun op hop _ => h op hop) tx)
  rintro tx' op ⟨hin, hout⟩ hop
  obtain ⟨hin', hout'⟩ := exec_of_not_sign P doubleHash tx' hop
  exact ⟨hin'.trans hin, hout'.trans hout⟩

end Mutation

/-- What is assumed of the `Encryption` class: a signature is accepted with the public key of the key
that made it, a key signs no two messages alike, and no two keys share their public key. -/
structure Encryption.Sound (E : Encryption) : Prop where
  verify_iff : ∀ message signature publicKey, E.verify message signature publicKey = true ↔
    ∃ key, E.sign message key = some signature ∧ E.generatePublicKey key = some publicKey
  sign_inj : ∀ key m₁ m₂ signature, E.sign m₁ key = some signature →
    E.sign m₂ key = some signature → m₁ = m₂
  key_inj : ∀ key₁ key₂ publicKey, E.generatePublicKey key₁ = some publicKey →
    E.generatePublicKey key₂ = some publicKey → key₁ = key₂

theorem Encryption.Sound.verify_iff_eq {E : Encryption} (h : E.Sound)
    {message message' key signature publicKey : Bytes} (hsign : E.sign message key = some signature)
    (hkey : E.generatePublicKey key = some publicKey) :
    E.verify message' signature publicKey = true ↔ message' = message := by
  rw [h.verify_iff]
  constructor
  · rintro ⟨key', hsign', hkey'⟩
    obtain rfl : key' = key := h.key_inj key' key publicKey hkey' hkey
    exact h.sign_inj key' message' message signature hsign' hsign
  · rintro rfl
    exact ⟨key, hsign, hkey⟩

namespace Transaction
variable {P : Parts} {doubleHash : Bytes → Bytes} {E : Encryption} {tx tx' : Transaction}
  {privateKey : Bytes}

theorem signInputs_of_some {signature publicKey : Bytes}
    (h : E.generatePublicKey privateKey = some publicKey) (inputs : List TransactionInput) :
    signInputs E signature privateKey inputs =
      (true, inputs.map (TransactionInput.signedBy signature publicKey)) := by
  induction inputs with
  | nil => rfl
  | cons input inputs ih =>
    rw [signInputs, h]
    simp only [ih, List.map_cons]
    rfl

theorem exists_publicKey_of_signInputs {signature : Bytes} {inputs : List TransactionInput}
    (hne : inputs ≠ []) (h : (signInputs E signature privateKey inputs).1 = true) :
    ∃ publicKey, E.generatePublicKey privateKey = some publicKey := by
  cases inputs with
  | nil => exact absurd rfl hne
  | cons input inputs =>
    rw [signInputs] at h
    cases hkey : E.generatePublicKey privateKey with
    | none =>
      rw [hkey] at h
      cases h
    | some publicKey => exact ⟨publicKey, rfl⟩

/-- What a call of `sign` that returns true has done. -/
theorem exists_of_sign_true (hne : tx.inputs ≠ [])
    (h : (tx.sign P doubleHash E privateKey).1 = true) :
    ∃ signature publicKey, E.sign (tx.calculateHash P doubleHash) privateKey = some signature ∧
      E.generatePublicKey privateKey = some publicKey ∧
      (tx.sign P doubleHash E privateKey).2 =
        { tx with inputs := tx.inputs.map (TransactionInput.signedBy signature publicKey) } := by
  cases hsign : E.sign (tx.calculateHash P doubleHash) privateKey with
  | none =>
    rw [sign, hsign] at h
    cases h
  | some signature =>
    rw [sign, hsign] at h
    obtain ⟨publicKey, hkey⟩ := exists_publicKey_of_signInputs hne h
    refine ⟨signature, publicKey, rfl, hkey, ?_⟩
    rw [sign, hsign]
    simp only [signInputs_of_some hkey]

/-! ### What signing leaves as it was -/

variable {signature publicKey : Bytes}

theorem map_inputHash_signedBy (hhash : ∀ i j : TransactionInput,
    i.previousTxHash = j.previousTxHash → i.outputIndex = j.outputIndex →
      P.inputHash i = P.inputHash j) (inputs : List TransactionInput) :
    (inputs.map (TransactionInput.signedBy signature publicKey)).map P.inputHash =
      inputs.map P.inputHash := by
  rw [List.map_map]
  exact List.map_congr_left fun input _ => hhash _ _ rfl rfl

theorem preimage_signedBy (hhash : ∀ i j : TransactionInput,
    i.previousTxHash = j.previousTxHash → i.outputIndex = j.outputIndex →
      P.inputHash i = P.inputHash j) (tx : Transaction) :
    preimage P { tx with
      inputs := tx.inputs.map (TransactionInput.signedBy signature publicKey) } =
        tx.preimage P := by
  unfold preimage
  rw [map_inputHash_signedBy hhash]
  rfl

theorem getTotalInput_signedBy
    (h : tx'.inputs = tx.inputs.map (TransactionInput.signedBy signature publicKey)) :
    tx'.getTotalInput = tx.getTotalInput := by
  rw [getTotalInput_eq_sum, getTotalInput_eq_sum, h, List.map_map]
  rfl

theorem getTotalOutput_congr (h : tx'.outputs = tx.outputs) :
    tx'.getTotalOutput = tx.getTotalOutput := by
  rw [getTotalOutput_eq_sum, getTotalOutput_eq_sum, h]

/-- With the inputs of a signed transaction and its outputs, `verify` comes down to one check of the
signature. -/
theorem verify_signedBy_iff
    (hin : tx'.inputs = tx.inputs.map (TransactionInput.signedBy signature publicKey))
    (hout : tx'.outputs = tx.outputs) (hinputs : tx.inputs ≠ []) (houtputs : tx.outputs ≠ [])
    (htotal : tx.getTotalOutput ≤ tx.getTotalInput)
    (hparts : ∀ input ∈ tx'.inputs, P.inputVerify input = true) :
    tx'.verify P doubleHash E = true ↔
      E.verify (tx'.calculateHash P doubleHash) signature publicKey = true := by
  have hkeys : ∀ input ∈ tx'.inputs, input.signature = signature ∧ input.publicKey = publicKey := by
    rw [hin]
    intro input hmem
    obtain ⟨input, -, rfl⟩ := List.mem_map.1 hmem
    exact ⟨rfl, rfl⟩
  have hne : tx'.inputs ≠ [] := by
    rw [hin]
    exact fun h => hinputs (List.map_eq_nil_iff.1 h)
  rw [verify_iff]
  constructor
  · rintro ⟨-, -, -, -, hall⟩
    obtain ⟨input, hmem⟩ := List.exists_mem_of_ne_nil _ hne
    obtain ⟨hs, hk⟩ := hkeys input hmem
    rw [← hs, ← hk]
    exact hall input hmem
  · intro h
    refine ⟨hne, by rwa [hout], ?_, hparts, fun input hmem => ?_⟩
    · rwa [getTotalInput_signedBy hin, getTotalOutput_congr hout]
    · obtain ⟨hs, hk⟩ := hkeys input hmem
      rwa [hs, hk]

end Transaction

/-- The strings that are digested while a transaction goes through a run of mutators. -/
def digested (P : Parts) (doubleHash : Bytes → Bytes) (tx : Transaction) (ops : List Mutation) :
    Set Bytes :=
  Set.range fun n => (run (Mutation.exec P doubleHash) tx (ops.take n)).preimage P

/-- After `sign` has returned true the transaction verifies, and after any run of edits it verifies
exactly when the digested string is the signed one. -/
theorem sign_then_verify_iff (P : Parts) (doubleHash : Bytes → Bytes) (E : Encryption)
    (hE : E.Sound)
    (hhash : ∀ i j : TransactionInput, i.previousTxHash = j.previousTxHash →
      i.outputIndex = j.outputIndex → P.inputHash i = P.inputHash j)
    (tx : Transaction) (hin : tx.inputs ≠ []) (hout : tx.outputs ≠ [])
    (htotal : tx.getTotalOutput ≤ tx.getTotalInput) (privateKey : Bytes)
    (htrue : (tx.sign P doubleHash E privateKey).1 = true)
    (hparts : ∀ input ∈ (tx.sign P doubleHash E privateKey).2.inputs,
      P.inputVerify input = true) :
    let signed := (tx.sign P doubleHash E privateKey).2
    signed.verify P doubleHash E = true ∧
      ∀ ops : List Mutation, (∀ op ∈ ops, op.isSign = false) →
        Set.InjOn doubleHash (digested P doubleHash signed ops) →
        ((run (Mutation.exec P doubleHash) signed ops).verify P doubleHash E = true ↔
          (run (Mutation.exec P doubleHash) signed ops).preimage P = signed.preimage P) := by
  intro signed
  obtain ⟨signature, publicKey, hsign, hkey, hsigned⟩ := Transaction.exists_of_sign_true hin htrue
  have hinputs : signed.inputs =
      tx.inputs.map (TransactionInput.signedBy signature publicKey) := congrArg _ hsigned
  have houtputs : signed.outputs = tx.outputs := (congrArg Transaction.outputs hsigned).trans rfl
  have hpre : signed.preimage P = tx.preimage P :=
    (congrArg _ hsigned).trans (Transaction.preimage_signedBy hhash tx)
  have hverify : ∀ tx' : Transaction, tx'.inputs = signed.inputs → tx'.outputs = signed.outputs →
      (tx'.verify P doubleHash E = true ↔
        doubleHash (tx'.preimage P) = doubleHash (signed.preimage P)) := by
    intro tx' hin' hout'
    rw [Transaction.verify_signedBy_iff (hin'.trans hinputs) (hout'.trans houtputs) hin hout htotal
      (by rwa [hin']), hE.verify_iff_eq hsign hkey, hpre]
    rfl
  refine ⟨(hverify signed rfl rfl).2 rfl, fun ops hops hinj => ?_⟩
  obtain ⟨hin', hout'⟩ := Mutation.run_of_not_sign P doubleHash signed hops
  rw [hverify _ hin' hout']
  refine hinj.eq_iff ⟨ops.length, ?_⟩ ⟨0, rfl⟩
  show (run (Mutation.exec P doubleHash) signed (ops.take ops.length)).preimage P = _
  rw [List.take_length]

section
open Sample

theorem Sample.sound_encryption : encryption.Sound where
  verify_iff message signature publicKey := by
    rw [show encryption.verify message signature publicKey = (signature == message ++ publicKey)
      from rfl, beq_iff_eq]
    constructor
    · rintro rfl
      exact ⟨publicKey, rfl, rfl⟩
    · rintro ⟨key, hsign, hkey⟩
      cases hkey
      exact (Option.some.inj hsign).symm
  sign_inj key m₁ m₂ signature h₁ h₂ := by
    have h : m₁ ++ key = m₂ ++ key := (Option.some.inj h₁).trans (Option.some.inj h₂).symm
    exact List.append_cancel_right h
  key_inj key₁ key₂ publicKey h₁ h₂ := (Option.some.inj h₁).trans (Option.some.inj h₂).symm

/-- A payment that is signed and then given a message. -/
theorem sign_then_verify_iff_message :
    let tx := spending [(0, 5)] [2, 3]
    let signed := (tx.sign parts id encryption (ascii "alice")).2
    signed.verify parts id encryption = true ∧
      (run (Mutation.exec parts id) signed
        [.setMessage encryption (ascii "hi") (ascii "bob")]).verify parts id encryption = false := by
  intro tx signed
  have h := sign_then_verify_iff parts id encryption sound_encryption (fun _ _ _ _ => rfl) tx
    (List.cons_ne_nil _ _) (List.cons_ne_nil _ _) (by decide +kernel) (ascii "alice") rfl
    (fun _ _ => rfl)
  refine ⟨h.1, ?_⟩
  have hiff := h.2 [.setMessage encryption (ascii "hi") (ascii "bob")]
    (fun op hop => by rw [List.mem_singleton.1 hop]; rfl) Function.injective_id.injOn
  rw [← Bool.not_eq_true, hiff]
  decide +kernel

end
end BlockchainMessaging
