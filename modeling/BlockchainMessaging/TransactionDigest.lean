import BlockchainMessaging.Blockchain

/-!
# What the digest of a transaction determines

`calculateHash` writes its fields side by side, without separators, and leaves the recipient of an
empty message and the method and parameters of an empty contract address out. So the digested string
determines the fields once it is known where each of them ends, and nothing about what is left out.
-/

namespace BlockchainMessaging
namespace Transaction

/-- The fields a signature is meant to cover. -/
structure SameFields (P : Parts) (tx₁ tx₂ : Transaction) : Prop where
  timestamp : tx₁.timestamp = tx₂.timestamp
  inputs : tx₁.inputs.map P.inputHash = tx₂.inputs.map P.inputHash
  outputs : tx₁.outputs.map P.outputHash = tx₂.outputs.map P.outputHash
  lockTime : tx₁.lockTime = tx₂.lockTime
  status : tx₁.status = tx₂.status
  encryptedMessage : tx₁.encryptedMessage = tx₂.encryptedMessage
  messageRecipient : tx₁.messageRecipient = tx₂.messageRecipient
  contractAddress : tx₁.contractAddress = tx₂.contractAddress
  methodSignature : tx₁.methodSignature = tx₂.methodSignature
  parameters : tx₁.parameters = tx₂.parameters

/-- The fields of the two transactions have the same lengths as texts. -/
structure SameBoundaries (tx₁ tx₂ : Transaction) : Prop where
  timestamp : (decimalInt tx₁.timestamp).length = (decimalInt tx₂.timestamp).length
  inputs : tx₁.inputs.length = tx₂.inputs.length
  outputs : tx₁.outputs.length = tx₂.outputs.length
  lockTime : (decimal tx₁.lockTime.toNat).length = (decimal tx₂.lockTime.toNat).length
  encryptedMessage : tx₁.encryptedMessage.length = tx₂.encryptedMessage.length
  messageRecipient : tx₁.messageRecipient.length = tx₂.messageRecipient.length
  contractAddress : tx₁.contractAddress.length = tx₂.contractAddress.length
  methodSignature : tx₁.methodSignature.length = tx₂.methodSignature.length
  parameters : tx₁.parameters.map List.length = tx₂.parameters.map List.length

/-- What `calculateHash` leaves out agrees. -/
structure SameOmitted (tx₁ tx₂ : Transaction) : Prop where
  messageRecipient : tx₁.encryptedMessage = [] → tx₁.messageRecipient = tx₂.messageRecipient
  methodSignature : tx₁.contractAddress = [] → tx₁.methodSignature = tx₂.methodSignature
  parameters : tx₁.contractAddress = [] → tx₁.parameters = tx₂.parameters

variable {P : Parts} {tx₁ tx₂ : Transaction}

theorem isEmpty_eq_of_length_eq {s t : Bytes} (h : s.length = t.length) : s.isEmpty = t.isEmpty := by
  cases s <;> cases t <;> simp at h ⊢

theorem eq_nil_of_isEmpty {s t : Bytes} (h : s.length = t.length) (ht : t.isEmpty = true) :
    s = [] ∧ t = [] := by
  have ht' : t = [] := List.isEmpty_iff.1 ht
  subst ht'
  exact ⟨List.eq_nil_of_length_eq_zero h, rfl⟩

theorem length_decimal_status (s : TransactionStatus) : (decimal s.toNat).length = 1 := by
  cases s <;> rfl

namespace SameBoundaries

theorem messageSection_length (h : SameBoundaries tx₁ tx₂) :
    tx₁.messageSection.length = tx₂.messageSection.length := by
  unfold messageSection
  rw [isEmpty_eq_of_length_eq h.encryptedMessage]
  split
  · rfl
  · rw [List.length_append, List.length_append, h.encryptedMessage, h.messageRecipient]

theorem contractSection_length (h : SameBoundaries tx₁ tx₂) :
    tx₁.contractSection.length = tx₂.contractSection.length := by
  unfold contractSection
  rw [isEmpty_eq_of_length_eq h.contractAddress]
  split
  · rfl
  · simp only [List.length_append, List.length_flatten, h.contractAddress, h.methodSignature,
      h.parameters]

theorem message_eq (h : SameBoundaries tx₁ tx₂) (ho : SameOmitted tx₁ tx₂)
    (heq : tx₁.messageSection = tx₂.messageSection) :
    tx₁.encryptedMessage = tx₂.encryptedMessage ∧ tx₁.messageRecipient = tx₂.messageRecipient := by
  unfold messageSection at heq
  rw [isEmpty_eq_of_length_eq h.encryptedMessage] at heq
  split at heq
  · rename_i hnil
    obtain ⟨h1, h2⟩ := eq_nil_of_isEmpty h.encryptedMessage hnil
    exact ⟨h1.trans h2.symm, ho.messageRecipient h1⟩
  · exact List.append_inj heq h.encryptedMessage

theorem contract_eq (h : SameBoundaries tx₁ tx₂) (ho : SameOmitted tx₁ tx₂)
    (heq : tx₁.contractSection = tx₂.contractSection) :
    tx₁.contractAddress = tx₂.contractAddress ∧ tx₁.methodSignature = tx₂.methodSignature ∧
      tx₁.parameters = tx₂.parameters := by
  unfold contractSection at heq
  rw [isEmpty_eq_of_length_eq h.contractAddress] at heq
  split at heq
  · rename_i hnil
    obtain ⟨h1, h2⟩ := eq_nil_of_isEmpty h.contractAddress hnil
    exact ⟨h1.trans h2.symm, ho.methodSignature h1, ho.parameters h1⟩
  · obtain ⟨heq, hparams⟩ := List.append_inj heq
      (by rw [List.length_append, List.length_append, h.contractAddress, h.methodSignature])
    obtain ⟨haddr, hmethod⟩ := List.append_inj heq h.contractAddress
    exact ⟨haddr, hmethod, List.eq_iff_flatten_eq.2 ⟨hparams, h.parameters⟩⟩

end SameBoundaries

theorem SameFields.boundaries (h : SameFields P tx₁ tx₂) : SameBoundaries tx₁ tx₂ where
  timestamp := by rw [h.timestamp]
  inputs := by simpa using congrArg List.length h.inputs
  outputs := by simpa using congrArg List.length h.outputs
  lockTime := by rw [h.lockTime]
  encryptedMessage := by rw [h.encryptedMessage]
  messageRecipient := by rw [h.messageRecipient]
  contractAddress := by rw [h.contractAddress]
  methodSignature := by rw [h.methodSignature]
  parameters := by rw [h.parameters]

theorem SameFields.omitted (h : SameFields P tx₁ tx₂) : SameOmitted tx₁ tx₂ :=
  ⟨fun _ => h.messageRecipient, fun _ => h.methodSignature, fun _ => h.parameters⟩

/-- Peels the fields off from the right, each by its length. -/
theorem sameFields_of_boundaries {k : ℕ} (hin : ∀ i, (P.inputHash i).length = k)
    (hout : ∀ o, (P.outputHash o).length = k) (hpre : tx₁.preimage P = tx₂.preimage P)
    (hb : SameBoundaries tx₁ tx₂) (ho : SameOmitted tx₁ tx₂) : SameFields P tx₁ tx₂ := by
  unfold preimage at hpre
  obtain ⟨hpre, hcontract⟩ := List.append_inj' hpre hb.contractSection_length
  obtain ⟨hpre, hmessage⟩ := List.append_inj' hpre hb.messageSection_length
  obtain ⟨hpre, hstatus⟩ := List.append_inj' hpre
    (by rw [length_decimal_status, length_decimal_status])
  obtain ⟨hpre, hlock⟩ := List.append_inj' hpre hb.lockTime
  obtain ⟨hpre, houtputs⟩ := List.append_inj' hpre
    (by rw [length_flatten_map hout, length_flatten_map hout, hb.outputs])
  obtain ⟨htime, hinputs⟩ := List.append_inj hpre hb.timestamp
  obtain ⟨henc, hrcpt⟩ := hb.message_eq ho hmessage
  obtain ⟨haddr, hmethod, hparams⟩ := hb.contract_eq ho hcontract
  exact
    { timestamp := decimalInt_injective htime
      inputs := map_eq_of_flatten_eq hin hb.inputs hinputs
      outputs := map_eq_of_flatten_eq hout hb.outputs houtputs
      lockTime := UInt32.toNat_inj.1 (decimal_injective hlock)
      status := TransactionStatus.toNat_injective (decimal_injective hstatus)
      encryptedMessage := henc
      messageRecipient := hrcpt
      contractAddress := haddr
      methodSignature := hmethod
      parameters := hparams }

end Transaction

/-- Two transactions with one digested string, hence with one signature, agree in the fields it is
made of exactly when their fields end at the same places and what is left out agrees. -/
theorem digest_binds_iff (P : Parts) (hin : ∀ i, (P.inputHash i).length = 64)
    (hout : ∀ o, (P.outputHash o).length = 64) (tx₁ tx₂ : Transaction)
    (hpre : tx₁.preimage P = tx₂.preimage P) :
    Transaction.SameFields P tx₁ tx₂ ↔
      Transaction.SameBoundaries tx₁ tx₂ ∧ Transaction.SameOmitted tx₁ tx₂ :=
  ⟨fun h => ⟨h.boundaries, h.omitted⟩, fun ⟨hb, ho⟩ =>
    Transaction.sameFields_of_boundaries hin hout hpre hb ho⟩

section
open Sample

/-- A call of `method` at the contract `address`, without parameters. -/
def Sample.contractCall (address method : String) : Transaction :=
  (Transaction.ofType parts id .message 1700000000 0).setContractCall parts id (ascii address)
    (ascii method) []

theorem Sample.isHexHash_zeros : IsHexHash (List.replicate 64 48) :=
  ⟨List.length_replicate, fun c hc => ⟨0, by decide, by rw [(List.mem_replicate.1 hc).2]; decide⟩⟩

/-- A call of `c` at the contract `ab` and a call of `bc` at the contract `a`. -/
theorem same_digest_other_call :
    ¬ ∀ (P : Parts) (tx₁ tx₂ : Transaction), (∀ i, IsHexHash (P.inputHash i)) →
      (∀ o, IsHexHash (P.outputHash o)) → tx₁.preimage P = tx₂.preimage P →
      Transaction.SameFields P tx₁ tx₂ := by
  intro h
  have := h parts (contractCall "ab" "c") (contractCall "a" "bc") (fun _ => isHexHash_zeros)
    (fun _ => isHexHash_zeros) (by decide +kernel)
  exact absurd this.contractAddress (by decide +kernel)

theorem digest_binds_iff_other_call :
    Transaction.SameFields parts (contractCall "ab" "c") (contractCall "a" "bc") ↔
      Transaction.SameBoundaries (contractCall "ab" "c") (contractCall "a" "bc") ∧
        Transaction.SameOmitted (contractCall "ab" "c") (contractCall "a" "bc") :=
  digest_binds_iff parts (fun _ => List.length_replicate) (fun _ => List.length_replicate) _ _
    (by decide +kernel)

end

end BlockchainMessaging
