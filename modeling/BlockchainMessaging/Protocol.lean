import BlockchainMessaging.Blockchain

/-!
# Protocol messages (`network/protocol.hpp`, `network/protocol.cpp`)

The text whose signature `ProtocolMessage::verify` checks, and what it determines: the fields are
written side by side, without separators, as in the hash of a transaction.
-/

namespace BlockchainMessaging

inductive MessageType where
  | handshake | blockRequest | blockResponse | transactionBroadcast | peerDiscovery
  | validationRequest | validationResponse | contractDeployment | contractExecution
  | syncRequest | syncResponse
deriving DecidableEq, Repr

/-- `static_cast<int>(type)`. -/
def MessageType.toInt32 : MessageType → Int32
  | handshake => 0
  | blockRequest => 1
  | blockResponse => 2
  | transactionBroadcast => 3
  | peerDiscovery => 4
  | validationRequest => 5
  | validationResponse => 6
  | contractDeployment => 7
  | contractExecution => 8
  | syncRequest => 9
  | syncResponse => 10

/-- `type` is the value of the enumeration as an `int`, its underlying type: `deserialize` casts any
`int` to it. -/
structure ProtocolMessage where
  type : Int32
  sender : Bytes
  payload : Bytes
  timestamp : UInt64
  signature : Bytes
deriving DecidableEq

namespace ProtocolMessage

/-- The string `verify` collects in its `stringstream`. -/
def messageDigest (m : ProtocolMessage) : Bytes :=
  decimalInt m.type.toInt ++ m.sender ++ m.payload ++ decimal m.timestamp.toNat

/-- The sender is the public key. -/
def verify (E : Encryption) (m : ProtocolMessage) : Bool :=
  E.verify m.messageDigest m.signature m.sender

/-! ### What the digest determines -/

/-- The fields a signature is meant to cover. -/
structure SameContent (m₁ m₂ : ProtocolMessage) : Prop where
  type : m₁.type = m₂.type
  sender : m₁.sender = m₂.sender
  payload : m₁.payload = m₂.payload
  timestamp : m₁.timestamp = m₂.timestamp

/-- The fields before the timestamp have the same lengths as texts. -/
structure SameBoundaries (m₁ m₂ : ProtocolMessage) : Prop where
  type : (decimalInt m₁.type.toInt).length = (decimalInt m₂.type.toInt).length
  sender : m₁.sender.length = m₂.sender.length
  payload : m₁.payload.length = m₂.payload.length

variable {m₁ m₂ : ProtocolMessage}

theorem SameContent.boundaries (h : SameContent m₁ m₂) : SameBoundaries m₁ m₂ := by
  refine ⟨?_, ?_, ?_⟩
  · rw [h.type]
  · rw [h.sender]
  · rw [h.payload]

theorem SameBoundaries.content (h : SameBoundaries m₁ m₂)
    (hdigest : m₁.messageDigest = m₂.messageDigest) : SameContent m₁ m₂ := by
  unfold messageDigest at hdigest
  obtain ⟨hdigest, htime⟩ := List.append_inj hdigest
    (by rw [List.length_append, List.length_append, List.length_append, List.length_append,
      h.type, h.sender, h.payload])
  obtain ⟨hdigest, hpayload⟩ := List.append_inj' hdigest h.payload
  obtain ⟨htype, hsender⟩ := List.append_inj' hdigest h.sender
  exact
    { type := Int32.toInt_inj.1 (decimalInt_injective htype)
      sender := hsender
      payload := hpayload
      timestamp := UInt64.toNat_inj.1 (decimal_injective htime) }

end ProtocolMessage

/-- Two messages with one digest have the same content exactly when their fields end at the same
places; a signature by one sender is valid for both or for neither. -/
theorem message_signature_covers_iff (m₁ m₂ : ProtocolMessage)
    (hdigest : m₁.messageDigest = m₂.messageDigest) :
    (ProtocolMessage.SameContent m₁ m₂ ↔ ProtocolMessage.SameBoundaries m₁ m₂) ∧
      (m₁.sender = m₂.sender → ∀ (E : Encryption) (signature : Bytes),
        { m₁ with signature := signature }.verify E =
          { m₂ with signature := signature }.verify E) := by
  refine ⟨⟨fun h => h.boundaries, fun h => h.content hdigest⟩, fun hsender E signature => ?_⟩
  show E.verify m₁.messageDigest signature m₁.sender = E.verify m₂.messageDigest signature m₂.sender
  rw [hdigest, hsender]

def Sample.message (payload : String) (timestamp : UInt64) : ProtocolMessage :=
  { type := MessageType.transactionBroadcast.toInt32, sender := ascii "alice",
    payload := ascii payload, timestamp := timestamp, signature := [] }

/-- A digit moves from the timestamp to the payload. -/
theorem same_digest_other_payload :
    ¬ ∀ m₁ m₂ : ProtocolMessage, (∃ t : MessageType, m₁.type = t.toInt32) →
      (∃ t : MessageType, m₂.type = t.toInt32) → m₁.messageDigest = m₂.messageDigest →
      ProtocolMessage.SameContent m₁ m₂ := by
  intro h
  have := h (Sample.message "pay 1" 1700000000) (Sample.message "pay 11" 700000000)
    ⟨.transactionBroadcast, rfl⟩ ⟨.transactionBroadcast, rfl⟩ (by decide +kernel)
  exact absurd this.payload (by decide +kernel)

theorem message_signature_covers_iff_sample :
    { Sample.message "pay 1" 1700000000 with signature := [1] }.verify Sample.encryption =
      { Sample.message "pay 11" 700000000 with signature := [1] }.verify Sample.encryption :=
  (message_signature_covers_iff (Sample.message "pay 1" 1700000000)
    (Sample.message "pay 11" 700000000) (by decide +kernel)).2 rfl Sample.encryption [1]

end BlockchainMessaging
