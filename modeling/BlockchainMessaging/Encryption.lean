import BlockchainMessaging.Blockchain

/-!
# Message encryption (`crypto/encryption.hpp`, `crypto/encryption.cpp`)

`encrypt` draws an IV, encrypts under it with a key that nobody sets, and returns the ciphertext
alone. The IV is gone with the call, so what is returned says no more of the message than its length.
-/

namespace BlockchainMessaging

/-- What `RAND_bytes` writes. -/
structure IV where
  bytes : Bytes
  length_bytes : bytes.length = 16

/-- What `encrypt` uses of OpenSSL: without its tag, AES-256-GCM adds to the message a stream of
bytes that the key and the IV determine. -/
structure Evp where
  keystream : Bytes → Bytes → ℕ → UInt8

namespace Evp

/-- What `EVP_EncryptUpdate` and `EVP_EncryptFinal_ex` write together. -/
def encryptUpdate (evp : Evp) (key : Bytes) (iv : IV) (message : Bytes) : Bytes :=
  message.mapIdx fun i b => b ^^^ evp.keystream key iv.bytes i

/-- `key.key` after its `resize`: nothing else writes to it. -/
def zeroKey : Bytes :=
  List.replicate (256 / 8) 0

/-- `randBytes` is the IV, or `none` when `RAND_bytes` fails and `encrypt` throws. The public key is
not used. -/
def encrypt (evp : Evp) (randBytes : Option IV) (message _publicKey : Bytes) : Option Bytes :=
  randBytes.map fun iv => evp.encryptUpdate zeroKey iv message

/-- The `Encryption` class whose `encrypt` draws this IV. -/
def encryption (evp : Evp) (randBytes : Option IV) (E : Encryption) : Encryption :=
  { E with encrypt := evp.encrypt randBytes }

def Varies (evp : Evp) : Prop :=
  ∃ iv₁ iv₂ : IV, evp.keystream zeroKey iv₁.bytes 0 ≠ evp.keystream zeroKey iv₂.bytes 0

/-- No other message encrypts, under any IV, to what `message` encrypts to under this one. -/
def Determines (evp : Evp) (publicKey : Bytes) (iv : IV) (message : Bytes) : Prop :=
  ∀ (iv' : IV) (message' : Bytes),
    evp.encrypt (some iv') message' publicKey = evp.encrypt (some iv) message publicKey →
      message' = message

variable {evp : Evp} {key : Bytes} {iv : IV}

theorem length_encryptUpdate (message : Bytes) :
    (evp.encryptUpdate key iv message).length = message.length :=
  List.length_mapIdx

theorem encryptUpdate_encryptUpdate (message : Bytes) :
    evp.encryptUpdate key iv (evp.encryptUpdate key iv message) = message := by
  refine List.ext_getElem ?_ fun i h1 h2 => ?_
  · rw [length_encryptUpdate, length_encryptUpdate]
  · simp only [encryptUpdate, List.getElem_mapIdx]
    rw [UInt8.xor_assoc, UInt8.xor_self, UInt8.xor_zero]

theorem encrypt_eq_iff {iv' : IV} {message message' publicKey : Bytes} :
    evp.encrypt (some iv') message' publicKey = evp.encrypt (some iv) message publicKey ↔
      message' = evp.encryptUpdate zeroKey iv' (evp.encryptUpdate zeroKey iv message) := by
  rw [encrypt, encrypt, Option.map_some, Option.map_some, Option.some_inj]
  constructor
  · intro h
    rw [← h, encryptUpdate_encryptUpdate]
  · rintro rfl
    exact encryptUpdate_encryptUpdate _

/-- From a first byte on, some IV decrypts to another message than the one that was encrypted. -/
theorem exists_encryptUpdate_ne (hvaries : evp.Varies) (iv : IV) (b : UInt8) (message : Bytes) :
    ∃ iv' : IV, evp.encryptUpdate zeroKey iv' (evp.encryptUpdate zeroKey iv (b :: message)) ≠
      b :: message := by
  obtain ⟨iv₁, iv₂, hne⟩ := hvaries
  -- of two different streams one differs from that of `iv`
  obtain ⟨iv', hiv'⟩ : ∃ iv' : IV,
      evp.keystream zeroKey iv'.bytes 0 ≠ evp.keystream zeroKey iv.bytes 0 := by
    by_cases h1 : evp.keystream zeroKey iv₁.bytes 0 = evp.keystream zeroKey iv.bytes 0
    · exact ⟨iv₂, fun h2 => hne (h1.trans h2.symm)⟩
    · exact ⟨iv₁, h1⟩
  refine ⟨iv', fun h => hiv' ?_⟩
  have hhead : b ^^^ evp.keystream zeroKey iv.bytes 0 ^^^ evp.keystream zeroKey iv'.bytes 0 = b := by
    simpa [encryptUpdate] using congrArg List.head? h
  have hzero := congrArg (b ^^^ ·) hhead
  simp only [← UInt8.xor_assoc, UInt8.xor_self, UInt8.zero_xor] at hzero
  exact (UInt8.xor_eq_zero_iff.1 hzero).symm

theorem determines_iff (hvaries : evp.Varies) (publicKey : Bytes) (iv : IV) (message : Bytes) :
    evp.Determines publicKey iv message ↔ message = [] := by
  constructor
  · intro h
    cases message with
    | nil => rfl
    | cons b message =>
      obtain ⟨iv', hne⟩ := exists_encryptUpdate_ne hvaries iv b message
      exact absurd (h iv' _ (encrypt_eq_iff.2 rfl)) hne
  · rintro rfl iv' message' h
    rw [encrypt_eq_iff.1 h]
    rfl

theorem setMessage_eq_iff {tx : Transaction} {E : Encryption} {iv' : IV}
    {message message' publicKey : Bytes} :
    tx.setMessage (evp.encryption (some iv') E) message' publicKey =
        tx.setMessage (evp.encryption (some iv) E) message publicKey ↔
      evp.encrypt (some iv') message' publicKey = evp.encrypt (some iv) message publicKey := by
  simp [Transaction.setMessage, encryption, encrypt]

end Evp

/-- The bytes that `encrypt` returns determine the message, in `setMessage` too, exactly when it is
empty: a decoder would need the IV. -/
theorem message_determined_iff (evp : Evp) (hvaries : evp.Varies) (publicKey : Bytes) (iv : IV)
    (message : Bytes) :
    (evp.Determines publicKey iv message ↔ message = []) ∧
      ∀ (tx : Transaction) (E : Encryption),
        (∀ (iv' : IV) (message' : Bytes),
          tx.setMessage (evp.encryption (some iv') E) message' publicKey =
            tx.setMessage (evp.encryption (some iv) E) message publicKey → message' = message) ↔
          message = [] := by
  refine ⟨Evp.determines_iff hvaries publicKey iv message, fun tx E => ?_⟩
  simp only [Evp.setMessage_eq_iff]
  exact Evp.determines_iff hvaries publicKey iv message

section
open Sample

def Sample.evp : Evp :=
  ⟨fun _ iv _ => iv.headD 0⟩

def Sample.iv (b : UInt8) : IV :=
  ⟨List.replicate 16 b, List.length_replicate⟩

theorem Sample.varies_evp : evp.Varies :=
  ⟨iv 0, iv 1, by decide⟩

theorem message_determined_iff_empty : evp.Determines (ascii "bob") (iv 0) [] :=
  (message_determined_iff evp varies_evp (ascii "bob") (iv 0) []).1.2 rfl

/-- Two messages that are encrypted alike, each under its IV. -/
theorem no_decoder :
    ¬ ∀ evp : Evp, evp.Varies → ∀ publicKey : Bytes, ∃ decrypt : Bytes → Bytes,
      ∀ (iv : IV) (message ciphertext : Bytes),
        evp.encrypt (some iv) message publicKey = some ciphertext → decrypt ciphertext = message := by
  intro h
  obtain ⟨decrypt, hdecrypt⟩ := h evp varies_evp (ascii "bob")
  have h1 := hdecrypt (iv 0) (ascii "hi") (ascii "hi") (by decide +kernel)
  have h2 := hdecrypt (iv 1) (ascii "ih") (ascii "hi") (by decide +kernel)
  exact absurd (h1.symm.trans h2) (by decide +kernel)

end

end BlockchainMessaging
