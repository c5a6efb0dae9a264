import BlockchainMessaging.ContractRuns
import BlockchainMessaging.HexDigest
import BlockchainMessaging.WalletKeys

/-!
# Addresses of wallets and contracts

`generateNewKeys` and `deployContract` both take 30 characters of a digest in hexadecimal behind an
`M`. What is left of the digest are its first 15 bytes, and nothing tells the one kind of address from
the other.
-/

namespace BlockchainMessaging
open Machine

def ContractEnv.withSHA256 (C : ContractEnv) (O : OpenSSL) : ContractEnv :=
  { C with sha256 := SHA256.hash O }

/-- The bytes of the digest that an address shows. -/
def addressBytes (O : OpenSSL) (text : Bytes) : List UInt8 :=
  (O.sha256 text).toList.take 15

/-- An address with these bytes. -/
def addressOf (bytes : List UInt8) : Bytes :=
  ascii "M" ++ bytes.flatMap byteText

/-- The text whose digest gives the address of the contract that the call puts into the engine. -/
def ContractCall.deployedText (C : ContractEnv) : ContractCall → Option Bytes
  | deployContract bytecode owner =>
    if SmartContractEngine.validateContract C bytecode then
      some (SmartContractEngine.addressText bytecode owner)
    else none
  | _ => none

theorem take_flatMap_byteText (bytes : List UInt8) (m : ℕ) :
    (bytes.flatMap byteText).take (2 * m) = (bytes.take m).flatMap byteText := by
  induction bytes generalizing m with
  | nil => simp
  | cons byte bytes ih =>
    cases m with
    | zero => rfl
    | succ m =>
      rw [List.flatMap_cons, Nat.mul_succ, Nat.add_comm, ← length_byteText byte,
        List.take_length_add_append, length_byteText, ih, List.take_succ_cons, List.flatMap_cons]

theorem addressOf_addressBytes (O : OpenSSL) (text : Bytes) :
    addressOf (addressBytes O text) = ascii "M" ++ (SHA256.hash O text).take 30 := by
  rw [addressOf, addressBytes, ← take_flatMap_byteText, SHA256.hash, hexString_eq]

theorem addressOf_injective : Function.Injective addressOf := by
  intro bytes bytes' h
  rw [← readPairs_flatMap bytes, ← readPairs_flatMap bytes', List.append_cancel_left h]

/-- The contracts of a run stand at the addresses of the texts deployed. -/
theorem filterMap_address_withSHA256 (O : OpenSSL) (C : ContractEnv) (calls : List ContractCall) :
    calls.filterMap (ContractCall.address (C.withSHA256 O)) =
      (calls.filterMap (ContractCall.deployedText C)).map fun text =>
        addressOf (addressBytes O text) := by
  rw [List.map_filterMap]
  refine List.filterMap_congr fun call _ => ?_
  cases call with
  | deployContract bytecode owner =>
    have hvalid : SmartContractEngine.validateContract (C.withSHA256 O) bytecode =
        SmartContractEngine.validateContract C bytecode := rfl
    simp only [ContractCall.address, ContractCall.deployedText, hvalid]
    split
    · rw [Option.map_some, addressOf_addressBytes]
      rfl
    · rfl
  | executeContract contractAddress method params caller => rfl
  | updateContractState a k v => rfl

theorem WalletKeys.address_generateNewKeys {O : OpenSSL} {E : Encryption} {draw : Fin 4 → UInt64}
    {keys : WalletKeys} (h : (keys.generateNewKeys E (SHA256.hash O) draw).1 = true) :
    (keys.generateNewKeys E (SHA256.hash O) draw).2.address =
      addressOf (addressBytes O (keys.generateNewKeys E (SHA256.hash O) draw).2.publicKey) := by
  rw [addressOf_addressBytes]
  unfold generateNewKeys at h ⊢
  dsimp only at h ⊢
  split at h
  · exact absurd h Bool.false_ne_true
  · rfl

namespace ContractRun
variable {addresses : List Bytes} {e : SmartContractEngine}

theorem Populated.keys_eq (h : Populated addresses e) : e.contracts.keys = addresses.toFinset := by
  ext a
  rw [Finmap.mem_keys, ← Finmap.lookup_isSome, h.present, List.mem_toFinset]

end ContractRun

/-- After any calls, the addresses in use are an `M` and the first 15 bytes, in hexadecimal, of the
digests of the texts deployed, and there are as many contracts as there are such 15 bytes. The address
of a wallet is that of a contract exactly when the digest of its public key begins with them. -/
theorem addresses_of_run (O : OpenSSL) (C : ContractEnv) (E : Encryption)
    (calls : List ContractCall) (draw : Fin 4 → UInt64) (keys : WalletKeys)
    (hkeys : (keys.generateNewKeys E (SHA256.hash O) draw).1 = true) :
    let e := (run (ContractRun.step (C.withSHA256 O)) .init calls).engine
    let deployed := (calls.filterMap (ContractCall.deployedText C)).map (addressBytes O)
    let wallet := (keys.generateNewKeys E (SHA256.hash O) draw).2
    (∀ a, e.isContractActive a = true ↔ ∃ bytes ∈ deployed, a = addressOf bytes) ∧
      e.contracts.keys.card = deployed.toFinset.card ∧
      wallet.address = addressOf (addressBytes O wallet.publicKey) ∧
      (e.isContractActive wallet.address = true ↔ addressBytes O wallet.publicKey ∈ deployed) := by
  intro e deployed wallet
  have hpopulated := ContractRun.populated_run (C.withSHA256 O) calls
  have haddresses : calls.filterMap (ContractCall.address (C.withSHA256 O)) =
      deployed.map addressOf := by
    rw [filterMap_address_withSHA256, List.map_map]
    rfl
  rw [haddresses] at hpopulated
  have hactive : ∀ a, e.isContractActive a = true ↔ ∃ bytes ∈ deployed, a = addressOf bytes := by
    intro a
    rw [hpopulated.isContractActive_iff, List.mem_map]
    simp only [eq_comm]
  have haddress : wallet.address = addressOf (addressBytes O wallet.publicKey) :=
    WalletKeys.address_generateNewKeys hkeys
  refine ⟨hactive, ?_, haddress, ?_⟩
  · have hcontracts : e.contracts.keys = deployed.toFinset.image addressOf := by
      rw [hpopulated.keys_eq]
      ext a
      simp
    rw [hcontracts, Finset.card_image_of_injective _ addressOf_injective]
  · rw [hactive, haddress]
    constructor
    · rintro ⟨bytes, hmem, heq⟩
      rwa [addressOf_injective heq]
    · exact fun hmem => ⟨_, hmem, rfl⟩

section
open Sample

/-- A digest that is the beginning of the text. -/
def Sample.openSSL : OpenSSL where
  sha256 text := Vector.ofFn fun i => text.getD i 0
  ripemd160 text := Vector.ofFn fun i => text.getD i 0

/-- The texts of the two contracts have 15 bytes in common. -/
theorem addresses_of_run_alice :
    (run (ContractRun.step (contractEnv.withSHA256 openSSL)) .init
      [.deployContract (ascii "CONSTRUCTOR") (ascii "alice"),
        .deployContract (ascii "CONSTRUCTOR") (ascii "alicia")]).engine.contracts.keys.card = 1 :=
  (addresses_of_run openSSL contractEnv encryption
    [.deployContract (ascii "CONSTRUCTOR") (ascii "alice"),
      .deployContract (ascii "CONSTRUCTOR") (ascii "alicia")] (draw 1 17) noKeys
    (by decide +kernel)).2.1.trans (by decide +kernel)

end
end BlockchainMessaging
