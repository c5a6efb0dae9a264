import BlockchainMessaging.Blockchain

/-!
# The wallet's keys (`wallet/wallet.cpp`)

`generateNewKeys` writes the four numbers it draws side by side in hexadecimal, without setting a
width, where `Encryption::generatePrivateKey` and `SHA256::hash` write every byte with two digits. A
number below 2^60 comes out shorter, and where it ends is lost.
-/

namespace BlockchainMessaging

/-- The members of `Wallet` that `generateNewKeys` sets. -/
structure WalletKeys where
  privateKey : Bytes
  publicKey : Bytes
  address : Bytes

namespace WalletKeys

/-- What the loop of `generateNewKeys` leaves in its `stringstream`. -/
def privateKeyText (draw : Fin 4 → UInt64) : Bytes :=
  (List.finRange 4).flatMap fun i => hexDigits.numeral (draw i).toNat

/-- `false` when `generatePublicKey` throws, next to the state it leaves. -/
def generateNewKeys (E : Encryption) (sha256 : Bytes → Bytes) (draw : Fin 4 → UInt64)
    (keys : WalletKeys) : Bool × WalletKeys :=
  let keys := { keys with privateKey := privateKeyText draw }
  match E.generatePublicKey keys.privateKey with
  | none => (false, keys)
  | some publicKey =>
    (true, { keys with publicKey := publicKey, address := ascii "M" ++ (sha256 publicKey).take 30 })

/-- The 256-bit number that the drawn values make up. -/
def drawnNumber (draw : Fin 4 → UInt64) : ℕ :=
  (draw 0).toNat * 2 ^ 192 + (draw 1).toNat * 2 ^ 128 + (draw 2).toNat * 2 ^ 64 + (draw 3).toNat

def HasAllDigits (draw : Fin 4 → UInt64) : Prop :=
  ∀ i, 2 ^ 60 ≤ (draw i).toNat

variable {draw draw' : Fin 4 → UInt64}

theorem privateKey_generateNewKeys (E : Encryption) (sha256 : Bytes → Bytes)
    (draw : Fin 4 → UInt64) (keys : WalletKeys) :
    (generateNewKeys E sha256 draw keys).2.privateKey = privateKeyText draw := by
  unfold generateNewKeys
  dsimp only
  split <;> rfl

theorem privateKeyText_eq (draw : Fin 4 → UInt64) :
    privateKeyText draw = hexDigits.numeral (draw 0).toNat ++ (hexDigits.numeral (draw 1).toNat ++
      (hexDigits.numeral (draw 2).toNat ++ hexDigits.numeral (draw 3).toNat)) := by
  simp [privateKeyText, List.finRange_succ]

/-- A numeral of a 64-bit value has at most 16 digits, and 16 from 2^60 on. -/
theorem length_numeral_uint64_le (v : UInt64) : (hexDigits.numeral v.toNat).length ≤ 16 := by
  have hlt : v.toNat < 16 ^ 16 := v.toNat_lt.trans_eq (by norm_num)
  exact (hexDigits.length_numeral_le_iff (by omega)).2 hlt

theorem length_numeral_uint64_eq_iff (v : UInt64) :
    (hexDigits.numeral v.toNat).length = 16 ↔ 2 ^ 60 ≤ v.toNat := by
  have hle := length_numeral_uint64_le v
  have hshort : (hexDigits.numeral v.toNat).length ≤ 15 ↔ v.toNat < 16 ^ 15 :=
    hexDigits.length_numeral_le_iff (by omega)
  have hpow : 16 ^ 15 = 2 ^ 60 := by norm_num
  omega

theorem hasAllDigits_iff (draw : Fin 4 → UInt64) :
    HasAllDigits draw ↔
      (hexDigits.numeral (draw 0).toNat).length = 16 ∧
        (hexDigits.numeral (draw 1).toNat).length = 16 ∧
        (hexDigits.numeral (draw 2).toNat).length = 16 ∧
        (hexDigits.numeral (draw 3).toNat).length = 16 := by
  simp [HasAllDigits, length_numeral_uint64_eq_iff, Fin.forall_fin_succ]

theorem length_privateKeyText_eq_iff (draw : Fin 4 → UInt64) :
    (privateKeyText draw).length = 64 ↔ HasAllDigits draw := by
  have h0 := length_numeral_uint64_le (draw 0)
  have h1 := length_numeral_uint64_le (draw 1)
  have h2 := length_numeral_uint64_le (draw 2)
  have h3 := length_numeral_uint64_le (draw 3)
  rw [hasAllDigits_iff, privateKeyText_eq, List.length_append, List.length_append,
    List.length_append]
  omega

theorem isText_privateKeyText (draw : Fin 4 → UInt64) : hexDigits.IsText (privateKeyText draw) := by
  intro c hc
  obtain ⟨i, -, hc⟩ := List.mem_flatMap.1 hc
  exact Alphabet.isText_numeral _ c hc

theorem read_privateKeyText (h : HasAllDigits draw) :
    hexDigits.read (privateKeyText draw) = drawnNumber draw := by
  have hwidth : ∀ i, (hexDigits.numeral (draw i).toNat).length = 16 :=
    fun i => (length_numeral_uint64_eq_iff _).2 (h i)
  have hbase : hexDigits.base = 16 := rfl
  rw [privateKeyText_eq, Alphabet.read_append, Alphabet.read_append, Alphabet.read_append,
    Alphabet.read_numeral, Alphabet.read_numeral, Alphabet.read_numeral, Alphabet.read_numeral,
    List.length_append, List.length_append, hwidth, hwidth, hwidth, hbase, drawnNumber]
  ring

theorem length_privateKeyText (h : HasAllDigits draw) : (privateKeyText draw).length = 64 :=
  (length_privateKeyText_eq_iff draw).2 h

theorem privateKeyText_eq_padded (h : HasAllDigits draw) :
    privateKeyText draw = hexDigits.padded 64 (drawnNumber draw) := by
  have hlen := length_privateKeyText h
  have heq := (isText_privateKeyText draw).eq_padded (by omega)
  rwa [hlen, read_privateKeyText h] at heq

/-- Of keys of 64 digits the four values can be read off. -/
theorem draw_eq_of_privateKeyText_eq (h : HasAllDigits draw)
    (heq : privateKeyText draw' = privateKeyText draw) : draw' = draw := by
  have h' : HasAllDigits draw' := by
    rw [← length_privateKeyText_eq_iff, heq]
    exact length_privateKeyText h
  have hwidth : ∀ {draw : Fin 4 → UInt64}, HasAllDigits draw →
      ∀ s ∈ (List.finRange 4).map fun i => hexDigits.numeral (draw i).toNat, s.length = 16 := by
    intro draw h s hs
    obtain ⟨i, -, rfl⟩ := List.mem_map.1 hs
    exact (length_numeral_uint64_eq_iff _).2 (h i)
  rw [privateKeyText, privateKeyText, List.flatMap_def, List.flatMap_def] at heq
  have hmap := eq_of_flatten_eq (hwidth h') (hwidth h)
    (by rw [List.length_map, List.length_map]) heq
  funext i
  have hi := List.map_inj_left.1 hmap i (List.mem_finRange i)
  exact UInt64.toNat_inj.1 (hexDigits.numeral_injective hi)

end WalletKeys

/-- The private key is the 256-bit number in 64 hexadecimal digits exactly when none of the four
values is below 2^60; a key from such values comes from no others. -/
theorem generateNewKeys_iff (E : Encryption) (sha256 : Bytes → Bytes) (draw : Fin 4 → UInt64)
    (keys : WalletKeys) :
    let key := (keys.generateNewKeys E sha256 draw).2.privateKey
    (IsHexHash key ∧ key = hexDigits.padded 64 (WalletKeys.drawnNumber draw) ↔
      ∀ i, 2 ^ 60 ≤ (draw i).toNat) ∧
    ((∀ i, 2 ^ 60 ≤ (draw i).toNat) → ∀ draw' : Fin 4 → UInt64,
      (keys.generateNewKeys E sha256 draw').2.privateKey = key → draw' = draw) := by
  simp only [WalletKeys.privateKey_generateNewKeys]
  refine ⟨⟨fun h => ?_, fun h => ⟨⟨?_, ?_⟩, ?_⟩⟩, fun h draw' heq => ?_⟩
  · exact (WalletKeys.length_privateKeyText_eq_iff draw).1 h.1.1
  · exact WalletKeys.length_privateKeyText h
  · exact WalletKeys.isText_privateKeyText draw
  · exact WalletKeys.privateKeyText_eq_padded h
  · exact WalletKeys.draw_eq_of_privateKeyText_eq h heq

section
open Sample

/-- What `gen` draws from the seed 1; the last value is below 2^60. -/
def Sample.seedOne : Fin 4 → UInt64
  | 0 => 2469588189546311528
  | 1 => 2516265689700432462
  | 2 => 8323445853463659930
  | 3 => 387828560950575246

def Sample.draw (a b : UInt64) : Fin 4 → UInt64
  | 0 => a
  | 1 => b
  | _ => 0x1000000000000000

def Sample.noKeys : WalletKeys :=
  ⟨[], [], []⟩

/-- The seed 1 gives 63 digits; 1 and 17 give the digits of 17 and 1, `1` and `11`. -/
theorem draws_collide :
    ¬ (∀ (E : Encryption) (sha256 : Bytes → Bytes) (draw : Fin 4 → UInt64) (keys : WalletKeys),
        IsHexHash (keys.generateNewKeys E sha256 draw).2.privateKey ∧
          (keys.generateNewKeys E sha256 draw).2.privateKey =
            hexDigits.padded 64 (WalletKeys.drawnNumber draw)) ∧
      ¬ ∀ (E : Encryption) (sha256 : Bytes → Bytes) (draw draw' : Fin 4 → UInt64)
        (keys : WalletKeys), (keys.generateNewKeys E sha256 draw').2.privateKey =
          (keys.generateNewKeys E sha256 draw).2.privateKey → draw' = draw := by
  constructor
  · intro h
    have hlen := (h encryption id seedOne noKeys).1.1
    revert hlen
    decide +kernel
  · intro h
    have heq := h encryption id (draw 1 17) (draw 17 1) noKeys (by decide +kernel)
    exact absurd (congrFun heq 0) (by decide)

end
end BlockchainMessaging
