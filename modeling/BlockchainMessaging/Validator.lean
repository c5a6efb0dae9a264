import BlockchainMessaging.Block
import Mathlib.Algebra.Order.Ring.Rat

/-!
# Validators (`validation/validator.hpp`, `validation/validator.cpp`)

`reputation_le` holds by construction: the constructor sets the reputation to 100 and
`updateReputation` never exceeds it. `validatedBlocks` is left out, no code uses it.
-/

namespace BlockchainMessaging

inductive ValidatorType where
  | message | financial | hybrid
deriving DecidableEq, Repr

structure HardwareSpecs where
  cpuPower : UInt32
  memory : UInt64
  bandwidth : UInt32
deriving DecidableEq

structure Validator where
  address : Bytes
  type : ValidatorType
  stakingAmount : Amount
  reputation : UInt32
  specs : HardwareSpecs
  reputation_le : reputation ≤ 100
deriving DecidableEq

namespace Validator

/-- The constructor; `specs` is what the uninitialised member holds. The result of the call of
`verifyHardwareCapabilities` in its body is discarded. -/
def init (address : Bytes) (type : ValidatorType) (specs : HardwareSpecs) : Validator :=
  { address := address, type := type, stakingAmount := 0, reputation := 100, specs := specs,
    reputation_le := by decide }

def validateTransaction (E : Env) (v : Validator) (tx : Transaction) : Bool :=
  if !E.isValid tx then false
  else match tx.type with
    | .financial => if v.type = .message then false else true
    | .message => true
    | .reward => true

def validateBlock (E : Env) (v : Validator) (block : Block) : Bool :=
  if !block.isValid E then false
  else block.transactions.all (v.validateTransaction E)

def verifyHardwareCapabilities (v : Validator) : Bool :=
  match v.type with
  | .financial | .hybrid =>
    v.specs.cpuPower ≥ 8000 && v.specs.memory ≥ 16384 && v.specs.bandwidth ≥ 100
  | .message => v.specs.cpuPower ≥ 2000 && v.specs.memory ≥ 4096 && v.specs.bandwidth ≥ 20

def stake (v : Validator) (amount : Amount) : Except String Validator :=
  if amount ≤ 0 then .error "Staking amount must be positive"
  else .ok { v with stakingAmount := v.stakingAmount + amount }

theorem reward_le (r : UInt32) : min r 100 ≤ 100 := by
  show (if r ≤ 100 then r else 100) ≤ 100
  split
  · assumption
  · exact UInt32.le_refl 100

theorem penalty_le (r : UInt32) (h : r ≤ 100) : (if r > 5 then r - 5 else 0) ≤ 100 := by
  split
  · rename_i h5
    have : (r - 5).toNat = r.toNat - 5 :=
      UInt32.toNat_sub_of_le r 5 (UInt32.le_of_lt h5)
    rw [UInt32.le_iff_toNat_le] at h ⊢
    rw [this]
    exact Nat.le_trans (Nat.sub_le ..) h
  · decide

def updateReputation (v : Validator) (successfulValidation : Bool) : Validator :=
  if successfulValidation then
    { v with
      reputation := min (v.reputation + 1) 100
      reputation_le := reward_le _ }
  else
    { v with
      reputation := if v.reputation > 5 then v.reputation - 5 else 0
      reputation_le := penalty_le v.reputation v.reputation_le }

theorem validateTransaction_iff {E : Env} {v : Validator} {tx : Transaction} :
    v.validateTransaction E tx = true ↔
      E.isValid tx = true ∧ (tx.type = .financial → v.type ≠ .message) := by
  unfold validateTransaction
  cases E.isValid tx with
  | false => simp
  | true => cases tx.type <;> simp

theorem validateBlock_iff {E : Env} {v : Validator} {block : Block} :
    v.validateBlock E block = true ↔
      block.isValid E = true ∧
        ((∃ tx ∈ block.transactions, tx.type = .financial) → v.type ≠ .message) := by
  unfold validateBlock
  cases hb : block.isValid E with
  | false => simp
  | true =>
    have htx := (Block.isValid_iff.1 hb).2
    simp only [Bool.not_true, Bool.false_eq_true, ↓reduceIte, List.all_eq_true, true_and]
    constructor
    · rintro h ⟨tx, hmem, hfin⟩
      exact (validateTransaction_iff.1 (h tx hmem)).2 hfin
    · intro h tx hmem
      exact validateTransaction_iff.2 ⟨htx tx hmem, fun hfin => h ⟨tx, hmem, hfin⟩⟩

end Validator
end BlockchainMessaging
