import BlockchainMessaging.ReachConsensus
import BlockchainMessaging.Replication
import BlockchainMessaging.Lib.Clamp

/-!
# Runs of validators (`validation/validator.cpp`)

`updateReputation` adds 1 or takes 5 and stops at 100 and at 0, `stake` adds what is positive. Both
write members that no vote reads.
-/

namespace BlockchainMessaging
open Machine

inductive ValidatorCall where
  | stake (amount : Amount)
  | updateReputation (successfulValidation : Bool)

namespace ValidatorCall

def outcome : ValidatorCall → Option Bool
  | stake _ => none
  | updateReputation successfulValidation => some successfulValidation

/-- What the call adds to the stake, if `stake` does not throw. -/
def staked : ValidatorCall → Option Amount
  | stake amount => if 0 < amount then some amount else none
  | updateReputation _ => none

end ValidatorCall

namespace Validator

/-- The state a call leaves, whether it returns or throws. -/
def step (v : Validator) : ValidatorCall → Validator
  | .stake amount =>
    match v.stake amount with
    | .ok v' => v'
    | .error _ => v
  | .updateReputation successfulValidation => v.updateReputation successfulValidation

/-- The same validator with another reputation. -/
def withReputation (v : Validator) (r : UInt32) (hr : r ≤ 100) : Validator :=
  { v with reputation := r, reputation_le := hr }

/-- `updateReputation`, as a counter between 0 and 100. -/
def reward (successfulValidation : Bool) : Clamp :=
  ⟨0, 100, if successfulValidation then 1 else -5, by decide⟩

variable {v : Validator} {call : ValidatorCall} {calls : List ValidatorCall}

theorem act_reward_true (x : ℤ) : Clamp.act x (reward true) = max 0 (min 100 (x + 1)) := rfl

theorem act_reward_false (x : ℤ) : Clamp.act x (reward false) = max 0 (min 100 (x + -5)) := rfl

/-- No sum wraps around: the reputation is at most 100 before. -/
theorem reputation_updateReputation (v : Validator) (b : Bool) :
    ((v.updateReputation b).reputation.toNat : ℤ) = Clamp.act v.reputation.toNat (reward b) := by
  have hle : v.reputation.toNat ≤ 100 := UInt32.le_iff_toNat_le.1 v.reputation_le
  have h100 : (100 : UInt32).toNat = 100 := rfl
  cases b with
  | true =>
    have hadd : (v.reputation + 1).toNat = v.reputation.toNat + 1 := by
      rw [UInt32.toNat_add]
      exact Nat.mod_eq_of_lt (by simp; omega)
    rw [act_reward_true]
    show (((if v.reputation + 1 ≤ 100 then v.reputation + 1 else 100 : UInt32).toNat : ℕ) : ℤ) = _
    split
    · rename_i h
      rw [UInt32.le_iff_toNat_le] at h
      omega
    · rename_i h
      rw [UInt32.le_iff_toNat_le] at h
      omega
  | false =>
    rw [act_reward_false]
    show (((if v.reputation > 5 then v.reputation - 5 else 0 : UInt32).toNat : ℕ) : ℤ) = _
    have h5 : v.reputation > 5 ↔ 5 < v.reputation.toNat := UInt32.lt_iff_toNat_lt
    split
    · rename_i h
      have hsub : (v.reputation - 5).toNat = v.reputation.toNat - 5 :=
        UInt32.toNat_sub_of_le _ _ (UInt32.le_of_lt h)
      rw [h5] at h
      omega
    · rename_i h
      have h0 : (0 : UInt32).toNat = 0 := rfl
      rw [h5] at h
      omega

theorem step_stake (v : Validator) (amount : Amount) :
    v.step (.stake amount) =
      { v with stakingAmount := v.stakingAmount + ((ValidatorCall.stake amount).staked.getD 0) } := by
  unfold step stake ValidatorCall.staked
  by_cases h : 0 < amount
  · simp [h, not_le.2 h]
  · simp [h, not_lt.1 h]

theorem type_step (v : Validator) (call : ValidatorCall) : (v.step call).type = v.type := by
  cases call with
  | stake amount => rw [step_stake]
  | updateReputation b => cases b <;> rfl

theorem stakingAmount_step (v : Validator) (call : ValidatorCall) :
    (v.step call).stakingAmount = v.stakingAmount + call.staked.getD 0 := by
  cases call with
  | stake amount => rw [step_stake]
  | updateReputation b => cases b <;> exact (add_zero _).symm

theorem reputation_step (v : Validator) (call : ValidatorCall) :
    ((v.step call).reputation.toNat : ℤ) =
      run Clamp.act v.reputation.toNat (call.outcome.toList.map reward) := by
  cases call with
  | stake amount => rw [step_stake]; rfl
  | updateReputation b => exact reputation_updateReputation v b

theorem type_run (v : Validator) (calls : List ValidatorCall) :
    (run step v calls).type = v.type :=
  run_eq Validator.type type_step v calls

theorem stakingAmount_run (v : Validator) (calls : List ValidatorCall) :
    (run step v calls).stakingAmount =
      v.stakingAmount + (calls.filterMap ValidatorCall.staked).sum := by
  induction calls generalizing v with
  | nil => exact (add_zero _).symm
  | cons call calls ih =>
    have htail : (run step v (call :: calls)).stakingAmount = _ := ih (v.step call)
    rw [htail, stakingAmount_step, add_assoc]
    cases hstaked : call.staked with
    | none => simp [List.filterMap_cons_none hstaked]
    | some amount => simp [List.filterMap_cons_some hstaked]

theorem reputation_run (v : Validator) (calls : List ValidatorCall) :
    ((run step v calls).reputation.toNat : ℤ) =
      run Clamp.act v.reputation.toNat ((calls.filterMap ValidatorCall.outcome).map reward) := by
  induction calls generalizing v with
  | nil => rfl
  | cons call calls ih =>
    have htail : ((run step v (call :: calls)).reputation.toNat : ℤ) = _ := ih (v.step call)
    rw [htail, reputation_step]
    cases houtcome : call.outcome with
    | none => rw [List.filterMap_cons_none houtcome]; rfl
    | some b => rw [List.filterMap_cons_some houtcome]; rfl

theorem within_reward (outcomes : List Bool) : Clamp.Within 0 100 (outcomes.map reward) := by
  intro c hc
  obtain ⟨b, -, rfl⟩ := List.mem_map.1 hc
  exact ⟨rfl, rfl⟩

theorem sum_shift_reward (outcomes : List Bool) :
    ((outcomes.map reward).map Clamp.shift).sum = outcomes.count true - 5 * outcomes.count false := by
  induction outcomes with
  | nil => rfl
  | cons b outcomes ih =>
    rw [List.map_cons, List.map_cons, List.sum_cons, ih]
    cases b
    · simp [reward]; omega
    · simp [reward]; omega

end Validator

/-- Every validator of the offer has gone through calls of its own. -/
def Offer.afterCalls (o : Offer) (calls : Validator → List ValidatorCall) : Offer :=
  { o with
    messageValidators := o.messageValidators.map fun v => run Validator.step v (calls v)
    financialValidators := o.financialValidators.map fun v => run Validator.step v (calls v) }

section
variable {E : Env}

theorem Validator.validateBlock_run (v : Validator) (calls : List ValidatorCall) (block : Block) :
    (run Validator.step v calls).validateBlock E block = v.validateBlock E block := by
  rw [Bool.eq_iff_iff, Validator.validateBlock_iff, Validator.validateBlock_iff, Validator.type_run]

theorem Offer.convinces_afterCalls (o : Offer) (calls : Validator → List ValidatorCall) :
    (o.afterCalls calls).convinces E = o.convinces E := by
  have hpool : ((Blockchain.init E 0).withPools (o.afterCalls calls)).pool o.block =
      (((Blockchain.init E 0).withPools o).pool o.block).map fun v =>
        run Validator.step v (calls v) := by
    unfold Blockchain.pool
    split <;> rfl
  have hcount : ∀ pool : List Validator,
      ((pool.map fun v => run Validator.step v (calls v)).countP
        fun v => v.validateBlock E o.block) = pool.countP fun v => v.validateBlock E o.block := by
    intro pool
    rw [List.countP_map]
    exact List.countP_congr fun v _ => by
      rw [Function.comp_apply, Validator.validateBlock_run]
  show Blockchain.reachConsensus E _ o.block = Blockchain.reachConsensus E _ o.block
  rw [Blockchain.reachConsensus_eq_reaches, Blockchain.reachConsensus_eq_reaches, hpool, hcount,
    List.length_map]
  rfl

end

/-- Neither stakes nor reputations count: whatever calls the registered validators have gone through
before each `addBlock`, the chain and the balances are the same as without them. -/
theorem chain_of_validator_calls (E : Env) (now : ℤ)
    (offers : List (Offer × (Validator → List ValidatorCall))) :
    let bc := run (Blockchain.step E) (Blockchain.init E now) (offers.map Prod.fst)
    let bc' := run (Blockchain.step E) (Blockchain.init E now)
      (offers.map fun p => p.1.afterCalls p.2)
    bc'.chain = bc.chain ∧ ∀ a, bc'.getBalance a = bc.getBalance a := by
  intro bc bc'
  have hentries : (offers.map fun p => p.1.afterCalls p.2).map (Offer.entry E) =
      (offers.map Prod.fst).map (Offer.entry E) := by
    rw [List.map_map, List.map_map]
    refine List.map_congr_left fun p _ => ?_
    show (p.1.block, _) = (p.1.block, _)
    rw [Offer.convinces_afterCalls]
  have hchain : bc'.chain = bc.chain := by
    rw [show bc'.chain = _ from builtChain_eq E now _, hentries]
    exact (builtChain_eq E now _).symm
  have hbc := (FromChain.init E now).run (E := E) (offers.map Prod.fst)
  have hbc' := (FromChain.init E now).run (E := E) (offers.map fun p => p.1.afterCalls p.2)
  refine ⟨hchain, fun a => ?_⟩
  have hnet : Ledger.net (transfersOf bc'.chain) a = Ledger.net (transfersOf bc.chain) a := by
    rw [hchain]
  exact (hbc'.balances a).trans (hnet.trans (hbc.balances a).symm)

end BlockchainMessaging
