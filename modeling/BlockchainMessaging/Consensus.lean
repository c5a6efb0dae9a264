import BlockchainMessaging.Validator
import BlockchainMessaging.Lib.Quorum
import Mathlib.Data.Finmap

/-!
# The consensus manager (`validation/consensus.hpp`, `validation/consensus.cpp`)

The result `none` is undefined behaviour: `consensusHistory.back()` on an empty vector. The
validators vote in parallel on a block none of them changes, so the futures are the list of their
votes.
-/

namespace BlockchainMessaging

inductive ConsensusType where
  | proofOfParticipation | proofOfStake | hybrid
deriving DecidableEq, Repr

structure ConsensusRound where
  roundNumber : UInt32
  blockHash : Bytes
  validatorVotes : Finmap fun _ : Bytes => Bool
  isComplete : Bool

structure ConsensusManager where
  type : ConsensusType
  requiredValidators : UInt32
  consensusThreshold : UInt32
  activeValidators : List Validator
  consensusHistory : List ConsensusRound

namespace ConsensusManager

def init (type : ConsensusType) (requiredValidators : UInt32) : ConsensusManager :=
  { type := type, requiredValidators := requiredValidators, consensusThreshold := 75,
    activeValidators := [], consensusHistory := [] }

/-- `consensusHistory.back().validatorVotes[address] = vote`. -/
def recordVote (history : List ConsensusRound) (address : Bytes) (vote : Bool) :
    Option (List ConsensusRound) :=
  history.getLast?.map fun round =>
    history.dropLast ++ [{ round with validatorVotes := round.validatorVotes.insert address vote }]

def collectValidatorVotes (E : Env) (cm : ConsensusManager) (block : Block) :
    Option ConsensusManager :=
  let validatorFutures := cm.activeValidators.map fun validator => validator.validateBlock E block
  let history := (cm.activeValidators.zip validatorFutures).foldlM
    (fun history entry => recordVote history entry.1.address entry.2) cm.consensusHistory
  history.map fun history => { cm with consensusHistory := history }

/-- The local `round` of `achieveConsensus` at its declaration; `isComplete` is not initialised there
and not read before it is set. -/
def newRound (cm : ConsensusManager) (block : Block) : ConsensusRound :=
  { roundNumber := cm.consensusHistory.length.toUInt32, blockHash := block.hash, validatorVotes := ∅,
    isComplete := false }

def achieveConsensus (E : Env) (cm : ConsensusManager) (block : Block) :
    Option (Bool × ConsensusManager) :=
  if cm.activeValidators.length < cm.requiredValidators.toNat then some (false, cm)
  else
    let round := cm.newRound block
    (cm.collectValidatorVotes E block).map fun cm =>
      let positiveVotes := (round.validatorVotes.entries.countP fun entry => entry.2 = true).toUInt32
      let consensusPercentage := Quorum.percentage positiveVotes.toNat cm.activeValidators.length
      let round := { round with isComplete := true }
      (Quorum.reaches consensusPercentage cm.consensusThreshold.toNat,
        { cm with consensusHistory := cm.consensusHistory ++ [round] })

/-! ### What a call does -/

variable {E : Env} {cm : ConsensusManager} {block : Block}

theorem recordVote_of_ne_nil {history : List ConsensusRound} (h : history ≠ []) (address : Bytes)
    (vote : Bool) : ∃ history', history' ≠ [] ∧ recordVote history address vote = some history' :=
  ⟨_, List.append_ne_nil_of_right_ne_nil _ (List.cons_ne_nil _ _), by
    rw [recordVote, List.getLast?_eq_some_getLast h, Option.map_some]⟩

theorem foldlM_recordVote_of_ne_nil (entries : List (Validator × Bool))
    {history : List ConsensusRound} (h : history ≠ []) :
    ∃ history', entries.foldlM (fun history entry => recordVote history entry.1.address entry.2)
      history = some history' := by
  induction entries generalizing history with
  | nil => exact ⟨history, rfl⟩
  | cons entry entries ih =>
    obtain ⟨next, hne, hnext⟩ := recordVote_of_ne_nil h entry.1.address entry.2
    obtain ⟨history', hrest⟩ := ih hne
    refine ⟨history', ?_⟩
    rw [List.foldlM_cons, hnext]
    exact hrest

theorem collectValidatorVotes_of_nil (h : cm.activeValidators = []) :
    cm.collectValidatorVotes E block = some cm := by
  obtain ⟨type, required, threshold, active, history⟩ := cm
  obtain rfl : active = [] := h
  rfl

theorem collectValidatorVotes_of_history_nil (h : cm.activeValidators ≠ [])
    (hh : cm.consensusHistory = []) : cm.collectValidatorVotes E block = none := by
  cases ha : cm.activeValidators with
  | nil => exact absurd ha h
  | cons v vs => simp [collectValidatorVotes, ha, hh, recordVote]

theorem collectValidatorVotes_of_history_ne_nil (E : Env) (block : Block)
    (h : cm.consensusHistory ≠ []) :
    ∃ history, cm.collectValidatorVotes E block = some { cm with consensusHistory := history } := by
  obtain ⟨history, heq⟩ := foldlM_recordVote_of_ne_nil
    (cm.activeValidators.zip (cm.activeValidators.map fun v => v.validateBlock E block)) h
  exact ⟨history, by rw [collectValidatorVotes]; simp only [heq, Option.map_some]⟩

theorem achieveConsensus_of_lt (h : cm.activeValidators.length < cm.requiredValidators.toNat) :
    cm.achieveConsensus E block = some (false, cm) :=
  if_pos h

/-- The counted record is the local round, into which no vote is ever written: past the first check
the verdict is the one on zero votes. -/
theorem achieveConsensus_of_le (h : cm.requiredValidators.toNat ≤ cm.activeValidators.length) :
    cm.achieveConsensus E block =
      (cm.collectValidatorVotes E block).map fun cm' =>
        (Quorum.reaches (Quorum.percentage 0 cm'.activeValidators.length)
            cm'.consensusThreshold.toNat,
          { cm' with
            consensusHistory :=
              cm'.consensusHistory ++ [{ cm.newRound block with isComplete := true }] }) := by
  rw [achieveConsensus, if_neg (Nat.not_lt.2 h)]
  rfl

end ConsensusManager
end BlockchainMessaging
