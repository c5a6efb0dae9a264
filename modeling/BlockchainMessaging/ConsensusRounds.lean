import BlockchainMessaging.Consensus
import BlockchainMessaging.Blockchain

/-!
# Verdicts and history of the consensus manager

`achieveConsensus` counts the votes of its local round, while `collectValidatorVotes` writes them
into the last round of the history. So no vote is ever counted, and with at least one active
validator a call either touches an earlier round or has none to touch.
-/

namespace BlockchainMessaging
namespace ConsensusManager

variable {E : Env} {cm : ConsensusManager} {block : Block}

/-! ### The verdict -/

/-- Enough active validators, and at least 75% of them approve. -/
def Verdict (E : Env) (cm : ConsensusManager) (block : Block) : Prop :=
  cm.requiredValidators.toNat ≤ cm.activeValidators.length ∧
    3 * cm.activeValidators.length ≤
      4 * cm.activeValidators.countP fun v => v.validateBlock E block

instance : Decidable (cm.Verdict E block) :=
  inferInstanceAs (Decidable (_ ∧ _))

theorem achieveConsensus_fst_of_history_ne_nil (hthr : cm.consensusThreshold = 75)
    (hle : cm.requiredValidators.toNat ≤ cm.activeValidators.length)
    (hh : cm.consensusHistory ≠ []) : (cm.achieveConsensus E block).map Prod.fst = some false := by
  obtain ⟨history, heq⟩ := collectValidatorVotes_of_history_ne_nil E block hh
  rw [achieveConsensus_of_le hle, heq, Option.map_some, Option.map_some, hthr]
  exact congrArg some (Quorum.not_reaches_zero (by decide))

theorem achieveConsensus_of_history_nil
    (hle : cm.requiredValidators.toNat ≤ cm.activeValidators.length)
    (hne : cm.activeValidators ≠ []) (hh : cm.consensusHistory = []) :
    cm.achieveConsensus E block = none := by
  rw [achieveConsensus_of_le hle, collectValidatorVotes_of_history_nil hne hh, Option.map_none]

end ConsensusManager

/-- `achieveConsensus` gives the verdict on the votes exactly when there are too few active
validators, or when a round is already on record and fewer than 75% approve. -/
theorem achieveConsensus_verdict_iff (E : Env) (cm : ConsensusManager) (block : Block)
    (hne : cm.activeValidators ≠ []) (hthr : cm.consensusThreshold = 75) :
    (cm.achieveConsensus E block).map Prod.fst = some (decide (cm.Verdict E block)) ↔
      cm.activeValidators.length < cm.requiredValidators.toNat ∨
        (cm.consensusHistory ≠ [] ∧
          4 * (cm.activeValidators.countP fun v => v.validateBlock E block) <
            3 * cm.activeValidators.length) := by
  rcases Nat.lt_or_ge cm.activeValidators.length cm.requiredValidators.toNat with hlt | hle
  · have hv : ¬ cm.Verdict E block := fun hv => Nat.not_le.2 hlt hv.1
    rw [ConsensusManager.achieveConsensus_of_lt hlt]
    simp [hv, hlt]
  · have hv : cm.Verdict E block ↔ 3 * cm.activeValidators.length ≤
        4 * cm.activeValidators.countP fun v => v.validateBlock E block := and_iff_right hle
    rw [or_iff_right (Nat.not_lt.2 hle)]
    by_cases hh : cm.consensusHistory = []
    · rw [ConsensusManager.achieveConsensus_of_history_nil hle hne hh]
      simp [hh]
    · rw [ConsensusManager.achieveConsensus_fst_of_history_ne_nil hthr hle hh, Option.some.injEq,
        eq_comm, decide_eq_false_iff_not, hv, Nat.not_le]
      exact (and_iff_right hh).symm

section
open Sample

/-- A manager on which a poll without validators has been held, and one validator registered since. -/
def Sample.manager : ConsensusManager :=
  { ConsensusManager.init .hybrid 0 with
    activeValidators := [validator "v" .hybrid]
    consensusHistory := [⟨0, genesis.hash, ∅, true⟩] }

/-- The only active validator approves, the verdict is negative. -/
theorem approved_block_refused :
    ¬ ∀ (E : Env) (cm : ConsensusManager) (block : Block), cm.activeValidators ≠ [] →
      (cm.activeValidators.map Validator.address).Nodup → cm.consensusThreshold = 75 →
      ((cm.achieveConsensus E block).map Prod.fst = some true ↔ cm.Verdict E block) := by
  intro h
  have h1 := h env manager genesis (List.cons_ne_nil _ _) (List.nodup_singleton _) rfl
  have h2 : manager.Verdict env genesis := by decide +kernel
  have h3 : (manager.achieveConsensus env genesis).map Prod.fst = some false := by decide +kernel
  rw [h3] at h1
  exact absurd (h1.2 h2) (by decide)

theorem achieveConsensus_verdict_iff_refused :
    (manager.achieveConsensus env { genesis with hash := [] }).map Prod.fst =
      some (decide (manager.Verdict env { genesis with hash := [] })) :=
  (achieveConsensus_verdict_iff env manager { genesis with hash := [] } (List.cons_ne_nil _ _) rfl).2
    (.inr ⟨List.cons_ne_nil _ _, by decide +kernel⟩)

end

/-! ### The history -/

namespace ConsensusManager
variable {E : Env} {cm : ConsensusManager} {block : Block}

/-- The call has a defined result, leaves the history alone when there are too few active
validators, and otherwise appends one round: numbered by its position, for this block, with the vote
of every active validator under its address and no other entry. -/
def KeepsHistory (E : Env) (cm : ConsensusManager) (block : Block) : Prop :=
  ∃ verdict cm', cm.achieveConsensus E block = some (verdict, cm') ∧
    if cm.activeValidators.length < cm.requiredValidators.toNat then
      cm'.consensusHistory = cm.consensusHistory
    else ∃ round, cm'.consensusHistory = cm.consensusHistory ++ [round] ∧
      round.roundNumber.toNat = cm.consensusHistory.length ∧ round.blockHash = block.hash ∧
      ∀ a, round.validatorVotes.lookup a =
        (cm.activeValidators.find? fun v => v.address = a).map fun v => v.validateBlock E block

theorem keepsHistory_of_nil_iff
    (hle : cm.requiredValidators.toNat ≤ cm.activeValidators.length)
    (hnil : cm.activeValidators = []) :
    cm.KeepsHistory E block ↔ cm.consensusHistory.length < 2 ^ 32 := by
  have heq : cm.achieveConsensus E block = _ := achieveConsensus_of_le hle
  rw [collectValidatorVotes_of_nil hnil, Option.map_some] at heq
  have hnum : (cm.newRound block).roundNumber.toNat = cm.consensusHistory.length % 2 ^ 32 := rfl
  constructor
  · rintro ⟨verdict, cm', hcall, hkept⟩
    rw [if_neg (Nat.not_lt.2 hle)] at hkept
    obtain ⟨round, hhist, hround, -⟩ := hkept
    rw [heq] at hcall
    obtain ⟨-, rfl⟩ := Prod.mk.inj (Option.some.inj hcall)
    obtain rfl := List.singleton_inj.1 (List.append_cancel_left hhist)
    have hlen : cm.consensusHistory.length % 2 ^ 32 = cm.consensusHistory.length := hnum ▸ hround
    omega
  · intro hlt
    refine ⟨_, _, heq, ?_⟩
    rw [if_neg (Nat.not_lt.2 hle)]
    refine ⟨_, rfl, hnum.trans (Nat.mod_eq_of_lt hlt), rfl, fun a => ?_⟩
    rw [hnil]
    exact Finmap.lookup_empty a

theorem not_keepsHistory_of_ne_nil
    (hle : cm.requiredValidators.toNat ≤ cm.activeValidators.length)
    (hne : cm.activeValidators ≠ []) : ¬ cm.KeepsHistory E block := by
  rintro ⟨verdict, cm', hcall, hkept⟩
  rw [if_neg (Nat.not_lt.2 hle)] at hkept
  obtain ⟨round, hhist, -, -, hvotes⟩ := hkept
  by_cases hh : cm.consensusHistory = []
  · rw [achieveConsensus_of_history_nil hle hne hh] at hcall
    cases hcall
  · obtain ⟨history, heq⟩ := collectValidatorVotes_of_history_ne_nil E block hh
    rw [achieveConsensus_of_le hle, heq, Option.map_some] at hcall
    obtain ⟨-, rfl⟩ := Prod.mk.inj (Option.some.inj hcall)
    obtain ⟨-, hlast⟩ := List.append_inj' hhist rfl
    obtain rfl := List.singleton_inj.1 hlast
    -- the appended round is the local one, whose map of votes is empty
    obtain ⟨v, vs, hv⟩ := List.exists_cons_of_ne_nil hne
    have := hvotes v.address
    simp [newRound, hv] at this

theorem keepsHistory_iff :
    cm.KeepsHistory E block ↔ cm.activeValidators.length < cm.requiredValidators.toNat ∨
      (cm.activeValidators = [] ∧ cm.consensusHistory.length < 2 ^ 32) := by
  rcases Nat.lt_or_ge cm.activeValidators.length cm.requiredValidators.toNat with hlt | hle
  · refine ⟨fun _ => .inl hlt, fun _ => ⟨false, cm, achieveConsensus_of_lt hlt, ?_⟩⟩
    rw [if_pos hlt]
  · rw [or_iff_right (Nat.not_lt.2 hle)]
    by_cases hnil : cm.activeValidators = []
    · rw [keepsHistory_of_nil_iff hle hnil]
      exact (and_iff_right hnil).symm
    · exact ⟨fun h => absurd h (not_keepsHistory_of_ne_nil hle hnil), fun h => absurd h.1 hnil⟩

end ConsensusManager

structure Poll where
  activeValidators : List Validator
  block : Block

namespace ConsensusManager

def withActive (cm : ConsensusManager) (p : Poll) : ConsensusManager :=
  { cm with activeValidators := p.activeValidators }

/-- Every call of the run keeps the history, at the state the calls before it left. -/
def RunKeepsHistory (E : Env) : ConsensusManager → List Poll → Prop
  | _, [] => True
  | cm, p :: polls => (cm.withActive p).KeepsHistory E p.block ∧
    ∀ verdict cm', (cm.withActive p).achieveConsensus E p.block = some (verdict, cm') →
      RunKeepsHistory E cm' polls

variable {E : Env} {cm cm' : ConsensusManager} {block : Block}

theorem requiredValidators_of_achieveConsensus {verdict : Bool}
    (h : cm.achieveConsensus E block = some (verdict, cm')) :
    cm'.requiredValidators = cm.requiredValidators := by
  rcases Nat.lt_or_ge cm.activeValidators.length cm.requiredValidators.toNat with hlt | hle
  · rw [achieveConsensus_of_lt hlt] at h
    obtain ⟨-, rfl⟩ := Prod.mk.inj (Option.some.inj h)
    rfl
  · rw [achieveConsensus_of_le hle, Option.map_eq_some_iff] at h
    obtain ⟨mid, hmid, heq⟩ := h
    obtain ⟨history, -, rfl⟩ := Option.map_eq_some_iff.1 hmid
    obtain ⟨-, rfl⟩ := Prod.mk.inj heq
    rfl

theorem length_of_keepsHistory {verdict : Bool} (hkeeps : cm.KeepsHistory E block)
    (hle : cm.requiredValidators.toNat ≤ cm.activeValidators.length)
    (h : cm.achieveConsensus E block = some (verdict, cm')) :
    cm'.consensusHistory.length = cm.consensusHistory.length + 1 := by
  obtain ⟨_, _, hcall, hkept⟩ := hkeeps
  rw [h] at hcall
  obtain ⟨-, rfl⟩ := Prod.mk.inj (Option.some.inj hcall)
  rw [if_neg (Nat.not_lt.2 hle)] at hkept
  obtain ⟨round, hhist, -⟩ := hkept
  rw [hhist, List.length_append]
  rfl

theorem runKeepsHistory_iff (polls : List Poll) (cm : ConsensusManager) :
    cm.RunKeepsHistory E polls ↔ ∀ (i : ℕ) (hi : i < polls.length),
      polls[i].activeValidators.length < cm.requiredValidators.toNat ∨
        (polls[i].activeValidators = [] ∧ cm.consensusHistory.length + i < 2 ^ 32) := by
  induction polls generalizing cm with
  | nil => exact ⟨fun _ i hi => absurd hi (Nat.not_lt_zero i), fun _ => trivial⟩
  | cons p polls ih =>
    have hhead : (cm.withActive p).KeepsHistory E p.block ↔ _ := keepsHistory_iff
    -- the tail, from the state a call that keeps the history leaves
    have htail : ∀ verdict cm',
        (cm.withActive p).achieveConsensus E p.block = some (verdict, cm') →
        (cm.withActive p).KeepsHistory E p.block →
        (cm'.RunKeepsHistory E polls ↔ ∀ (i : ℕ) (hi : i < polls.length),
          polls[i].activeValidators.length < cm.requiredValidators.toNat ∨
            (polls[i].activeValidators = [] ∧ cm.consensusHistory.length + (i + 1) < 2 ^ 32)) := by
      intro verdict cm' hcall hkeeps
      have hreq : cm'.requiredValidators = cm.requiredValidators :=
        (requiredValidators_of_achieveConsensus hcall).trans rfl
      rw [ih, hreq]
      refine forall₂_congr fun i hi => or_congr_right' fun hge => and_congr_right fun hnil => ?_
      rw [hnil, List.length_nil, Nat.not_lt] at hge
      have hlen : cm'.consensusHistory.length = cm.consensusHistory.length + 1 :=
        (length_of_keepsHistory hkeeps (Nat.le_trans hge (Nat.zero_le _)) hcall).trans rfl
      rw [hlen]
      omega
    constructor
    · rintro ⟨hkeeps, hrest⟩ i hi
      cases i with
      | zero => exact hhead.1 hkeeps
      | succ i =>
        have ⟨verdict, cm', hcall, _⟩ := hkeeps
        exact (htail verdict cm' hcall hkeeps).1 (hrest verdict cm' hcall) i (Nat.lt_of_succ_lt_succ hi)
    · intro h
      have hkeeps := hhead.2 (h 0 (Nat.succ_pos _))
      exact ⟨hkeeps, fun verdict cm' hcall => (htail verdict cm' hcall hkeeps).2 fun i hi =>
        h (i + 1) (Nat.succ_lt_succ hi)⟩

end ConsensusManager

/-- A run of `achieveConsensus` calls on a new manager keeps the history exactly when every call
either has too few active validators or has none at all and is among the first 2^32. -/
theorem history_of_run_iff (E : Env) (type : ConsensusType) (requiredValidators : UInt32)
    (polls : List Poll) :
    (ConsensusManager.init type requiredValidators).RunKeepsHistory E polls ↔
      ∀ (i : ℕ) (hi : i < polls.length),
        polls[i].activeValidators.length < requiredValidators.toNat ∨
          (polls[i].activeValidators = [] ∧ i < 2 ^ 32) := by
  rw [ConsensusManager.runKeepsHistory_iff]
  simp [ConsensusManager.init]

/-- The first poll of a new manager with a validator takes `back()` of an empty history. -/
theorem first_poll_undefined :
    ¬ ∀ (E : Env) (type : ConsensusType) (requiredValidators : UInt32) (polls : List Poll),
      (∀ p ∈ polls, (p.activeValidators.map Validator.address).Nodup) →
      (ConsensusManager.init type requiredValidators).RunKeepsHistory E polls := by
  intro h
  have hrun := h Sample.env .hybrid 1 [⟨[Sample.validator "v" .hybrid], Sample.genesis⟩]
    (fun p hp => by rw [List.mem_singleton.1 hp]; exact List.nodup_singleton _)
  rcases (ConsensusManager.runKeepsHistory_iff _ _).1 hrun 0 (Nat.succ_pos _) with hlt | ⟨hnil, -⟩
  · exact absurd hlt (by decide)
  · exact absurd hnil (List.cons_ne_nil _ _)

end BlockchainMessaging
