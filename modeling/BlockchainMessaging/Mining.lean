import BlockchainMessaging.Blockchain
import BlockchainMessaging.Lib.While

/-!
# Mining (`core/block.cpp`)

The loop of `mineBlock` tests the stored hash, which is the hash of the block with its nonce as soon
as the constructor or an earlier turn has stored it. So it goes through the nonces from the block's
own on, around 2^32 if need be, and either finds one or goes on for ever.
-/

namespace BlockchainMessaging
open While

/-- `s` begins with `difficulty` zeros. -/
def Meets (difficulty : UInt32) (s : Bytes) : Prop :=
  List.replicate difficulty.toNat 48 <+: s

theorem meets_iff {difficulty : UInt32} {s : Bytes} :
    Meets difficulty s ↔ s.take difficulty.toNat = List.replicate difficulty.toNat 48 := by
  rw [Meets, List.prefix_iff_eq_take, List.length_replicate, eq_comm]

theorem Meets.le_length {difficulty : UInt32} {s : Bytes} (h : Meets difficulty s) :
    difficulty.toNat ≤ s.length := by
  have hle := List.IsPrefix.length_le h
  rwa [List.length_replicate] at hle

namespace Block

/-- The condition on which the loop of `mineBlock` ends. -/
def Mined (difficulty : UInt32) (block : Block) : Prop :=
  block.hash.take difficulty.toNat = List.replicate difficulty.toNat 48

instance (difficulty : UInt32) : DecidablePred (Mined difficulty) :=
  fun block => inferInstanceAs (Decidable (block.hash.take _ = _))

def mineTurn (E : Env) (block : Block) : Block :=
  let block := { block with nonce := block.nonce + 1 }
  { block with hash := block.calculateHash E }

/-- `none` when the loop needs more than `fuel` turns. -/
def mineBlock (E : Env) (difficulty : UInt32) (fuel : ℕ) (block : Block) : Option Block :=
  loop (mineTurn E) (Mined difficulty) fuel block

/-- `mineBlock` terminates on `block` and leaves `block'`. -/
def Mines (E : Env) (difficulty : UInt32) (block block' : Block) : Prop :=
  ∃ fuel, mineBlock E difficulty fuel block = some block'

/-- The blocks that the constructor and calls of `mineBlock` produce. -/
inductive Reached (E : Env) : Block → Prop
  | init (now : ℤ) (index : UInt32) (transactions : List Transaction) (previousHash : Bytes) :
    Reached E (Block.init E now index transactions previousHash)
  | mineBlock {block block' : Block} (difficulty : UInt32) (hr : Reached E block)
    (hm : Mines E difficulty block block') : Reached E block'

/-- `block` with another nonce and the hash that goes with it. -/
def withNonce (E : Env) (block : Block) (nonce : UInt32) : Block :=
  { block with nonce := nonce, hash := calculateHash E { block with nonce := nonce } }

variable {E : Env} {difficulty : UInt32} {block block' : Block}

theorem withNonce_self (h : block.hash = block.calculateHash E) :
    block.withNonce E block.nonce = block := by
  unfold withNonce
  rw [← h]

theorem mined_withNonce (nonce : UInt32) :
    Mined difficulty (block.withNonce E nonce) ↔
      Meets difficulty (calculateHash E { block with nonce := nonce }) :=
  meets_iff.symm

theorem iterate_mineTurn (nonce : UInt32) (k : ℕ) :
    (mineTurn E)^[k] (block.withNonce E nonce) =
      block.withNonce E (nonce + UInt32.ofNat k) := by
  induction k with
  | zero => simp
  | succ k ih =>
    have hsucc : nonce + UInt32.ofNat (k + 1) = nonce + UInt32.ofNat k + 1 := by
      rw [UInt32.ofNat_add, UInt32.add_assoc]
      rfl
    rw [Function.iterate_succ_apply', ih, hsucc]
    rfl

/-- After `k` turns the block has gone `k` nonces on. -/
theorem iterate_mineTurn_of_hash (h : block.hash = block.calculateHash E) (k : ℕ) :
    (mineTurn E)^[k] block = block.withNonce E (block.nonce + UInt32.ofNat k) := by
  rw [← iterate_mineTurn, withNonce_self h]

theorem hash_mines (h : block.hash = block.calculateHash E) (hm : Mines E difficulty block block') :
    block'.hash = block'.calculateHash E := by
  obtain ⟨k, -, rfl⟩ := ends_iff.1 hm
  rw [iterate_mineTurn_of_hash h]
  rfl

theorem Reached.hash (h : Reached E block) : block.hash = block.calculateHash E := by
  induction h with
  | init now index transactions previousHash => rfl
  | mineBlock difficulty _ hm ih => exact hash_mines ih hm

/-- From any nonce every other one is reached within 2^32 turns. -/
theorem exists_turns (nonce target : UInt32) : ∃ k < 2 ^ 32, nonce + UInt32.ofNat k = target := by
  refine ⟨(target - nonce).toNat, UInt32.toNat_lt _, ?_⟩
  rw [UInt32.ofNat_toNat, UInt32.add_comm, UInt32.sub_add_cancel]

theorem FirstDone.lt_two_pow {k : ℕ} (h : block.hash = block.calculateHash E)
    (hk : FirstDone (mineTurn E) (Mined difficulty) block k) : k < 2 ^ 32 := by
  by_contra hge
  obtain ⟨j, hj, heq⟩ := exists_turns block.nonce (block.nonce + UInt32.ofNat k)
  refine hk.2 j (by omega) ?_
  rw [iterate_mineTurn_of_hash h, heq, ← iterate_mineTurn_of_hash h]
  exact hk.1

end Block

/-- What `mineBlock` promises of the block it leaves: its nonce is the first good one from the old
one on, the old one included, modulo 2^32. -/
structure MinedFrom (E : Env) (difficulty : UInt32) (block block' : Block) : Prop where
  nonce : ∃ k < 2 ^ 32, block'.nonce = block.nonce + UInt32.ofNat k ∧
    Meets difficulty (Block.calculateHash E { block with nonce := block'.nonce }) ∧
    ∀ j < k, ¬ Meets difficulty
      (Block.calculateHash E { block with nonce := block.nonce + UInt32.ofNat j })
  hash : block'.hash = block'.calculateHash E
  meets : Meets difficulty block'.hash
  index : block'.index = block.index
  timestamp : block'.timestamp = block.timestamp
  previousHash : block'.previousHash = block.previousHash
  transactions : block'.transactions = block.transactions

namespace Block
variable {E : Env} {difficulty : UInt32} {block block' : Block}

theorem exists_mines_iff (h : block.hash = block.calculateHash E) :
    (∃ block', Mines E difficulty block block') ↔
      ∃ nonce : UInt32, Meets difficulty (calculateHash E { block with nonce := nonce }) := by
  refine exists_ends_iff.trans ⟨?_, ?_⟩
  · rintro ⟨k, hk⟩
    rw [iterate_mineTurn_of_hash h, mined_withNonce] at hk
    exact ⟨_, hk⟩
  · rintro ⟨nonce, hn⟩
    obtain ⟨k, -, heq⟩ := exists_turns block.nonce nonce
    refine ⟨k, ?_⟩
    rw [iterate_mineTurn_of_hash h, heq, mined_withNonce]
    exact hn

theorem Mines.minedFrom (h : block.hash = block.calculateHash E)
    (hm : Mines E difficulty block block') : MinedFrom E difficulty block block' := by
  obtain ⟨k, hk, rfl⟩ := ends_iff.1 hm
  have hlt : k < 2 ^ 32 := FirstDone.lt_two_pow h hk
  obtain ⟨hdone, hfirst⟩ := hk
  rw [iterate_mineTurn_of_hash h] at hdone ⊢
  have hmeets := (mined_withNonce (block.nonce + UInt32.ofNat k)).1 hdone
  refine ⟨⟨k, hlt, rfl, hmeets, fun j hj hbad => ?_⟩, rfl, hmeets, rfl, rfl, rfl, rfl⟩
  refine hfirst j hj ?_
  rw [iterate_mineTurn_of_hash h, mined_withNonce]
  exact hbad

end Block

/-- `mineBlock` terminates exactly when some nonce is good, so never for a difficulty above 64, and
then leaves the block with the first good nonce. -/
theorem mineBlock_terminates_iff (E : Env) (hE : ∀ s, (E.sha256 s).length = 64) (block : Block)
    (hr : Block.Reached E block) (difficulty : UInt32) :
    ((∃ block', Block.Mines E difficulty block block') ↔
      ∃ nonce : UInt32, Meets difficulty (Block.calculateHash E { block with nonce := nonce })) ∧
    (64 < difficulty → ¬ ∃ block', Block.Mines E difficulty block block') ∧
    ∀ block', Block.Mines E difficulty block block' → MinedFrom E difficulty block block' := by
  refine ⟨Block.exists_mines_iff hr.hash, ?_, fun block' hm => hm.minedFrom hr.hash⟩
  intro hlarge hends
  obtain ⟨nonce, hmeets⟩ := (Block.exists_mines_iff hr.hash).1 hends
  have hle : difficulty.toNat ≤ 64 := hE _ ▸ hmeets.le_length
  have hlt : 64 < difficulty.toNat := UInt32.lt_iff_toNat_lt.1 hlarge
  omega

section
open Sample

/-- A digest that is good exactly when the string ends in 3. -/
def Sample.lastDigitEnv : Env :=
  { sha256 := fun s => List.replicate 64 (if s.getLast? = some 51 then 48 else 49)
    isValid := fun _ => true }

/-- The search goes on from the nonce 0, which is not good. -/
theorem mineBlock_terminates_three :
    let block := Block.init lastDigitEnv 1700000000 1 [] (ascii "0")
    ∃ block', Block.Mines lastDigitEnv 2 block block' ∧ MinedFrom lastDigitEnv 2 block block' ∧
      block'.nonce ≠ 0 := by
  intro block
  obtain ⟨hiff, -, hfrom⟩ :=
    mineBlock_terminates_iff lastDigitEnv (fun _ => List.length_replicate) block (.init _ _ _ _) 2
  obtain ⟨block', hm⟩ := hiff.2 ⟨3, List.prefix_iff_eq_take.2 (by decide +kernel)⟩
  refine ⟨block', hm, hfrom block' hm, fun hzero => ?_⟩
  obtain ⟨k, -, -, hmeets, -⟩ := (hfrom block' hm).nonce
  rw [hzero, meets_iff] at hmeets
  revert hmeets
  decide +kernel

end

/-! ### Mining and the checks of a blockchain -/

namespace Block

/-- Calls of `mineBlock` that end take the block from one form to the other. -/
def MinesOften (E : Env) : Block → Block → Prop :=
  Relation.ReflTransGen fun block block' => ∃ difficulty, Mines E difficulty block block'

/-- What the checks of a blockchain see of a block agrees. -/
structure SameChecks (E : Env) (block block' : Block) : Prop where
  isValid : block'.isValid E = block.isValid E
  previousHash : block'.previousHash = block.previousHash
  transactions : block'.transactions = block.transactions

variable {E : Env} {block block' : Block}

theorem isValid_eq_all (h : block.hash = block.calculateHash E) :
    block.isValid E = block.transactions.all E.isValid := by
  rw [isValid, if_neg (not_not.2 h.symm)]

theorem SameChecks.of_mines {difficulty : UInt32} (h : block.hash = block.calculateHash E)
    (hm : Mines E difficulty block block') : SameChecks E block block' := by
  have hfrom := hm.minedFrom h
  refine ⟨?_, hfrom.previousHash, hfrom.transactions⟩
  rw [isValid_eq_all hfrom.hash, isValid_eq_all h, hfrom.transactions]

theorem SameChecks.of_minesOften (hr : Reached E block) (hm : MinesOften E block block') :
    Reached E block' ∧ SameChecks E block block' := by
  induction hm with
  | refl => exact ⟨hr, rfl, rfl, rfl⟩
  | tail _ hstep ih =>
    obtain ⟨difficulty, hmines⟩ := hstep
    obtain ⟨hreached, hsame⟩ := ih
    have hnext := of_mines hreached.hash hmines
    refine ⟨.mineBlock difficulty hreached hmines, ?_, ?_, ?_⟩
    · exact hnext.isValid.trans hsame.isValid
    · exact hnext.previousHash.trans hsame.previousHash
    · exact hnext.transactions.trans hsame.transactions

namespace SameChecks

theorem validator_validateBlock (h : SameChecks E block block') (v : Validator) :
    v.validateBlock E block' = v.validateBlock E block := by
  rw [Validator.validateBlock, Validator.validateBlock, h.isValid, h.transactions]

theorem validateBlock (h : SameChecks E block block') (bc : Blockchain) :
    bc.validateBlock E block' = bc.validateBlock E block := by
  rw [Blockchain.validateBlock, Blockchain.validateBlock, h.isValid, h.previousHash, h.transactions]

theorem reachConsensus (h : SameChecks E block block') (bc : Blockchain) :
    bc.reachConsensus E block' = bc.reachConsensus E block := by
  have hvote : Blockchain.collectVote E block' = Blockchain.collectVote E block := by
    funext counts v
    rw [Blockchain.collectVote, Blockchain.collectVote, h.validator_validateBlock]
  rw [Blockchain.reachConsensus, Blockchain.reachConsensus, hvote, h.transactions]

theorem pushBlock (h : SameChecks E block block') (bc : Blockchain) :
    bc.pushBlock block' = { bc.pushBlock block with
      chain := bc.chain ++ [block']
      chain_ne := List.append_ne_nil_of_right_ne_nil _ (List.cons_ne_nil _ _) } := by
  rw [Blockchain.pushBlock_eq, Blockchain.pushBlock_eq, Block.transfers, Block.financial,
    h.transactions]
  rfl

end SameChecks
end Block

/-- Proof of work plays no part in `addBlock`: after any calls of `mineBlock` on a block, at any
difficulties, it is taken or refused as it was without them, with the same message, and leaves the
same ledger. -/
theorem addBlock_of_minesOften (E : Env) (bc : Blockchain) {block block' : Block}
    (hr : Block.Reached E block) (hm : Block.MinesOften E block block') :
    let r := bc.addBlock E block
    let r' := bc.addBlock E block'
    r'.1 = r.1 ∧ r'.2.accountBalances = r.2.accountBalances ∧
      r'.2.chain.length = r.2.chain.length := by
  intro r r'
  have h := (Block.SameChecks.of_minesOften hr hm).2
  have hv := h.validateBlock bc
  have hc := h.reachConsensus bc
  rcases Blockchain.addBlock_cases E bc block with ⟨hacc, heq⟩ | ⟨hacc, -⟩
  · have hacc' : bc.Accepts E block' := ⟨hv.trans hacc.1, hc.trans hacc.2⟩
    have hr' : r' = _ := Blockchain.addBlock_of_accepts hacc'
    have hr : r = _ := heq
    rw [hr', hr, h.pushBlock]
    exact ⟨rfl, rfl, by simp⟩
  · have hrefused : ∀ {b : Block}, ¬ bc.Accepts E b → (bc.addBlock E b).2 = bc := by
      intro b hb
      obtain ⟨err, herr⟩ := Blockchain.addBlock_of_not_accepts hb
      rw [herr]
    have hacc' : ¬ bc.Accepts E block' := by
      rw [Blockchain.Accepts, hv, hc]
      exact hacc
    have hout : r'.1 = r.1 := by
      show (bc.addBlock E block').1 = (bc.addBlock E block).1
      rw [Blockchain.addBlock, Blockchain.addBlock, hv, hc]
      split
      · rfl
      · split <;> rfl
    exact ⟨hout, by rw [hrefused hacc', hrefused hacc], by rw [hrefused hacc', hrefused hacc]⟩

section
open Sample

/-- A second block that is not mined is taken as the same block with three zeros in front is. -/
theorem addBlock_of_minesOften_second :
    let bc : Blockchain :=
      { Blockchain.init lastDigitEnv 1700000000 with
        messageValidators := validators
        financialValidators := validators }
    let block := Block.init lastDigitEnv 1700000060 1 [] bc.getLatestBlock.hash
    (bc.addBlock lastDigitEnv (block.withNonce lastDigitEnv 3)).1 = .ok () := by
  intro bc block
  have hm : Block.MinesOften lastDigitEnv block (block.withNonce lastDigitEnv 3) :=
    .single ⟨3, 4, by decide +kernel⟩
  have hr : Block.Reached lastDigitEnv block := .init 1700000060 1 [] bc.getLatestBlock.hash
  rw [(addBlock_of_minesOften lastDigitEnv bc hr hm).1]
  decide +kernel

end

end BlockchainMessaging
