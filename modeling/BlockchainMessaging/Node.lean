import BlockchainMessaging.Blockchain

/-!
# The node (`network/node.hpp`, `network/node.cpp`)

`validateAndAddBlock` puts the ledger update, the height, the queue of pending transactions and the
broadcast into one `try`, and its `catch` undoes nothing. The rest of a node, its threads, its network
and its wallet, is left out.
-/

namespace BlockchainMessaging

/-- What is thrown, caught by `catch (const std::exception& e)` or not. -/
inductive Thrown where
  | exception (what : String)
  | other
deriving DecidableEq

/-- What `removePendingTransaction` and `broadcastBlock`, which have no bodies, throw in one call of
`validateAndAddBlock`: for every turn of its loop an exception and the queue it leaves behind, if it
throws there. -/
structure Faults where
  remove : ℕ → Option (Thrown × List Transaction)
  broadcast : Option Thrown

structure Node where
  blockchain : Blockchain
  lastBlockHeight : ℕ
  pendingTransactions : List Transaction

/-- How a call ends: it throws, its `catch` reports the block as not added, or it returns. -/
inductive Outcome where
  | threw (e : Thrown)
  | reported (what : String)
  | returned

/-- An exception inside the `try`. -/
def Thrown.outcome : Thrown → Outcome
  | exception what => .reported what
  | other => .threw .other

namespace Node

def removePendingTransaction (hash : Bytes) (queue : List Transaction) : List Transaction :=
  queue.filter fun tx => tx.getHash ≠ hash

/-- The loop over the transactions of the block, from its turn `i` on. -/
def removeProcessed (F : Faults) : ℕ → List Transaction → List Transaction →
    Option Thrown × List Transaction
  | _, [], queue => (none, queue)
  | i, tx :: txs, queue =>
    match F.remove i with
    | some (e, queue) => (some e, queue)
    | none => removeProcessed F (i + 1) txs (removePendingTransaction tx.getHash queue)

def validateAndAddBlock (E : Env) (F : Faults) (node : Node) (block : Block) : Outcome × Node :=
  if !node.blockchain.validateBlock E block then (.threw (.exception "Invalid block"), node)
  else
    match node.blockchain.addBlock E block with
    | (.error what, blockchain) => (.reported what, { node with blockchain := blockchain })
    | (.ok (), blockchain) =>
      let node :=
        { node with blockchain := blockchain, lastBlockHeight := blockchain.chain.length }
      match removeProcessed F 0 block.transactions node.pendingTransactions with
      | (some e, queue) => (e.outcome, { node with pendingTransactions := queue })
      | (none, queue) =>
        let node := { node with pendingTransactions := queue }
        match F.broadcast with
        | some e => (e.outcome, node)
        | none => (.returned, node)

/-! ### All or nothing -/

/-- What a node keeps from before a call that adds nothing. -/
structure Unchanged (node node' : Node) : Prop where
  chain : node'.blockchain.chain = node.blockchain.chain
  balances : ∀ a, node'.blockchain.getBalance a = node.blockchain.getBalance a
  lastBlockHeight : node'.lastBlockHeight = node.lastBlockHeight
  pendingTransactions : node'.pendingTransactions = node.pendingTransactions

structure Added (block : Block) (node node' : Node) : Prop where
  chain : node'.blockchain.chain = node.blockchain.chain ++ [block]
  lastBlockHeight : node'.lastBlockHeight = node'.blockchain.chain.length
  pendingTransactions : ∀ tx ∈ block.transactions, ∀ pending ∈ node'.pendingTransactions,
    pending.getHash ≠ tx.getHash

def AllOrNothing (block : Block) (node : Node) (r : Outcome × Node) : Prop :=
  match r.1 with
  | .returned => Added block node r.2
  | _ => Unchanged node r.2

/-- Neither the loop nor the broadcast throws. -/
structure Faultless (F : Faults) (block : Block) : Prop where
  remove : ∀ i < block.transactions.length, F.remove i = none
  broadcast : F.broadcast = none

variable {E : Env} {F : Faults} {node : Node} {block : Block}

theorem removeProcessed_fst_eq_none_iff (F : Faults) (i : ℕ) (txs queue : List Transaction) :
    (removeProcessed F i txs queue).1 = none ↔ ∀ j < txs.length, F.remove (i + j) = none := by
  induction txs generalizing i queue with
  | nil => simp [removeProcessed]
  | cons tx txs ih =>
    rw [removeProcessed, List.length_cons, Nat.forall_lt_succ_left]
    cases hr : F.remove i with
    | some r => simp
    | none => simp [ih, Nat.add_assoc, Nat.add_comm 1]

theorem getHash_ne_of_mem_removeProcessed {i : ℕ} {txs queue : List Transaction}
    (h : (removeProcessed F i txs queue).1 = none) :
    (removeProcessed F i txs queue).2.Sublist queue ∧ ∀ tx ∈ txs,
      ∀ pending ∈ (removeProcessed F i txs queue).2, pending.getHash ≠ tx.getHash := by
  induction txs generalizing i queue with
  | nil => exact ⟨List.Sublist.refl queue, fun _ h => absurd h List.not_mem_nil⟩
  | cons tx txs ih =>
    rw [removeProcessed] at h ⊢
    cases hr : F.remove i with
    | some r =>
      rw [hr] at h
      cases h
    | none =>
      rw [hr] at h
      obtain ⟨hsub, hne⟩ := ih h
      refine ⟨hsub.trans List.filter_sublist, List.forall_mem_cons.2 ⟨fun p hp => ?_, hne⟩⟩
      simpa using List.of_mem_filter (hsub.subset hp)

theorem allOrNothing_of_not_accepts (h : ¬ node.blockchain.Accepts E block) :
    AllOrNothing block node (node.validateAndAddBlock E F block) := by
  have hsame : Unchanged node node := ⟨rfl, fun _ => rfl, rfl, rfl⟩
  obtain ⟨err, herr⟩ := Blockchain.addBlock_of_not_accepts h
  unfold validateAndAddBlock
  split
  · exact hsame
  · rw [herr]
    exact hsame

def grown (node : Node) (block : Block) : Node :=
  { node with
    blockchain := node.blockchain.pushBlock block
    lastBlockHeight := (node.blockchain.pushBlock block).chain.length }

theorem not_unchanged_grown (queue : List Transaction) :
    ¬ Unchanged node { node.grown block with pendingTransactions := queue } := by
  intro h
  have hchain : (node.blockchain.pushBlock block).chain = node.blockchain.chain := h.chain
  simp at hchain

theorem not_allOrNothing_outcome (e : Thrown) (queue : List Transaction) :
    ¬ AllOrNothing block node
      (e.outcome, { node.grown block with pendingTransactions := queue }) := by
  cases e <;> exact not_unchanged_grown queue

theorem validateAndAddBlock_of_accepts (h : node.blockchain.Accepts E block) :
    node.validateAndAddBlock E F block =
      match removeProcessed F 0 block.transactions node.pendingTransactions with
      | (some e, queue) => (e.outcome, { node.grown block with pendingTransactions := queue })
      | (none, queue) =>
        match F.broadcast with
        | some e => (e.outcome, { node.grown block with pendingTransactions := queue })
        | none => (.returned, { node.grown block with pendingTransactions := queue }) := by
  rw [validateAndAddBlock, h.1, Blockchain.addBlock_of_accepts h]
  rfl

theorem allOrNothing_iff_of_accepts (h : node.blockchain.Accepts E block) :
    AllOrNothing block node (node.validateAndAddBlock E F block) ↔ Faultless F block := by
  rw [validateAndAddBlock_of_accepts h]
  have hremove := removeProcessed_fst_eq_none_iff F 0 block.transactions node.pendingTransactions
  simp only [Nat.zero_add] at hremove
  rcases hr : removeProcessed F 0 block.transactions node.pendingTransactions with ⟨e | _, queue⟩
  · have hqueue := (getHash_ne_of_mem_removeProcessed (congrArg Prod.fst hr)).2
    rw [hr] at hremove hqueue
    cases hb : F.broadcast with
    | some e =>
      refine iff_of_false (not_allOrNothing_outcome e queue) fun hf => ?_
      rw [hf.broadcast] at hb
      cases hb
    | none => exact iff_of_true ⟨Blockchain.chain_pushBlock, rfl, hqueue⟩ ⟨hremove.1 rfl, hb⟩
  · rw [hr] at hremove
    exact iff_of_false (not_allOrNothing_outcome _ queue) fun hf => by
      cases hremove.2 hf.remove

end Node

/-- A call of `validateAndAddBlock` is all or nothing exactly when the block is refused or nothing
throws after `addBlock` has changed the ledger. -/
theorem validateAndAddBlock_iff (E : Env) (F : Faults) (node : Node) (block : Block) :
    Node.AllOrNothing block node (node.validateAndAddBlock E F block) ↔
      (node.blockchain.Accepts E block → Node.Faultless F block) := by
  by_cases h : node.blockchain.Accepts E block
  · rw [Node.allOrNothing_iff_of_accepts h, forall_prop_of_true h]
  · exact iff_of_true (Node.allOrNothing_of_not_accepts h) fun h' => absurd h' h

section
open Sample

def Sample.node : Node :=
  { blockchain := blockchain, lastBlockHeight := 1, pendingTransactions := [payment "bob" 1] }

/-- The broadcast of an accepted block fails: the block is reported as not added, and the chain has
grown. -/
theorem broadcast_fails_after_growth :
    ¬ ∀ (E : Env) (F : Faults) (node : Node) (block : Block),
      Node.AllOrNothing block node (node.validateAndAddBlock E F block) := by
  intro h
  have hacc : node.blockchain.Accepts env (block [payment "bob" 1]) := by decide +kernel
  have hfaultless := (Node.allOrNothing_iff_of_accepts hacc).1
    (h env ⟨fun _ => none, some (.exception "connection refused")⟩ node _)
  cases hfaultless.broadcast

end

end BlockchainMessaging
