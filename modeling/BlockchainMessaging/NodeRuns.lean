import BlockchainMessaging.ChainAgreement
import BlockchainMessaging.Node
import BlockchainMessaging.Lib.Interleaving

/-!
# Runs of nodes (`network/node.cpp`)

A node is driven by calls of `submitTransaction` and `validateAndAddBlock`, whatever its network and
its queue throw in them. Its blockchain follows the calls of `addBlock` alone, so the chain results
carry over to a network of nodes, with the calls interleaved in any way.
-/

namespace BlockchainMessaging
open Machine History

/-- A call of one of the two functions, with what the functions without bodies throw in it:
`broadcastTransaction` in the first, those of `Faults` in the second. -/
inductive NodeCall where
  | submitTransaction (tx : Transaction) (broadcast : Option Thrown)
  | validateAndAddBlock (o : Offer) (F : Faults)

namespace NodeCall

/-- What the call offers to `addBlock`. -/
def offer : NodeCall → Option Offer
  | submitTransaction _ _ => none
  | validateAndAddBlock o _ => some o

/-- `removePendingTransaction` does not throw in the call. -/
def Removes : NodeCall → Prop
  | submitTransaction _ _ => True
  | validateAndAddBlock _ F => ∀ i, F.remove i = none

/-- The transaction the call puts into the queue. -/
def submitted (E : Env) : NodeCall → List Transaction
  | submitTransaction tx _ => if E.isValid tx then [tx] else []
  | validateAndAddBlock _ _ => []

end NodeCall

namespace Node

/-- The constructor. -/
def init (E : Env) (now : ℤ) : Node :=
  { blockchain := Blockchain.init E now, lastBlockHeight := 0, pendingTransactions := [] }

/-- An exception of the broadcast leaves the transaction in the queue. -/
def submitTransaction (E : Env) (broadcast : Option Thrown) (node : Node) (tx : Transaction) :
    Outcome × Node :=
  if !E.isValid tx then (.threw (.exception "Invalid transaction"), node)
  else
    let node := { node with pendingTransactions := node.pendingTransactions ++ [tx] }
    match broadcast with
    | some e => (.threw e, node)
    | none => (.returned, node)

def withPools (node : Node) (o : Offer) : Node :=
  { node with blockchain := node.blockchain.withPools o }

/-- The state a call leaves, whether it returns or throws. -/
def step (E : Env) (node : Node) : NodeCall → Node
  | .submitTransaction tx broadcast => (node.submitTransaction E broadcast tx).2
  | .validateAndAddBlock o F => ((node.withPools o).validateAndAddBlock E F o.block).2

/-- The block the call adds to the chain. -/
def addedBy (E : Env) (node : Node) (call : NodeCall) : List Block :=
  match call.offer with
  | none => []
  | some o => if (node.blockchain.withPools o).Accepts E o.block then [o.block] else []

/-- The blocks the calls add, in order. -/
def added (E : Env) : Node → List NodeCall → List Block
  | _, [] => []
  | node, call :: calls => node.addedBy E call ++ added E (node.step E call) calls

/-- None of the blocks holds a transaction with this hash. -/
def Outstanding (blocks : List Block) (tx : Transaction) : Prop :=
  ∀ block ∈ blocks, ∀ tx' ∈ block.transactions, tx.getHash ≠ tx'.getHash

instance (blocks : List Block) : DecidablePred (Outstanding blocks) :=
  fun _ => inferInstanceAs (Decidable (∀ _ ∈ _, ∀ _ ∈ _, _))

/-- The valid transactions among those submitted, but for those whose hash stands in a block added
later. -/
def waiting (E : Env) : Node → List NodeCall → List Transaction
  | _, [] => []
  | node, call :: calls =>
    ((call.submitted E).filter fun tx => Outstanding (added E (node.step E call) calls) tx) ++
      waiting E (node.step E call) calls

/-! ### What one call does -/

variable {E : Env} {F : Faults} {node : Node} {call : NodeCall} {block : Block}

@[simp] theorem addedBy_submitTransaction (tx : Transaction) (broadcast : Option Thrown) :
    node.addedBy E (.submitTransaction tx broadcast) = [] := rfl

@[simp] theorem filter_outstanding_nil (queue : List Transaction) :
    (queue.filter fun tx => Outstanding [] tx) = queue :=
  List.filter_eq_self.2 fun _ _ => decide_eq_true fun _ h => absurd h List.not_mem_nil

theorem outstanding_append {blocks blocks' : List Block} {tx : Transaction} :
    Outstanding (blocks ++ blocks') tx ↔ Outstanding blocks tx ∧ Outstanding blocks' tx := by
  unfold Outstanding
  exact List.forall_mem_append

theorem submitTransaction_snd (broadcast : Option Thrown) (tx : Transaction) :
    (node.submitTransaction E broadcast tx).2 =
      { node with
        pendingTransactions :=
          node.pendingTransactions ++ (NodeCall.submitTransaction tx broadcast).submitted E } := by
  unfold submitTransaction NodeCall.submitted
  cases hv : E.isValid tx with
  | false => simp [hv]
  | true => cases broadcast <;> simp [hv]

/-- A block that is taken grows the node, whatever throws afterwards. -/
theorem validateAndAddBlock_snd_of_accepts (h : node.blockchain.Accepts E block) :
    (node.validateAndAddBlock E F block).2 =
      { node.grown block with
        pendingTransactions :=
          (removeProcessed F 0 block.transactions node.pendingTransactions).2 } := by
  rw [validateAndAddBlock_of_accepts h]
  rcases removeProcessed F 0 block.transactions node.pendingTransactions with ⟨e | _, queue⟩
  · cases F.broadcast <;> rfl
  · rfl

theorem validateAndAddBlock_snd_of_not_accepts (h : ¬ node.blockchain.Accepts E block) :
    (node.validateAndAddBlock E F block).2 = node := by
  obtain ⟨err, herr⟩ := Blockchain.addBlock_of_not_accepts h
  unfold validateAndAddBlock
  split
  · rfl
  · rw [herr]

theorem removeProcessed_of_forall (h : ∀ i, F.remove i = none) (i : ℕ)
    (txs queue : List Transaction) :
    removeProcessed F i txs queue =
      (none, queue.filter fun pending => ∀ tx ∈ txs, pending.getHash ≠ tx.getHash) := by
  induction txs generalizing i queue with
  | nil => simp [removeProcessed]
  | cons tx txs ih =>
    rw [removeProcessed, h i]
    simp only [ih, removePendingTransaction, List.filter_filter, Prod.mk.injEq, true_and]
    refine List.filter_congr fun pending _ => ?_
    rw [Bool.eq_iff_iff]
    simp only [Bool.and_eq_true, decide_eq_true_eq, List.forall_mem_cons]
    exact And.comm

theorem step_validateAndAddBlock (E : Env) (node : Node) (o : Offer) (F : Faults) :
    ((node.blockchain.withPools o).Accepts E o.block ∧
      node.step E (.validateAndAddBlock o F) =
        { (node.withPools o).grown o.block with
          pendingTransactions :=
            (removeProcessed F 0 o.block.transactions node.pendingTransactions).2 }) ∨
    (¬ (node.blockchain.withPools o).Accepts E o.block ∧
      node.step E (.validateAndAddBlock o F) = node.withPools o) := by
  by_cases hacc : (node.blockchain.withPools o).Accepts E o.block
  · have hacc' : (node.withPools o).blockchain.Accepts E o.block := hacc
    exact .inl ⟨hacc, validateAndAddBlock_snd_of_accepts hacc'⟩
  · have hacc' : ¬ (node.withPools o).blockchain.Accepts E o.block := hacc
    exact .inr ⟨hacc, validateAndAddBlock_snd_of_not_accepts hacc'⟩

/-- The blockchain of a node moves as under the offer of the call, if it makes one. -/
theorem blockchain_step (node : Node) (call : NodeCall) :
    (node.step E call).blockchain =
      run (Blockchain.step E) node.blockchain call.offer.toList := by
  cases call with
  | submitTransaction tx broadcast =>
    rw [step, submitTransaction_snd]
    rfl
  | validateAndAddBlock o F =>
    have hoffer : run (Blockchain.step E) node.blockchain
        (NodeCall.validateAndAddBlock o F).offer.toList = node.blockchain.step E o := rfl
    rw [hoffer]
    rcases step_validateAndAddBlock E node o F with ⟨hacc, heq⟩ | ⟨hacc, heq⟩
    · rcases Blockchain.step_cases E node.blockchain o with ⟨-, hstep⟩ | ⟨hno, -⟩
      · rw [heq, hstep]
        rfl
      · exact absurd hacc hno
    · rcases Blockchain.step_cases E node.blockchain o with ⟨hyes, -⟩ | ⟨-, hstep⟩
      · exact absurd hyes hacc
      · rw [heq, hstep]
        rfl

theorem chain_step (node : Node) (call : NodeCall) :
    (node.step E call).blockchain.chain = node.blockchain.chain ++ node.addedBy E call := by
  cases call with
  | submitTransaction tx broadcast =>
    rw [step, submitTransaction_snd, addedBy_submitTransaction, List.append_nil]
  | validateAndAddBlock o F =>
    rw [addedBy, NodeCall.offer]
    rcases step_validateAndAddBlock E node o F with ⟨hacc, heq⟩ | ⟨hacc, heq⟩
    · simp only [heq, grown, Blockchain.chain_pushBlock, if_pos hacc]
      rfl
    · simp only [heq, if_neg hacc, List.append_nil]
      rfl

theorem lastBlockHeight_step (node : Node) (call : NodeCall) :
    (node.step E call).lastBlockHeight =
      if node.addedBy E call = [] then node.lastBlockHeight
      else (node.step E call).blockchain.chain.length := by
  cases call with
  | submitTransaction tx broadcast =>
    rw [step, submitTransaction_snd, addedBy_submitTransaction, if_pos rfl]
  | validateAndAddBlock o F =>
    rw [addedBy, NodeCall.offer]
    rcases step_validateAndAddBlock E node o F with ⟨hacc, heq⟩ | ⟨hacc, heq⟩
    · simp only [heq, if_pos hacc, List.cons_ne_nil, ↓reduceIte]
      rfl
    · simp only [heq, if_neg hacc, ↓reduceIte]
      rfl

/-- Where nothing throws out of the loop, the queue loses what the added block holds and gains what
is submitted. -/
theorem pendingTransactions_step (hcall : call.Removes) :
    (node.step E call).pendingTransactions =
      (node.pendingTransactions.filter fun tx => Outstanding (node.addedBy E call) tx) ++
        call.submitted E := by
  cases call with
  | submitTransaction tx broadcast =>
    rw [step, submitTransaction_snd, addedBy_submitTransaction, filter_outstanding_nil]
  | validateAndAddBlock o F =>
    rw [addedBy, NodeCall.offer, NodeCall.submitted, List.append_nil]
    rcases step_validateAndAddBlock E node o F with ⟨hacc, heq⟩ | ⟨hacc, heq⟩
    · simp only [heq, if_pos hacc, removeProcessed_of_forall hcall]
      refine List.filter_congr fun tx _ => ?_
      simp [Outstanding]
    · simp only [heq, if_neg hacc, filter_outstanding_nil]
      rfl

/-! ### Runs -/

/-- The blockchain of a node is a run of `addBlock`. -/
theorem blockchain_run (node : Node) (calls : List NodeCall) :
    (run (step E) node calls).blockchain =
      run (Blockchain.step E) node.blockchain (calls.filterMap NodeCall.offer) := by
  induction calls generalizing node with
  | nil => rfl
  | cons call calls ih =>
    have htail : (run (step E) node (call :: calls)).blockchain = _ := ih (node.step E call)
    rw [htail, blockchain_step]
    cases hoffer : call.offer with
    | none => rw [List.filterMap_cons_none hoffer]; rfl
    | some o => rw [List.filterMap_cons_some hoffer]; rfl

theorem chain_run (node : Node) (calls : List NodeCall) :
    (run (step E) node calls).blockchain.chain = node.blockchain.chain ++ added E node calls := by
  induction calls generalizing node with
  | nil => exact (List.append_nil _).symm
  | cons call calls ih =>
    have htail : (run (step E) node (call :: calls)).blockchain.chain = _ := ih (node.step E call)
    rw [htail, chain_step, added, List.append_assoc]

theorem lastBlockHeight_run (node : Node) (calls : List NodeCall) :
    (run (step E) node calls).lastBlockHeight =
      if added E node calls = [] then node.lastBlockHeight
      else node.blockchain.chain.length + (added E node calls).length := by
  induction calls generalizing node with
  | nil => rfl
  | cons call calls ih =>
    have htail : (run (step E) node (call :: calls)).lastBlockHeight = _ := ih (node.step E call)
    rw [htail, lastBlockHeight_step, chain_step, added]
    by_cases hrest : added E (node.step E call) calls = []
    · simp [hrest]
    · by_cases hnow : node.addedBy E call = []
      · simp [hrest, hnow]
      · simp only [hrest, hnow, ↓reduceIte, List.append_eq_nil_iff, and_self, List.length_append]
        omega

theorem pendingTransactions_run {calls : List NodeCall} (hcalls : ∀ call ∈ calls, call.Removes)
    (node : Node) :
    (run (step E) node calls).pendingTransactions =
      (node.pendingTransactions.filter fun tx => Outstanding (added E node calls) tx) ++
        waiting E node calls := by
  induction calls generalizing node with
  | nil =>
    rw [added, filter_outstanding_nil, waiting, List.append_nil]
    rfl
  | cons call calls ih =>
    have hnow : (node.step E call).pendingTransactions = _ :=
      pendingTransactions_step (hcalls call List.mem_cons_self)
    have htail : (run (step E) node (call :: calls)).pendingTransactions = _ :=
      ih (fun c hc => hcalls c (List.mem_cons_of_mem _ hc)) (node.step E call)
    rw [htail, hnow, List.filter_append, List.filter_filter, added, waiting, List.append_assoc]
    congr 1
    refine List.filter_congr fun tx _ => ?_
    rw [Bool.eq_iff_iff, Bool.and_eq_true, decide_eq_true_eq, decide_eq_true_eq, decide_eq_true_eq,
      outstanding_append]
    exact And.comm

end Node

/-- A node after any calls: its blockchain is what the calls of `addBlock` alone make of it, its
chain is the genesis block and the blocks taken, its height is the length of the chain, or 0 as long
as there is only the genesis block; and if `removePendingTransaction` does not throw, the queue holds
the valid transactions submitted whose hash no transaction of a block taken later has, in their
order. -/
theorem node_of_run (E : Env) (now : ℤ) (calls : List NodeCall) :
    let node := run (Node.step E) (Node.init E now) calls
    let blocks := Node.added E (Node.init E now) calls
    node.blockchain =
        run (Blockchain.step E) (Blockchain.init E now) (calls.filterMap NodeCall.offer) ∧
      node.blockchain.chain = Block.init E now 0 [] (ascii "0") :: blocks ∧
      node.lastBlockHeight = (if blocks = [] then 0 else node.blockchain.chain.length) ∧
      ((∀ call ∈ calls, call.Removes) →
        node.pendingTransactions = Node.waiting E (Node.init E now) calls) := by
  intro node blocks
  have hchain : node.blockchain.chain = Block.init E now 0 [] (ascii "0") :: blocks :=
    Node.chain_run (Node.init E now) calls
  refine ⟨Node.blockchain_run (Node.init E now) calls, hchain, ?_, fun hcalls => ?_⟩
  · have hheight : node.lastBlockHeight = if blocks = [] then 0 else 1 + blocks.length :=
      Node.lastBlockHeight_run (Node.init E now) calls
    rw [hheight, hchain, List.length_cons, Nat.add_comm]
  · exact Node.pendingTransactions_run hcalls (Node.init E now)

/-! ### A network of nodes -/

/-- In a network of nodes, with their calls interleaved in any way, two nodes whose constructors read
different clocks never have a block in common, unless digests or headers collide. -/
theorem nodes_of_two_clocks {κ : Type*} [DecidableEq κ] (E : Env)
    (hE : ∀ s, (E.sha256 s).length = 64) (now : κ → ℤ) (schedule : List (κ × NodeCall)) {i j : κ}
    (hnow : now i ≠ now j) :
    let net := run (stepAt fun _ => Node.step E) (fun k => Node.init E (now k)) schedule
    Tells E (net i).blockchain.chain (net j).blockchain.chain →
      ∀ b ∈ (net i).blockchain.chain, ∀ c ∈ (net j).blockchain.chain, b.hash ≠ c.hash := by
  intro net htells b hb c hc hhash
  have hformed : ∀ k, ChainFormed E (now k) (net k).blockchain := by
    intro k
    have hrun : (net k).blockchain = run (Blockchain.step E) (Blockchain.init E (now k))
        ((inputsOf k schedule).filterMap NodeCall.offer) := by
      rw [show net k = _ from run_stepAt _ _ schedule k, Node.blockchain_run]
      rfl
    rw [hrun]
    exact ChainFormed.run hE (now k) _
  obtain ⟨l₁, m₁, hc₁⟩ := List.append_of_mem hb
  obtain ⟨l₂, m₂, hc₂⟩ := List.append_of_mem hc
  have htold := (hformed i).told_sameParent (hformed j)
  rcases ChainFormed.match_or_diverge hE (hformed i) (hformed j) htold hc₁ hc₂ hhash with hall | hdiv
  · exact hnow (ChainFormed.now_eq_of_forall₂ (hformed i) (hformed j) hc₁ hc₂ hall)
  · refine htells.not_diverge (fun a ha => ?_) (fun a ha => ?_) hdiv
    · rw [hc₁, List.append_cons]
      exact List.mem_append_left _ ha
    · rw [hc₂, List.append_cons]
      exact List.mem_append_left _ ha

section
open Sample

/-- One of two nodes constructed a second apart has taken a block. -/
theorem nodes_of_two_clocks_second :
    let net := run (stepAt fun _ => Node.step paddedEnv)
      (fun k : Bool => Node.init paddedEnv (if k then 1700000000 else 1700000001))
      [(true, .validateAndAddBlock (offered second) ⟨fun _ => none, none⟩)]
    ∀ b ∈ (net true).blockchain.chain, ∀ c ∈ (net false).blockchain.chain, b.hash ≠ c.hash :=
  nodes_of_two_clocks paddedEnv length_paddedEnv
    (fun k : Bool => if k then 1700000000 else 1700000001) _ (i := true) (j := false) (by decide)
    (by unfold Tells; decide +kernel)

end

end BlockchainMessaging
