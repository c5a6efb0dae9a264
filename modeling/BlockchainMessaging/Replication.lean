import BlockchainMessaging.LedgerInv
import BlockchainMessaging.NodeRuns
import BlockchainMessaging.Lib.Replica

/-!
# Nodes that follow one chain

Of a blockchain built from its constructor on, the chain is all that counts: it tells the balances,
so it tells which block fits next. That makes the blockchain a log in the sense of `Replica`, and a
node that is offered the blocks of one chain, in whatever order the network brings them, a replica.
-/

namespace BlockchainMessaging
open Machine History Ledger

/-- The money moved by the blocks. -/
def transfersOf (chain : List Block) : List (Transfer Bytes Amount) :=
  chain.flatMap Block.transfers

theorem net_transfersOf_concat (chain : List Block) (block : Block) (a : Bytes) :
    net (transfersOf (chain ++ [block])) a = net (transfersOf chain) a + net block.transfers a := by
  simp [transfersOf, net_append]

/-- The block is valid, names the last block of the chain, and each of its payments is covered by
what the chain has brought its sender. -/
def Fits (E : Env) (chain : List Block) (block : Block) : Prop :=
  block.isValid E = true ∧ block.previousHash = tip Block.hash (ascii "0") chain ∧
    ∀ tx ∈ block.financial, tx.amount ≤ net (transfersOf chain) tx.sender

instance (E : Env) : DecidableRel (Fits E) :=
  fun _ _ => inferInstanceAs (Decidable (_ ∧ _ ∧ ∀ _ ∈ _, _))

/-- The validators of the offer let the block pass. -/
def Offer.convinces (E : Env) (o : Offer) : Bool :=
  ((Blockchain.init E 0).withPools o).reachConsensus E o.block

/-- The offer as the log sees it. -/
def Offer.entry (E : Env) (o : Offer) : Block × Bool :=
  (o.block, o.convinces E)

/-- Balances and threshold are those the chain determines. -/
structure FromChain (bc : Blockchain) : Prop where
  balances : ∀ a, bc.getBalance a = net (transfersOf bc.chain) a
  consensusThreshold : bc.consensusThreshold = 75

namespace FromChain
variable {E : Env} {bc : Blockchain} {o : Offer}

theorem init (E : Env) (now : ℤ) : FromChain (Blockchain.init E now) where
  balances a := by simp [Blockchain.init, Blockchain.getBalance, transfersOf, Block.transfers,
    Block.financial, Block.init]
  consensusThreshold := rfl

theorem withPools (h : FromChain bc) (o : Offer) : FromChain (bc.withPools o) :=
  ⟨h.balances, h.consensusThreshold⟩

theorem pushBlock (h : FromChain bc) (block : Block) : FromChain (bc.pushBlock block) where
  balances a := by
    rw [Blockchain.getBalance_pushBlock, h.balances, Blockchain.chain_pushBlock,
      net_transfersOf_concat]
  consensusThreshold := by
    rw [Blockchain.pushBlock_eq]
    exact h.consensusThreshold

theorem step (h : FromChain bc) (o : Offer) : FromChain (bc.step E o) := by
  rcases Blockchain.step_cases E bc o with ⟨-, heq⟩ | ⟨-, heq⟩ <;> rw [heq]
  exacts [(h.withPools o).pushBlock o.block, h.withPools o]

theorem run (h : FromChain bc) (offers : List Offer) :
    FromChain (run (Blockchain.step E) bc offers) :=
  run_inv (fun _ o h => h.step o) h offers

theorem tip_chain (bc : Blockchain) :
    tip Block.hash (ascii "0") bc.chain = bc.getLatestBlock.hash := by
  rw [tip, List.getLast?_eq_some_getLast bc.chain_ne]
  rfl

theorem validateBlock_iff (h : FromChain bc) (block : Block) :
    bc.validateBlock E block = true ↔ Fits E bc.chain block := by
  rw [Blockchain.validateBlock_iff, Fits, tip_chain]
  refine and_congr_right fun _ => and_congr_right fun _ => ?_
  simp only [Block.mem_financial, and_imp, h.balances]

theorem reachConsensus_eq (h : FromChain bc) (o : Offer) :
    (bc.withPools o).reachConsensus E o.block = o.convinces E := by
  unfold Offer.convinces Blockchain.reachConsensus Blockchain.withPools
  rw [h.consensusThreshold]
  rfl

theorem accepts_iff (h : FromChain bc) (o : Offer) :
    (bc.withPools o).Accepts E o.block ↔ o.convinces E = true ∧ Fits E bc.chain o.block := by
  rw [Blockchain.Accepts, (h.withPools o).validateBlock_iff, h.reachConsensus_eq]
  exact And.comm

theorem addBlock_eq (h : FromChain bc) (o : Offer) :
    ((bc.withPools o).addBlock E o.block).1 =
      if Fits E bc.chain o.block then
        if o.convinces E = true then .ok () else .error "Consensus not reached"
      else .error "Invalid block" := by
  unfold Blockchain.addBlock
  rw [h.reachConsensus_eq]
  by_cases hfits : Fits E bc.chain o.block
  · have hval : (bc.withPools o).validateBlock E o.block = true :=
      ((h.withPools o).validateBlock_iff _).2 hfits
    cases hconv : o.convinces E <;> simp [hval, hfits]
  · have hval : (bc.withPools o).validateBlock E o.block = false := by
      rw [Bool.eq_false_iff]
      exact fun hval => hfits (((h.withPools o).validateBlock_iff _).1 hval)
    simp [hval, hfits]

/-- A call of `addBlock` is a step of the log. -/
theorem chain_step (h : FromChain bc) (o : Offer) :
    (bc.step E o).chain = Replica.take (Fits E) bc.chain (o.entry E) := by
  have hiff := h.accepts_iff (E := E) o
  unfold Replica.take Offer.entry
  rcases Blockchain.step_cases E bc o with ⟨hacc, heq⟩ | ⟨hacc, heq⟩
  · rw [heq, Blockchain.chain_pushBlock, if_pos (hiff.1 hacc)]
    rfl
  · rw [heq, if_neg fun h => hacc (hiff.2 h)]
    rfl

theorem chain_run (h : FromChain bc) (offers : List Offer) :
    (Machine.run (Blockchain.step E) bc offers).chain =
      Machine.run (Replica.take (Fits E)) bc.chain (offers.map (Offer.entry E)) := by
  have hrel : FromChain (Machine.run (Blockchain.step E) bc offers) ∧
      (Machine.run (Blockchain.step E) bc offers).chain =
        Machine.run (Replica.take (Fits E)) bc.chain (offers.map (Offer.entry E)) := by
    refine run_rel (R := fun bc chain => FromChain bc ∧ bc.chain = chain)
      (A := fun o entry => entry = o.entry E) (fun bc chain o entry h hentry => ?_)
      (List.forall₂_map_right_iff.2 (List.forall₂_same.2 fun _ _ => rfl)) ⟨h, rfl⟩
    obtain ⟨h, rfl⟩ := h
    rw [hentry]
    exact ⟨h.step o, h.chain_step o⟩
  exact hrel.2

end FromChain

/-- The chain of a blockchain from its constructor on, after these calls. -/
def builtChain (E : Env) (now : ℤ) (offers : List Offer) : List Block :=
  (run (Blockchain.step E) (Blockchain.init E now) offers).chain

theorem builtChain_eq (E : Env) (now : ℤ) (offers : List Offer) :
    builtChain E now offers =
      run (Replica.take (Fits E)) [Block.init E now 0 [] (ascii "0")]
        (offers.map (Offer.entry E)) :=
  (FromChain.init E now).chain_run offers

/-- The blockchain refines the log. After any calls of `addBlock` the chain is the log that has been
offered the same blocks, the balances are the money its blocks move, and what the next call returns or
throws is told by whether the block fits the log and its validators let it pass. -/
theorem addBlock_refines_log (E : Env) (now : ℤ) (offers : List Offer) :
    let bc := run (Blockchain.step E) (Blockchain.init E now) offers
    bc.chain = run (Replica.take (Fits E)) [Block.init E now 0 [] (ascii "0")]
      (offers.map (Offer.entry E)) ∧
    (∀ a, bc.getBalance a = net (transfersOf bc.chain) a) ∧
    ∀ o : Offer, ((bc.withPools o).addBlock E o.block).1 =
      if Fits E bc.chain o.block then
        if o.convinces E = true then .ok () else .error "Consensus not reached"
      else .error "Invalid block" := by
  intro bc
  have hfrom : FromChain bc := (FromChain.init E now).run offers
  exact ⟨builtChain_eq E now offers, hfrom.balances, hfrom.addBlock_eq⟩

theorem genesis_prefix_builtChain (E : Env) (now : ℤ) (offers : List Offer) :
    [Block.init E now 0 [] (ascii "0")] <+: builtChain E now offers := by
  rw [builtChain_eq]
  exact Replica.prefix_run _ _

/-- Where its hashes tell the blocks apart, a chain is a log that every block has its one place in. -/
theorem leads_builtChain {E : Env} (hE : ∀ s, (E.sha256 s).length = 64) (now : ℤ)
    {offers : List Offer}
    (htells : Tells E (builtChain E now offers) (builtChain E now offers)) :
    Replica.Leads (Fits E) [Block.init E now 0 [] (ascii "0")] (builtChain E now offers) := by
  have hformed : ChainFormed E now (run (Blockchain.step E) (Blockchain.init E now) offers) :=
    ChainFormed.run hE now offers
  refine ⟨fun l b hl hb => ?_, fun l b _ hl hb hfits => ?_⟩
  · rw [builtChain_eq] at hb
    exact Replica.fits_of_prefix_run _ hl hb
  · exact (hformed.rooted hE).prefix_concat (hformed.nodup_hashes hE htells) hl hb hfits.2.1

/-- A network of nodes constructed at one clock, with their calls interleaved in any way, in which
every block offered to a node is one of a chain that some calls of `addBlock` have built. Whatever is
lost, repeated, reordered or refused on the way, every node stands where that chain once stood, with
its balances, so no two nodes contradict each other; and a node is at least as far as the blocks that
it was offered in order and that its validators let pass. -/
theorem replicas_of_chain {κ : Type*} [DecidableEq κ] (E : Env)
    (hE : ∀ s, (E.sha256 s).length = 64) (now : ℤ) (offers : List Offer)
    (htells : Tells E (builtChain E now offers) (builtChain E now offers))
    (schedule : List (κ × NodeCall))
    (hschedule : ∀ e ∈ schedule, ∀ o ∈ e.2.offer, o.block ∈ builtChain E now offers) :
    let net := run (stepAt fun _ => Node.step E) (fun _ => Node.init E now) schedule
    (∀ k, ∃ n, (net k).blockchain.chain = builtChain E now (offers.take n) ∧
      ∀ a, (net k).blockchain.getBalance a =
        (run (Blockchain.step E) (Blockchain.init E now) (offers.take n)).getBalance a) ∧
    (∀ j k, (net j).blockchain.chain <+: (net k).blockchain.chain ∨
      (net k).blockchain.chain <+: (net j).blockchain.chain) ∧
    ∀ k blocks, Block.init E now 0 [] (ascii "0") :: blocks <+: builtChain E now offers →
      (blocks.map fun b => (b, true)).Sublist
        (((inputsOf k schedule).filterMap NodeCall.offer).map (Offer.entry E)) →
      Block.init E now 0 [] (ascii "0") :: blocks <+: (net k).blockchain.chain := by
  intro net
  have hleads := leads_builtChain hE now htells
  have hseed := genesis_prefix_builtChain E now offers
  have hnode : ∀ k, (net k).blockchain = run (Blockchain.step E) (Blockchain.init E now)
      ((inputsOf k schedule).filterMap NodeCall.offer) := by
    intro k
    rw [show net k = _ from run_stepAt _ _ schedule k, Node.blockchain_run]
    rfl
  have hchain : ∀ k, (net k).blockchain.chain =
      run (Replica.take (Fits E)) [Block.init E now 0 [] (ascii "0")]
        (((inputsOf k schedule).filterMap NodeCall.offer).map (Offer.entry E)) := by
    intro k
    rw [hnode]
    exact (FromChain.init E now).chain_run _
  have hoffered : ∀ k, ∀ e ∈ ((inputsOf k schedule).filterMap NodeCall.offer).map (Offer.entry E),
      e.1 ∈ builtChain E now offers := by
    intro k e he
    obtain ⟨o, ho, rfl⟩ := List.mem_map.1 he
    obtain ⟨call, hcall, hoffer⟩ := List.mem_filterMap.1 ho
    exact hschedule (k, call) (mem_inputsOf.1 hcall) o hoffer
  have hbelow : ∀ k, (net k).blockchain.chain <+: builtChain E now offers := by
    intro k
    rw [hchain]
    exact hleads.run_prefix hseed (hoffered k)
  refine ⟨fun k => ?_, fun j k => List.prefix_or_prefix_of_prefix (hbelow j) (hbelow k),
    fun k blocks hblocks hsub => ?_⟩
  · have hbegin : [Block.init E now 0 [] (ascii "0")] <+: (net k).blockchain.chain := by
      rw [hchain]
      exact Replica.prefix_run _ _
    have hbuilt := hbelow k
    rw [builtChain_eq] at hbuilt
    obtain ⟨n, hn⟩ := Replica.exists_run_take_of_prefix hbegin hbuilt
    rw [← List.map_take, ← builtChain_eq] at hn
    refine ⟨n, hn, fun a => ?_⟩
    have hfrom : FromChain (net k).blockchain := by
      rw [hnode]
      exact (FromChain.init E now).run _
    rw [hfrom.balances, ((FromChain.init E now).run (offers.take n)).balances, hn]
    rfl
  · rw [hchain]
    exact hleads.append_prefix_run List.prefix_rfl (hoffered k) hblocks hsub

section
open Sample

/-- The third block reaches a node before the second and is refused, then the second one twice, and
then the third again. -/
theorem replicas_of_chain_third :
    let net := run (stepAt fun _ => Node.step paddedEnv)
      (fun _ : Bool => Node.init paddedEnv 1700000000)
      ([third 1700000120, second, second, third 1700000120].map fun b =>
        (true, .validateAndAddBlock (offered b) ⟨fun _ => none, none⟩))
    first :: [second, third 1700000120] <+: (net true).blockchain.chain := by
  refine (replicas_of_chain paddedEnv length_paddedEnv 1700000000
    [offered second, offered (third 1700000120)] (by unfold Tells; decide +kernel)
    ([third 1700000120, second, second, third 1700000120].map fun b =>
      (true, .validateAndAddBlock (offered b) ⟨fun _ => none, none⟩)) ?_).2.2 true
    [second, third 1700000120] (by decide +kernel) (by decide +kernel)
  intro e he o ho
  obtain ⟨b, hb, rfl⟩ := List.mem_map.1 he
  obtain rfl := Option.some.inj ho
  have hbuilt : ∀ b ∈ [third 1700000120, second, second, third 1700000120],
      b ∈ builtChain paddedEnv 1700000000 [offered second, offered (third 1700000120)] := by
    decide +kernel
  exact hbuilt b hb

end
end BlockchainMessaging
