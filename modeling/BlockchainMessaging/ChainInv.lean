import BlockchainMessaging.Blockchain

/-!
# The hash-chain invariant

`ChainOk E bc`: the first block names `"0"` as its predecessor, every other block names the hash of
the block before it, and every block is valid. The constructor's genesis block establishes it;
`Block::isValid` and the linkage check of `validateBlock` keep it, whatever block is offered.
-/

namespace BlockchainMessaging
open Machine History

structure ChainOk (E : Env) (bc : Blockchain) : Prop where
  root : bc.chain.head?.map Block.previousHash = some (ascii "0")
  linked : Linked Block.previousHash Block.hash bc.chain
  valid : ∀ block ∈ bc.chain, block.isValid E = true

namespace ChainOk
variable {E : Env} {bc bc' : Blockchain}

theorem of_chain_eq (h : ChainOk E bc) (hc : bc'.chain = bc.chain) : ChainOk E bc' := by
  refine ⟨?_, ?_, ?_⟩ <;> rw [hc]
  exacts [h.root, h.linked, h.valid]

theorem init (E : Env) (now : ℤ) : ChainOk E (Blockchain.init E now) where
  root := rfl
  linked := Linked.singleton _
  valid block hb := by
    obtain rfl := List.mem_singleton.1 hb
    exact Block.isValid_init_nil E now 0 (ascii "0")

theorem pushBlock (h : ChainOk E bc) {block : Block} (hv : bc.validateBlock E block = true) :
    ChainOk E (bc.pushBlock block) := by
  obtain ⟨hvalid, hprev, -⟩ := Blockchain.validateBlock_iff.1 hv
  refine ⟨?_, ?_, ?_⟩ <;> rw [Blockchain.chain_pushBlock]
  · have hne := bc.chain_ne
    cases hc : bc.chain with
    | nil => exact absurd hc hne
    | cons b bs => simpa [hc] using h.root
  · refine h.linked.snoc fun tip htip => ?_
    obtain rfl : bc.getLatestBlock = tip := by
      rw [List.getLast?_eq_some_getLast bc.chain_ne] at htip
      exact Option.some.inj htip
    exact hprev
  · intro b hb
    rcases List.mem_append.1 hb with hb | hb
    · exact h.valid b hb
    · obtain rfl := List.mem_singleton.1 hb
      exact hvalid

theorem step (h : ChainOk E bc) (o : Offer) : ChainOk E (bc.step E o) := by
  have h' : ChainOk E (bc.withPools o) := h.of_chain_eq rfl
  rcases Blockchain.step_cases E bc o with ⟨hacc, heq⟩ | ⟨-, heq⟩ <;> rw [heq]
  exacts [h'.pushBlock hacc.1, h']

theorem run (h : ChainOk E bc) (offers : List Offer) : ChainOk E (run (Blockchain.step E) bc offers) :=
  run_inv (fun _ o h => h.step o) h offers

end ChainOk

/-- The chain after any calls of `addBlock` on a fresh blockchain, and what the next call does to
it. -/
theorem hash_chain_of_run (E : Env) (now : ℤ) (offers : List Offer) :
    let bc := run (Blockchain.step E) (Blockchain.init E now) offers
    bc.chain ≠ [] ∧
    bc.chain.head?.map Block.previousHash = some (ascii "0") ∧
    (∀ (i : ℕ) (hi : i + 1 < bc.chain.length), bc.chain[i + 1].previousHash = bc.chain[i].hash) ∧
    (∀ block ∈ bc.chain, block.hash = block.calculateHash E ∧
      ∀ tx ∈ block.transactions, E.isValid tx = true) ∧
    ∀ o : Offer,
      let r := (bc.withPools o).addBlock E o.block
      ((∃ err, r.1 = .error err) ∧ r.2.chain = bc.chain) ∨
        (r.1 = .ok () ∧ r.2.chain = bc.chain ++ [o.block]) := by
  intro bc
  have h : ChainOk E bc := (ChainOk.init E now).run offers
  refine ⟨bc.chain_ne, h.root, h.linked.getElem, fun b hb => Block.isValid_iff.1 (h.valid b hb), ?_⟩
  intro o r
  rcases Blockchain.addBlock_cases E (bc.withPools o) o.block with ⟨-, heq⟩ | ⟨-, err, heq⟩
  · have hr : r = (.ok (), (bc.withPools o).pushBlock o.block) := heq
    exact .inr ⟨by rw [hr], by rw [hr]; exact Blockchain.chain_pushBlock⟩
  · have hr : r = (.error err, bc.withPools o) := heq
    exact .inl ⟨⟨err, by rw [hr]⟩, by rw [hr]; rfl⟩

/-! ### Positions -/

namespace Blockchain
variable {E : Env} {bc : Blockchain} {block : Block} {o : Offer}

/-- Every block has its position in the chain as its index. -/
def Positioned (bc : Blockchain) : Prop :=
  ∀ (i : ℕ) (hi : i < bc.chain.length), bc.chain[i].index.toNat = i

theorem positioned_pushBlock_iff :
    (bc.pushBlock block).Positioned ↔ bc.Positioned ∧ block.index.toNat = bc.chain.length := by
  unfold Positioned
  simp only [chain_pushBlock, List.length_append, List.length_singleton]
  constructor
  · refine fun h => ⟨fun i hi => ?_, ?_⟩
    · have hi' := h i (by omega)
      rwa [List.getElem_append_left hi] at hi'
    · have hlast := h bc.chain.length (by omega)
      rwa [List.getElem_concat_length rfl] at hlast
  · rintro ⟨h, hlast⟩ i hi
    rcases Nat.lt_or_ge i bc.chain.length with hlt | hge
    · rw [List.getElem_append_left hlt]
      exact h i hlt
    · obtain rfl : i = bc.chain.length := by omega
      rwa [List.getElem_concat_length rfl]

theorem positioned_step_iff (h : bc.Positioned) :
    (bc.step E o).Positioned ↔
      ((bc.withPools o).Accepts E o.block → o.block.index.toNat = bc.chain.length) := by
  have h' : (bc.withPools o).Positioned := h
  rcases step_cases E bc o with ⟨hacc, heq⟩ | ⟨hacc, heq⟩ <;> rw [heq]
  · rw [positioned_pushBlock_iff]
    exact ⟨fun hp _ => hp.2, fun hp => ⟨h', hp hacc⟩⟩
  · exact ⟨fun _ hacc' => absurd hacc' hacc, fun _ => h'⟩

theorem positioned_init (E : Env) (now : ℤ) : (init E now).Positioned := by
  intro i hi
  obtain rfl : i = 0 := Nat.lt_one_iff.1 hi
  rfl

end Blockchain

/-- No check reads the index of a block. The indices are the positions in every state of a run
exactly when every block that `addBlock` accepts has the length of the chain as its index. -/
theorem block_position_iff (E : Env) (now : ℤ) (offers : List Offer) :
    (∀ n, (run (Blockchain.step E) (Blockchain.init E now) (offers.take n)).Positioned) ↔
      Along (Blockchain.step E) (fun bc o =>
        (bc.withPools o).Accepts E o.block → o.block.index.toNat = bc.chain.length)
        (Blockchain.init E now) offers :=
  forall_run_take_iff_along (I := Blockchain.Positioned) (fun _ h => h)
    (fun _ _ h => (Blockchain.positioned_step_iff h).1)
    (fun _ _ h => (Blockchain.positioned_step_iff h).2) (Blockchain.positioned_init E now) offers

/-- The second block of a chain has index 7. -/
theorem index_not_position :
    ¬ ∀ (E : Env) (now : ℤ) (offers : List Offer),
      (run (Blockchain.step E) (Blockchain.init E now) offers).Positioned := by
  intro h
  have h1 := h Sample.env 1700000000
    [{ Sample.offer [] with block := Block.init Sample.env 1700000060 7 [] Sample.genesis.hash }] 1
  revert h1
  decide +kernel

end BlockchainMessaging
