import BlockchainMessaging.ReachConsensus
import BlockchainMessaging.Replication

/-!
# What a chain can hold

A block that the constructor makes behind the latest one, as the tests do it, is taken whenever its
transactions pass. So the chain can be made to hold any transactions that are valid one by one and
paid for by the blocks before theirs, and no others. Nothing is paid for at first: there is no money
until somebody pays a negative amount.
-/

namespace BlockchainMessaging
open Machine History Ledger

/-- The money moved by these transactions, one list a block. -/
def transfersIn (batches : List (List Transaction)) : List (Transfer Bytes Amount) :=
  batches.flatMap fun txs => (txs.filter fun tx => tx.type = .financial).map Transaction.transfer

/-- The transactions are valid, and the payments among them covered by the batches before. -/
def Payable (E : Env) (batches : List (List Transaction)) (txs : List Transaction) : Prop :=
  ∀ tx ∈ txs, E.isValid tx = true ∧
    (tx.type = .financial → tx.amount ≤ net (transfersIn batches) tx.sender)

/-- The block that goes behind the latest one. -/
def Blockchain.nextBlock (E : Env) (bc : Blockchain) (now : ℤ) (txs : List Transaction) : Block :=
  Block.init E now (UInt32.ofNat bc.chain.length) txs bc.getLatestBlock.hash

section
variable {E : Env} {chain : List Block} {block : Block} {bc : Blockchain} {txs : List Transaction}

theorem transfersOf_eq (chain : List Block) :
    transfersOf chain = transfersIn (chain.map Block.transactions) := by
  rw [transfersIn, List.flatMap_map]
  rfl

theorem fits_iff_payable :
    Fits E chain block ↔ block.hash = block.calculateHash E ∧
      block.previousHash = tip Block.hash (ascii "0") chain ∧
      Payable E (chain.map Block.transactions) block.transactions := by
  rw [Fits, Block.isValid_iff, transfersOf_eq]
  simp only [Payable, Block.mem_financial, and_imp]
  constructor
  · rintro ⟨⟨hhash, hvalid⟩, hprev, hfunds⟩
    exact ⟨hhash, hprev, fun tx htx => ⟨hvalid tx htx, hfunds tx htx⟩⟩
  · rintro ⟨hhash, hprev, hpay⟩
    exact ⟨⟨hhash, fun tx htx => (hpay tx htx).1⟩, hprev, fun tx htx => (hpay tx htx).2⟩

/-- The hybrid validators vote for every valid block. -/
theorem convinces_of_hybrid {v : Validator} (hv : v.type = .hybrid)
    (hvalid : block.isValid E = true) : Offer.convinces E ⟨block, [v], [v]⟩ = true := by
  have hpool : ((Blockchain.init E 0).withPools ⟨block, [v], [v]⟩).pool block = [v] := by
    unfold Blockchain.pool
    split <;> rfl
  have hvote : v.validateBlock E block = true :=
    Validator.validateBlock_iff.2 ⟨hvalid, fun _ => by simp [hv]⟩
  rw [Offer.convinces, Blockchain.reachConsensus_eq_reaches, hpool, Quorum.reaches_percentage]
  simp [hvote, Blockchain.withPools, Blockchain.init]

/-- Behind any chain, the constructor's block is taken exactly when its transactions can be paid. -/
theorem fits_nextBlock_iff (now : ℤ) :
    Fits E bc.chain (bc.nextBlock E now txs) ↔ Payable E (bc.chain.map Block.transactions) txs := by
  rw [fits_iff_payable, FromChain.tip_chain]
  exact ⟨fun h => h.2.2, fun h => ⟨rfl, rfl, h⟩⟩

end

/-- Payments to the group come from the group, and nobody in it pays a negative amount. -/
def Closed (S : Set Bytes) (chain : List Block) : Prop :=
  ∀ block ∈ chain, ∀ tx ∈ block.financial, tx.sender ∈ S ∨ tx.recipient ∈ S →
    tx.sender ∈ S ∧ 0 ≤ tx.amount

/-- No money goes to the group or comes from it. -/
def Idle (S : Set Bytes) (chain : List Block) : Prop :=
  ∀ block ∈ chain, ∀ tx ∈ block.financial, tx.sender ∈ S ∨ tx.recipient ∈ S → tx.amount = 0

namespace Idle
variable {E : Env} {S : Set Bytes} {chain : List Block} {block : Block} {a : Bytes}

theorem net_eq_zero (h : Idle S chain) (ha : a ∈ S) : net (transfersOf chain) a = 0 := by
  refine List.sum_eq_zero fun x hx => ?_
  obtain ⟨t, ht, rfl⟩ := List.mem_map.1 hx
  obtain ⟨block, hblock, ht⟩ := List.mem_flatMap.1 ht
  obtain ⟨tx, htx, rfl⟩ := List.mem_map.1 ht
  show (if tx.recipient = a then tx.amount else 0) - (if tx.sender = a then tx.amount else 0) = 0
  by_cases hmem : tx.sender ∈ S ∨ tx.recipient ∈ S
  · simp [h block hblock tx htx hmem]
  · have hsender : tx.sender ≠ a := by
      rintro rfl
      exact hmem (.inl ha)
    have hrecipient : tx.recipient ≠ a := by
      rintro rfl
      exact hmem (.inr ha)
    rw [if_neg hsender, if_neg hrecipient, sub_zero]

theorem amount_nonpos (h : Idle S chain) (hfits : Fits E chain block) {tx : Transaction}
    (htx : tx ∈ block.financial) (hs : tx.sender ∈ S) : tx.amount ≤ 0 :=
  (hfits.2.2 tx htx).trans_eq (h.net_eq_zero hs)

theorem concat (h : Idle S chain) (hfits : Fits E chain block) (hclosed : Closed S [block]) :
    Idle S (chain ++ [block]) := by
  intro b hb tx htx hmem
  rcases List.mem_append.1 hb with hb | hb
  · exact h b hb tx htx hmem
  · obtain ⟨hs, hpos⟩ := hclosed b hb tx htx hmem
    obtain rfl := List.mem_singleton.1 hb
    exact le_antisymm (h.amount_nonpos hfits htx hs) hpos

theorem of_closed (now : ℤ) (offers : List Offer) (h : Closed S (builtChain E now offers)) :
    Idle S (builtChain E now offers) := by
  rw [builtChain_eq] at h ⊢
  refine run_inv (I := fun chain => Closed S chain → Idle S chain) (fun chain e ih hclosed => ?_)
    (fun _ b hb tx htx => ?_) _ h
  · rcases Replica.take_cases (Fits E) chain e with heq | ⟨hfits, heq⟩ <;> rw [heq] at hclosed ⊢
    · exact ih hclosed
    · have hchain : Closed S chain := fun b hb => hclosed b (List.mem_append_left _ hb)
      exact (ih hchain).concat hfits fun b hb => hclosed b (List.mem_append_right _ hb)
  · obtain rfl := List.mem_singleton.1 hb
    cases htx

end Idle

/-- On a fresh blockchain, a group that gets nothing from outside and pays no negative amounts has
nothing, pays nothing, and is refused the first payment it tries. With everybody in the group: as
long as no negative amount is paid, there is no money at all. -/
theorem penniless_of_closed (E : Env) (now : ℤ) (offers : List Offer) (S : Set Bytes)
    (hclosed : Closed S (builtChain E now offers)) :
    let bc := run (Blockchain.step E) (Blockchain.init E now) offers
    (∀ a ∈ S, bc.getBalance a = 0) ∧
    (∀ block ∈ bc.chain, ∀ tx ∈ block.financial, tx.sender ∈ S → tx.amount = 0) ∧
    ∀ o : Offer, (∃ tx ∈ o.block.financial, tx.sender ∈ S ∧ 0 < tx.amount) →
      (bc.withPools o).addBlock E o.block = (.error "Invalid block", bc.withPools o) := by
  intro bc
  have hidle : Idle S bc.chain := Idle.of_closed now offers hclosed
  have hfrom : FromChain bc := (FromChain.init E now).run offers
  refine ⟨fun a ha => ?_, fun block hb tx htx hs => hidle block hb tx htx (.inl hs), ?_⟩
  · rw [hfrom.balances, hidle.net_eq_zero ha]
  · rintro o ⟨tx, htx, hs, hpos⟩
    have hinvalid : (bc.withPools o).validateBlock E o.block = false := by
      rw [Bool.eq_false_iff, ne_eq, (hfrom.withPools o).validateBlock_iff]
      exact fun hfits => absurd (hidle.amount_nonpos hfits htx hs) (not_le.2 hpos)
    rw [Blockchain.addBlock, hinvalid]
    rfl

section
open Sample

/-- `alice` pays `bob` nothing, which is taken, and then tries to pay 5. -/
theorem penniless_of_closed_alice :
    let bc := run (Blockchain.step env) (Blockchain.init env 1700000000) [offer [payment "bob" 0]]
    (bc.withPools (offer [payment "bob" 5])).addBlock env (block [payment "bob" 5]) =
      (.error "Invalid block", bc.withPools (offer [payment "bob" 5])) := by
  have hamounts : ∀ b ∈ builtChain env 1700000000 [offer [payment "bob" 0]],
      ∀ tx ∈ b.financial, 0 ≤ tx.amount := by
    decide +kernel
  exact (penniless_of_closed env 1700000000 [offer [payment "bob" 0]] Set.univ
    (fun b hb tx htx _ => ⟨trivial, hamounts b hb tx htx⟩)).2.2 (offer [payment "bob" 5])
    ⟨payment "bob" 5, by decide +kernel, trivial, by decide +kernel⟩

end
end BlockchainMessaging
