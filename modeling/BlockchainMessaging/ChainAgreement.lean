import BlockchainMessaging.BlockDigest
import BlockchainMessaging.ChainInv
import BlockchainMessaging.Lib.HashChain

/-!
# What two blockchains with a common hash agree on

Two runs of `addBlock`, each from its own constructor, on any blocks. Where a hash stands in both
chains, `Rooted.agree_or_split` goes back from there: the chains agree in what the digest tells, or
at some place two strings have one digest, or the same string is read in two ways. What ends the
chains at the same place is that `"0"` is nobody's hash. The digest tells the parent of a block in
any case, and the transactions once their hashes have 64 characters.
-/

namespace BlockchainMessaging
open Machine History

namespace Block

/-- The two numbers in front of the digested string. -/
def header (block : Block) : Bytes :=
  decimal block.index.toNat ++ decimalInt block.timestamp

structure SameParent (b c : Block) : Prop where
  header : b.header = c.header
  previousHash : b.previousHash = c.previousHash

/-- The blocks agree in all the digest covers. -/
structure SameContent (b c : Block) : Prop where
  header : b.header = c.header
  previousHash : b.previousHash = c.previousHash
  transactions : b.transactions.map Transaction.getHash = c.transactions.map Transaction.getHash
  nonce : b.nonce = c.nonce

/-- What the constructor of `Blockchain` makes of a block, and no other code. -/
structure IsGenesis (block : Block) : Prop where
  index : block.index = 0
  previousHash : block.previousHash = ascii "0"
  transactions : block.transactions = []
  nonce : block.nonce = 0

/-- The genesis block, or one that names a digest. -/
def Formed (block : Block) : Prop :=
  block.IsGenesis ∨ block.previousHash.length = 64

/-- The hashes of the transactions have the length of a digest. -/
def Hashed (block : Block) : Prop :=
  ∀ tx ∈ block.transactions, tx.getHash.length = 64

variable {b c : Block}

/-- What follows the two numbers in the digested string. -/
def body (block : Block) : Bytes :=
  block.previousHash ++ ((block.transactions.map Transaction.getHash).flatten ++
    decimal block.nonce.toNat)

theorem body_eq (block : Block) : block.body = block.hashes.flatten ++ decimal block.nonce.toNat := by
  simp [body, hashes]

theorem preimage_eq_header (block : Block) : block.preimage = block.header ++ block.body := by
  rw [body_eq]
  exact block.preimage_eq

theorem length_body_of_isGenesis (h : b.IsGenesis) : b.body.length = 2 := by
  rw [body, h.previousHash, h.transactions, h.nonce]
  rfl

theorem length_body_of_previousHash (h : b.previousHash.length = 64) : 64 < b.body.length := by
  have hpos : 0 < (decimal b.nonce.toNat).length := decimalDigits.length_numeral_pos _
  rw [body, List.length_append, List.length_append]
  omega

/-- Where the two numbers end leaves open what they are, and nothing of the parent. -/
theorem sameParent_of_preimage_eq (hb : b.Formed) (hc : c.Formed) (hpre : b.preimage = c.preimage)
    (hwidth : b.header.length = c.header.length) : SameParent b c := by
  rw [preimage_eq_header, preimage_eq_header] at hpre
  obtain ⟨hheader, hbody⟩ := List.append_inj hpre hwidth
  have hlen := congrArg List.length hbody
  refine ⟨hheader, ?_⟩
  rcases hb with hb | hb <;> rcases hc with hc | hc
  · rw [hb.previousHash, hc.previousHash]
  · have h2 := length_body_of_isGenesis hb
    have h64 := length_body_of_previousHash hc
    omega
  · have h2 := length_body_of_isGenesis hc
    have h64 := length_body_of_previousHash hb
    omega
  · exact List.append_inj_left hbody (hb.trans hc.symm)

theorem sameContent_of_preimage_eq (hb : b.Formed) (hc : c.Formed) (hb' : b.Hashed) (hc' : c.Hashed)
    (hpre : b.preimage = c.preimage) (hwidth : b.header.length = c.header.length) :
    SameContent b c := by
  have hparent := sameParent_of_preimage_eq hb hc hpre hwidth
  have hgenesis : ∀ {a : Block}, a.IsGenesis → a.previousHash.length = 1 := by
    intro a ha
    rw [ha.previousHash]
    rfl
  have hlen := congrArg List.length hparent.previousHash
  rcases hb with hb | hb <;> rcases hc with hc | hc
  · exact ⟨hparent.header, hparent.previousHash, by rw [hb.transactions, hc.transactions],
      hb.nonce.trans hc.nonce.symm⟩
  · have h1 := hgenesis hb
    omega
  · have h1 := hgenesis hc
    omega
  · rw [preimage_eq_header, preimage_eq_header] at hpre
    have hbody := List.append_inj_right hpre hwidth
    rw [body_eq, body_eq] at hbody
    obtain ⟨hhashes, hnonce⟩ :=
      row_inj (length_of_mem_hashes hb hb') (length_of_mem_hashes hc hc') hbody
    exact ⟨hparent.header, hparent.previousHash, (List.cons.inj hhashes).2, hnonce⟩

theorem isGenesis_init (E : Env) (now : ℤ) : (Block.init E now 0 [] (ascii "0")).IsGenesis :=
  ⟨rfl, rfl, rfl, rfl⟩

end Block

/-- The chain began with the genesis block of the clock `now`, and every other block names a digest. -/
structure ChainFormed (E : Env) (now : ℤ) (bc : Blockchain) : Prop where
  ok : ChainOk E bc
  genesis : bc.chain.head? = some (Block.init E now 0 [] (ascii "0"))
  formed : ∀ block ∈ bc.chain, block.Formed

/-- `R` is what the digest tells of a block of the one chain and one of the other. -/
structure Told (R : Block → Block → Prop) (chain₁ chain₂ : List Block) : Prop where
  previousHash : ∀ b c, R b c → b.previousHash = c.previousHash
  of_preimage : ∀ b ∈ chain₁, ∀ c ∈ chain₂, b.preimage = c.preimage →
    b.header.length = c.header.length → R b c

namespace ChainFormed
variable {E : Env} {now : ℤ} {bc bc' : Blockchain}

theorem of_chain_eq (h : ChainFormed E now bc) (hc : bc'.chain = bc.chain) :
    ChainFormed E now bc' := by
  refine ⟨h.ok.of_chain_eq hc, ?_, ?_⟩ <;> rw [hc]
  exacts [h.genesis, h.formed]

theorem init (E : Env) (now : ℤ) : ChainFormed E now (Blockchain.init E now) where
  ok := ChainOk.init E now
  genesis := rfl
  formed block hb := by
    obtain rfl := List.mem_singleton.1 hb
    exact .inl (Block.isGenesis_init E now)

theorem length_latest_hash (hE : ∀ s, (E.sha256 s).length = 64) (h : ChainOk E bc) :
    bc.getLatestBlock.hash.length = 64 := by
  have hvalid := h.valid _ (List.getLast_mem bc.chain_ne)
  rw [Blockchain.getLatestBlock, (Block.isValid_iff.1 hvalid).1]
  exact hE _

theorem pushBlock (hE : ∀ s, (E.sha256 s).length = 64) (h : ChainFormed E now bc) {block : Block}
    (hv : bc.validateBlock E block = true) : ChainFormed E now (bc.pushBlock block) := by
  have hprev : block.previousHash = bc.getLatestBlock.hash := (Blockchain.validateBlock_iff.1 hv).2.1
  refine ⟨h.ok.pushBlock hv, ?_, fun b hb => ?_⟩
  · rw [Blockchain.chain_pushBlock, List.head?_append, h.genesis]
    rfl
  · rw [Blockchain.chain_pushBlock] at hb
    rcases List.mem_append.1 hb with hb | hb
    · exact h.formed b hb
    · obtain rfl := List.mem_singleton.1 hb
      exact .inr (hprev ▸ length_latest_hash hE h.ok)

theorem step (hE : ∀ s, (E.sha256 s).length = 64) (h : ChainFormed E now bc) (o : Offer) :
    ChainFormed E now (bc.step E o) := by
  have h' : ChainFormed E now (bc.withPools o) := h.of_chain_eq rfl
  rcases Blockchain.step_cases E bc o with ⟨hacc, heq⟩ | ⟨-, heq⟩ <;> rw [heq]
  exacts [h'.pushBlock hE hacc.1, h']

theorem run (hE : ∀ s, (E.sha256 s).length = 64) (now : ℤ) (offers : List Offer) :
    ChainFormed E now (run (Blockchain.step E) (Blockchain.init E now) offers) :=
  run_inv (fun _ o h => h.step hE o) (init E now) offers

theorem hash_eq (h : ChainFormed E now bc) {block : Block} (hb : block ∈ bc.chain) :
    block.hash = E.sha256 block.preimage :=
  (Block.isValid_iff.1 (h.ok.valid block hb)).1

theorem rooted (hE : ∀ s, (E.sha256 s).length = 64) (h : ChainFormed E now bc) :
    Rooted Block.previousHash Block.hash (ascii "0") bc.chain where
  head b hb := by
    have hroot := h.ok.root
    rw [Option.mem_def.1 hb] at hroot
    exact Option.some.inj hroot
  linked := h.ok.linked
  ne_root b hb heq := by
    have hlen := congrArg List.length heq
    rw [h.hash_eq hb, hE] at hlen
    exact absurd hlen (by decide)

end ChainFormed

/-- The blocks of the chain have been taken from offers of hashed transactions. -/
theorem Blockchain.hashed_run (E : Env) (now : ℤ) {offers : List Offer}
    (ho : ∀ o ∈ offers, o.block.Hashed) :
    ∀ b ∈ (run (Blockchain.step E) (Blockchain.init E now) offers).chain, b.Hashed := by
  refine run_inv_along (I := fun bc : Blockchain => ∀ b ∈ bc.chain, b.Hashed)
    (P := fun _ o => o.block.Hashed) (fun bc o h ho => ?_) (fun b hb => ?_)
    (along_of_forall_mem (fun o hmem _ => ho o hmem) _)
  · rcases Blockchain.step_cases E bc o with ⟨-, heq⟩ | ⟨-, heq⟩ <;> rw [heq]
    · rw [Blockchain.chain_pushBlock]
      exact List.forall_mem_append.2 ⟨h, List.forall_mem_singleton.2 ho⟩
    · exact h
  · rw [List.mem_singleton.1 hb]
    exact fun tx htx => absurd htx List.not_mem_nil

/-- From a pair of blocks on the chains agree, and there one digest stands for two strings, or one
string for two headers. -/
def Diverge (R : Block → Block → Prop) (E : Env) (chain₁ chain₂ : List Block) : Prop :=
  ∃ l₁ b l₂ m₁ c m₂, chain₁ = l₁ ++ b :: l₂ ∧ chain₂ = m₁ ++ c :: m₂ ∧
    List.Forall₂ R l₂ m₂ ∧ E.sha256 b.preimage = E.sha256 c.preimage ∧
    (b.preimage ≠ c.preimage ∨ b.header.length ≠ c.header.length)

theorem Diverge.exists_mem {R : Block → Block → Prop} {E : Env} {chain₁ chain₂ : List Block}
    (h : Diverge R E chain₁ chain₂) :
    ∃ b ∈ chain₁, ∃ c ∈ chain₂, E.sha256 b.preimage = E.sha256 c.preimage ∧
      (b.preimage ≠ c.preimage ∨ b.header.length ≠ c.header.length) := by
  obtain ⟨l₁, b, l₂, m₁, c, m₂, rfl, rfl, -, hcollide⟩ := h
  exact ⟨b, by simp, c, by simp, hcollide⟩

namespace ChainFormed
variable {R : Block → Block → Prop} {E : Env} {now₁ now₂ : ℤ} {bc₁ bc₂ : Blockchain}
  {l₁ l₂ m₁ m₂ : List Block} {b c : Block}

theorem told_sameParent (h₁ : ChainFormed E now₁ bc₁) (h₂ : ChainFormed E now₂ bc₂) :
    Told Block.SameParent bc₁.chain bc₂.chain where
  previousHash _ _ h := h.previousHash
  of_preimage b hb c hc := Block.sameParent_of_preimage_eq (h₁.formed b hb) (h₂.formed c hc)

theorem told_sameContent (h₁ : ChainFormed E now₁ bc₁) (h₂ : ChainFormed E now₂ bc₂)
    (hhashed₁ : ∀ b ∈ bc₁.chain, b.Hashed) (hhashed₂ : ∀ c ∈ bc₂.chain, c.Hashed) :
    Told Block.SameContent bc₁.chain bc₂.chain where
  previousHash _ _ h := h.previousHash
  of_preimage b hb c hc := Block.sameContent_of_preimage_eq (h₁.formed b hb) (h₂.formed c hc)
    (hhashed₁ b hb) (hhashed₂ c hc)

theorem diverge_of_splitAt (h₁ : ChainFormed E now₁ bc₁) (h₂ : ChainFormed E now₂ bc₂)
    (htold : Told R bc₁.chain bc₂.chain) (hl : ∀ b ∈ l₁, b ∈ bc₁.chain)
    (hm : ∀ c ∈ l₂, c ∈ bc₂.chain) (h : SplitAt Block.hash R l₁ l₂) : Diverge R E l₁ l₂ := by
  obtain ⟨s₁, b, t₁, s₂, c, t₂, rfl, rfl, hsuf, hhash, hne⟩ := h
  have hb : b ∈ bc₁.chain := hl b (by simp)
  have hc : c ∈ bc₂.chain := hm c (by simp)
  refine ⟨s₁, b, t₁, s₂, c, t₂, rfl, rfl, hsuf, ?_, ?_⟩
  · rw [← h₁.hash_eq hb, hhash, h₂.hash_eq hc]
  · by_contra hboth
    rw [not_or, not_not, not_not] at hboth
    exact hne (htold.of_preimage b hb c hc hboth.1 hboth.2)

/-- One hash in two chains: all before it agrees. -/
theorem match_or_diverge (hE : ∀ s, (E.sha256 s).length = 64) (h₁ : ChainFormed E now₁ bc₁)
    (h₂ : ChainFormed E now₂ bc₂) (htold : Told R bc₁.chain bc₂.chain)
    (hc₁ : bc₁.chain = l₁ ++ b :: m₁) (hc₂ : bc₂.chain = l₂ ++ c :: m₂) (hhash : b.hash = c.hash) :
    List.Forall₂ R (l₁ ++ [b]) (l₂ ++ [c]) ∨ Diverge R E (l₁ ++ [b]) (l₂ ++ [c]) := by
  have happ₁ : bc₁.chain = l₁ ++ [b] ++ m₁ := by simp [hc₁]
  have happ₂ : bc₂.chain = l₂ ++ [c] ++ m₂ := by simp [hc₂]
  have hr₁ := h₁.rooted hE
  have hr₂ := h₂.rooted hE
  rw [happ₁] at hr₁
  rw [happ₂] at hr₂
  rcases Rooted.agree_or_split htold.previousHash hr₁.of_append hr₂.of_append (by simpa using hhash) with
    hall | hsplit
  · exact .inl hall
  · refine .inr (diverge_of_splitAt h₁ h₂ htold ?_ ?_ hsplit)
    · intro a ha
      rw [happ₁]
      exact List.mem_append_left _ ha
    · intro a ha
      rw [happ₂]
      exact List.mem_append_left _ ha

/-- The genesis blocks agree only if one clock made them. -/
theorem now_eq_of_forall₂ (h₁ : ChainFormed E now₁ bc₁) (h₂ : ChainFormed E now₂ bc₂)
    (hc₁ : bc₁.chain = l₁ ++ b :: m₁) (hc₂ : bc₂.chain = l₂ ++ c :: m₂)
    (h : List.Forall₂ Block.SameParent (l₁ ++ [b]) (l₂ ++ [c])) : now₁ = now₂ := by
  have hhead : ∀ {bc : Blockchain} {now : ℤ} {l m : List Block} {a : Block},
      ChainFormed E now bc → bc.chain = l ++ a :: m →
        (l ++ [a]).head? = some (Block.init E now 0 [] (ascii "0")) := by
    intro bc now l m a hf hc
    have hg := hf.genesis
    rw [hc] at hg
    cases l <;> exact hg
  obtain ⟨s, hs⟩ := List.head?_eq_some_iff.1 (hhead h₁ hc₁)
  obtain ⟨t, ht⟩ := List.head?_eq_some_iff.1 (hhead h₂ hc₂)
  rw [hs, ht, List.forall₂_cons] at h
  exact decimalInt_injective (List.append_cancel_left h.1.header)

end ChainFormed

/-- The matching property of two blockchains, each after any calls of `addBlock` on blocks of hashed
transactions: where one hash stands in both, the chains up to there have the same length and agree
block by block in headers, previous hashes, transaction hashes and nonces, unless digests or headers
collide. -/
theorem chains_match_or_diverge (E : Env) (hE : ∀ s, (E.sha256 s).length = 64) (now₁ now₂ : ℤ)
    (offers₁ offers₂ : List Offer) (ho₁ : ∀ o ∈ offers₁, o.block.Hashed)
    (ho₂ : ∀ o ∈ offers₂, o.block.Hashed) {l₁ l₂ m₁ m₂ : List Block} {b c : Block}
    (hc₁ : (run (Blockchain.step E) (Blockchain.init E now₁) offers₁).chain = l₁ ++ b :: m₁)
    (hc₂ : (run (Blockchain.step E) (Blockchain.init E now₂) offers₂).chain = l₂ ++ c :: m₂)
    (hhash : b.hash = c.hash) :
    List.Forall₂ Block.SameContent (l₁ ++ [b]) (l₂ ++ [c]) ∨
      Diverge Block.SameContent E (l₁ ++ [b]) (l₂ ++ [c]) := by
  have h₁ := ChainFormed.run hE now₁ offers₁
  have h₂ := ChainFormed.run hE now₂ offers₂
  have htold := h₁.told_sameContent h₂ (Blockchain.hashed_run E now₁ ho₁)
    (Blockchain.hashed_run E now₂ ho₂)
  exact ChainFormed.match_or_diverge hE h₁ h₂ htold hc₁ hc₂ hhash

section
open Sample

/-- A digest of 64 characters that tells short strings apart. -/
def Sample.paddedEnv : Env :=
  { sha256 := fun s => (s ++ List.replicate 64 48).take 64, isValid := fun _ => true }

theorem Sample.length_paddedEnv (s : Bytes) : (paddedEnv.sha256 s).length = 64 := by
  simp [paddedEnv]

def Sample.first : Block :=
  Block.init paddedEnv 1700000000 0 [] (ascii "0")

/-- Two payments of nothing, and less. -/
def Sample.second : Block :=
  Block.init paddedEnv 1700000060 1 [hashed 49 0, hashed 50 (-1)] first.hash

/-- `second` with other amounts, which leaves its hash as it is. -/
def Sample.twin : Block :=
  { second with transactions := [hashed 49 (-2), hashed 50 (-3)] }

def Sample.third (now : ℤ) : Block :=
  Block.init paddedEnv now 2 [hashed 51 0] second.hash

theorem Sample.hashed_of_mem {offers : List Offer}
    (h : (offers.flatMap fun o => o.block.transactions).all fun tx => tx.getHash.length = 64) :
    ∀ o ∈ offers, o.block.Hashed := by
  intro o ho tx htx
  simpa using List.all_eq_true.1 h tx (List.mem_flatMap.2 ⟨o, ho, htx⟩)

/-- The second blocks of two blockchains have one hash and other amounts, the third ones differ. -/
theorem chains_match_or_diverge_twin :
    List.Forall₂ Block.SameContent ([first] ++ [second]) ([first] ++ [twin]) ∨
      Diverge Block.SameContent paddedEnv ([first] ++ [second]) ([first] ++ [twin]) := by
  have hc₁ : (run (Blockchain.step paddedEnv) (Blockchain.init paddedEnv 1700000000)
      [offered second, offered (third 1700000120)]).chain =
        [first] ++ second :: [third 1700000120] := by
    decide +kernel
  have hc₂ : (run (Blockchain.step paddedEnv) (Blockchain.init paddedEnv 1700000000)
      [offered twin, offered (third 1700000121)]).chain = [first] ++ twin :: [third 1700000121] := by
    decide +kernel
  exact chains_match_or_diverge paddedEnv length_paddedEnv 1700000000 1700000000 _ _
    (hashed_of_mem (by decide +kernel)) (hashed_of_mem (by decide +kernel)) hc₁ hc₂ rfl

end

/-! ### One chain -/

/-- Among these blocks a digest belongs to one string, and a string to one header. -/
def Tells (E : Env) (chain₁ chain₂ : List Block) : Prop :=
  ∀ b ∈ chain₁, ∀ c ∈ chain₂, E.sha256 b.preimage = E.sha256 c.preimage →
    b.preimage = c.preimage ∧ b.header.length = c.header.length

theorem Tells.symm {E : Env} {chain₁ chain₂ : List Block} (h : Tells E chain₁ chain₂) :
    Tells E chain₂ chain₁ := by
  intro c hc b hb hsha
  obtain ⟨hpre, hwidth⟩ := h b hb c hc hsha.symm
  exact ⟨hpre.symm, hwidth.symm⟩

theorem Tells.not_diverge {R : Block → Block → Prop} {E : Env} {chain₁ chain₂ l₁ l₂ : List Block}
    (h : Tells E chain₁ chain₂) (hl : ∀ b ∈ l₁, b ∈ chain₁) (hm : ∀ c ∈ l₂, c ∈ chain₂) :
    ¬ Diverge R E l₁ l₂ := by
  intro hdiv
  obtain ⟨b, hb, c, hc, hsha, hcollide⟩ := hdiv.exists_mem
  obtain ⟨hpre, hwidth⟩ := h b (hl b hb) c (hm c hc) hsha
  rcases hcollide with hne | hne
  exacts [hne hpre, hne hwidth]

namespace ChainFormed
variable {R : Block → Block → Prop} {E : Env} {now now₁ now₂ : ℤ} {bc bc₁ bc₂ : Blockchain}
  {b c : Block} {j k : ℕ}

/-- Up to where one hash stands in both, the chains agree. -/
theorem match_at (hE : ∀ s, (E.sha256 s).length = 64) (h₁ : ChainFormed E now₁ bc₁)
    (h₂ : ChainFormed E now₂ bc₂) (htold : Told R bc₁.chain bc₂.chain)
    (htells : Tells E bc₁.chain bc₂.chain) (hb : bc₁.chain[j]? = some b)
    (hc : bc₂.chain[k]? = some c) (hhash : b.hash = c.hash) :
    List.Forall₂ R (bc₁.chain.take (j + 1)) (bc₂.chain.take (k + 1)) := by
  have hsplit : ∀ {l : List Block} {a : Block} {i : ℕ}, l[i]? = some a →
      l = l.take i ++ a :: l.drop (i + 1) ∧ l.take (i + 1) = l.take i ++ [a] := by
    intro l a i ha
    obtain ⟨hi, rfl⟩ := List.getElem?_eq_some_iff.1 ha
    exact ⟨by simp, (List.take_concat_get' l i hi).symm⟩
  rw [(hsplit hb).2, (hsplit hc).2]
  rcases match_or_diverge hE h₁ h₂ htold (hsplit hb).1 (hsplit hc).1 hhash with hall | hdiv
  · exact hall
  · rw [← (hsplit hb).2, ← (hsplit hc).2] at hdiv
    exact absurd hdiv
      (htells.not_diverge (fun _ => List.mem_of_mem_take) fun _ => List.mem_of_mem_take)

/-- A hash stands at one place in the two chains. -/
theorem place_eq (hE : ∀ s, (E.sha256 s).length = 64) (h₁ : ChainFormed E now₁ bc₁)
    (h₂ : ChainFormed E now₂ bc₂) (htells : Tells E bc₁.chain bc₂.chain)
    (hb : bc₁.chain[j]? = some b) (hc : bc₂.chain[k]? = some c) (hhash : b.hash = c.hash) :
    j = k := by
  have hlen := (match_at hE h₁ h₂ (h₁.told_sameParent h₂) htells hb hc hhash).length_eq
  have hj : j < bc₁.chain.length := (List.getElem?_eq_some_iff.1 hb).1
  have hk : k < bc₂.chain.length := (List.getElem?_eq_some_iff.1 hc).1
  rw [List.length_take, List.length_take] at hlen
  omega

theorem nodup_hashes (hE : ∀ s, (E.sha256 s).length = 64) (h : ChainFormed E now bc)
    (htells : Tells E bc.chain bc.chain) : (bc.chain.map Block.hash).Nodup := by
  rw [List.nodup_iff_pairwise_ne, List.pairwise_map, List.pairwise_iff_getElem]
  intro i j hi hj hij hhash
  have hplace := place_eq hE h h htells (List.getElem?_eq_getElem hi) (List.getElem?_eq_getElem hj)
    hhash
  omega

end ChainFormed

/-- After any calls of `addBlock` no hash stands twice in the chain, and no block of the chain passes
the checks again, unless digests or headers collide. -/
theorem block_added_once (E : Env) (hE : ∀ s, (E.sha256 s).length = 64) (now : ℤ)
    (offers : List Offer) :
    let bc := run (Blockchain.step E) (Blockchain.init E now) offers
    Tells E bc.chain bc.chain →
      (bc.chain.map Block.hash).Nodup ∧ ∀ b ∈ bc.chain, bc.validateBlock E b = false := by
  intro bc htells
  have h : ChainFormed E now bc := ChainFormed.run hE now offers
  refine ⟨h.nodup_hashes hE htells, fun b hb => ?_⟩
  rw [Bool.eq_false_iff]
  intro hval
  have hgrown : ∀ c ∈ (bc.pushBlock b).chain, c ∈ bc.chain := by
    intro c hc
    rw [Blockchain.chain_pushBlock] at hc
    rcases List.mem_append.1 hc with hc | hc
    · exact hc
    · rw [List.mem_singleton.1 hc]
      exact hb
  have hformed : ChainFormed E now (bc.pushBlock b) := by
    refine ⟨h.ok.pushBlock hval, ?_, fun c hc => h.formed c (hgrown c hc)⟩
    rw [Blockchain.chain_pushBlock, List.head?_append, h.genesis]
    rfl
  have htells' : Tells E (bc.pushBlock b).chain (bc.pushBlock b).chain :=
    fun c hc d hd => htells c (hgrown c hc) d (hgrown d hd)
  have hnodup := hformed.nodup_hashes hE htells'
  rw [Blockchain.chain_pushBlock, List.map_append, List.nodup_append] at hnodup
  exact hnodup.2.2 b.hash (List.mem_map_of_mem hb) b.hash (List.mem_singleton_self _) rfl

section
open Sample

/-- The genesis block and two more. -/
theorem block_added_once_third :
    let bc := run (Blockchain.step paddedEnv) (Blockchain.init paddedEnv 1700000000)
      [offered second, offered (third 1700000120)]
    (bc.chain.map Block.hash).Nodup ∧ ∀ b ∈ bc.chain, bc.validateBlock paddedEnv b = false :=
  block_added_once paddedEnv length_paddedEnv 1700000000 _ (by unfold Tells; decide +kernel)

end

/-! ### Forks -/

theorem Block.SameContent.symm {b c : Block} (h : SameContent b c) : SameContent c b :=
  ⟨h.header.symm, h.previousHash.symm, h.transactions.symm, h.nonce.symm⟩

/-- The blocks at position `i` differ in what the digest covers. -/
def Forked (chain₁ chain₂ : List Block) (i : ℕ) : Prop :=
  ∃ b c, chain₁[i]? = some b ∧ chain₂[i]? = some c ∧ ¬ Block.SameContent b c

namespace Forked
variable {chain₁ chain₂ chain₁' chain₂' : List Block} {i : ℕ}

theorem symm (h : Forked chain₁ chain₂ i) : Forked chain₂ chain₁ i := by
  obtain ⟨b, c, hb, hc, hdiff⟩ := h
  exact ⟨c, b, hc, hb, fun hsame => hdiff hsame.symm⟩

/-- Blocks are only added behind the fork. -/
theorem of_prefix (h : Forked chain₁ chain₂ i) (h₁ : chain₁ <+: chain₁') (h₂ : chain₂ <+: chain₂') :
    Forked chain₁' chain₂' i := by
  obtain ⟨b, c, hb, hc, hdiff⟩ := h
  have hgrown : ∀ {l l' : List Block} {a : Block}, l <+: l' → l[i]? = some a → l'[i]? = some a := by
    rintro l _ a ⟨t, rfl⟩ ha
    rw [List.getElem?_append_left (List.getElem?_eq_some_iff.1 ha).1, ha]
  exact ⟨b, c, hgrown h₁ hb, hgrown h₂ hc, hdiff⟩

theorem not_forall₂ (h : Forked chain₁ chain₂ i) {j k : ℕ} (hj : i < j) (hk : i < k) :
    ¬ List.Forall₂ Block.SameContent (chain₁.take j) (chain₂.take k) := by
  obtain ⟨b, c, hb, hc, hdiff⟩ := h
  intro hall
  rw [List.forall₂_iff_get] at hall
  obtain ⟨hi₁, rfl⟩ := List.getElem?_eq_some_iff.1 hb
  obtain ⟨hi₂, rfl⟩ := List.getElem?_eq_some_iff.1 hc
  have hpair := hall.2 i (by simp [hi₁, hj]) (by simp [hi₂, hk])
  exact hdiff (by simpa using hpair)

end Forked

theorem Blockchain.chain_prefix_run (E : Env) (bc : Blockchain) (offers : List Offer) :
    bc.chain <+: (run (Blockchain.step E) bc offers).chain := by
  refine run_inv (I := fun bc' : Blockchain => bc.chain <+: bc'.chain) (fun bc' o h => ?_)
    List.prefix_rfl offers
  rcases Blockchain.step_cases E bc' o with ⟨-, heq⟩ | ⟨-, heq⟩ <;> rw [heq]
  · rw [Blockchain.chain_pushBlock]
    exact h.trans (List.prefix_append _ _)
  · exact h

namespace ChainFormed
variable {E : Env} {now₁ now₂ : ℤ} {bc₁ bc₂ : Blockchain} {b c : Block} {i j k : ℕ}

theorem before_fork (hE : ∀ s, (E.sha256 s).length = 64) (h₁ : ChainFormed E now₁ bc₁)
    (h₂ : ChainFormed E now₂ bc₂) (htold : Told Block.SameContent bc₁.chain bc₂.chain)
    (htells : Tells E bc₁.chain bc₂.chain) (hfork : Forked bc₁.chain bc₂.chain i) (hb : bc₁.chain[j]? = some b)
    (hc : bc₂.chain[k]? = some c) (hhash : b.hash = c.hash) : j = k ∧ j < i := by
  have hplace := place_eq hE h₁ h₂ htells hb hc hhash
  refine ⟨hplace, ?_⟩
  by_contra hge
  exact hfork.not_forall₂ (by omega) (by omega) (match_at hE h₁ h₂ htold htells hb hc hhash)

/-- What a block of the one chain names stands before the fork, and the last block of the other
behind it. -/
theorem validateBlock_of_forked (hE : ∀ s, (E.sha256 s).length = 64) (h₁ : ChainFormed E now₁ bc₁)
    (h₂ : ChainFormed E now₂ bc₂) (htold : Told Block.SameContent bc₁.chain bc₂.chain)
    (htells : Tells E bc₁.chain bc₂.chain) (hfork : Forked bc₁.chain bc₂.chain i) (hb : b ∈ bc₁.chain) :
    bc₂.validateBlock E b = false := by
  rw [Bool.eq_false_iff]
  intro hval
  have hprev : b.previousHash = bc₂.getLatestBlock.hash := (Blockchain.validateBlock_iff.1 hval).2.1
  obtain ⟨j, hj, rfl⟩ := List.getElem_of_mem hb
  cases j with
  | zero =>
    have hroot := h₁.ok.root
    rw [List.head?_eq_getElem?, List.getElem?_eq_getElem hj] at hroot
    have hlen := length_latest_hash hE h₂.ok
    rw [← hprev, Option.some.inj hroot] at hlen
    exact absurd hlen (by decide)
  | succ j =>
    have hlast : bc₂.chain[bc₂.chain.length - 1]? = some bc₂.getLatestBlock := by
      rw [← List.getLast?_eq_getElem?, List.getLast?_eq_some_getLast bc₂.chain_ne]
      rfl
    rw [h₁.ok.linked.getElem j hj] at hprev
    have hbefore := before_fork hE h₁ h₂ htold htells hfork (List.getElem?_eq_getElem (by omega)) hlast hprev
    obtain ⟨-, c, -, hc, -⟩ := hfork
    have hi : i < bc₂.chain.length := (List.getElem?_eq_some_iff.1 hc).1
    omega

end ChainFormed

/-- Two blockchains, of blocks of hashed transactions, that differ at one position stay apart: after any
further calls of `addBlock` on both, a hash that stands in both chains stands at one place before that
position, and neither accepts any block of the other. -/
theorem fork_never_heals (E : Env) (hE : ∀ s, (E.sha256 s).length = 64) (now₁ now₂ : ℤ)
    (offers₁ offers₂ later₁ later₂ : List Offer) (ho₁ : ∀ o ∈ offers₁ ++ later₁, o.block.Hashed)
    (ho₂ : ∀ o ∈ offers₂ ++ later₂, o.block.Hashed) (i : ℕ)
    (hfork : Forked (run (Blockchain.step E) (Blockchain.init E now₁) offers₁).chain
      (run (Blockchain.step E) (Blockchain.init E now₂) offers₂).chain i) :
    let bc₁ := run (Blockchain.step E) (Blockchain.init E now₁) (offers₁ ++ later₁)
    let bc₂ := run (Blockchain.step E) (Blockchain.init E now₂) (offers₂ ++ later₂)
    Tells E bc₁.chain bc₂.chain →
      (∀ (j k : ℕ) (b c : Block), bc₁.chain[j]? = some b → bc₂.chain[k]? = some c →
        b.hash = c.hash → j = k ∧ j < i) ∧
      (∀ b ∈ bc₁.chain, bc₂.validateBlock E b = false) ∧
      ∀ c ∈ bc₂.chain, bc₁.validateBlock E c = false := by
  intro bc₁ bc₂ htells
  have h₁ : ChainFormed E now₁ bc₁ := ChainFormed.run hE now₁ _
  have h₂ : ChainFormed E now₂ bc₂ := ChainFormed.run hE now₂ _
  have hhashed₁ : ∀ b ∈ bc₁.chain, b.Hashed := Blockchain.hashed_run E now₁ ho₁
  have hhashed₂ : ∀ c ∈ bc₂.chain, c.Hashed := Blockchain.hashed_run E now₂ ho₂
  have htold₁ := h₁.told_sameContent h₂ hhashed₁ hhashed₂
  have htold₂ := h₂.told_sameContent h₁ hhashed₂ hhashed₁
  have hgrown : ∀ (now : ℤ) (offers later : List Offer),
      (run (Blockchain.step E) (Blockchain.init E now) offers).chain <+:
        (run (Blockchain.step E) (Blockchain.init E now) (offers ++ later)).chain := by
    intro now offers later
    rw [run_append]
    exact Blockchain.chain_prefix_run E _ later
  have hstill : Forked bc₁.chain bc₂.chain i :=
    hfork.of_prefix (hgrown now₁ offers₁ later₁) (hgrown now₂ offers₂ later₂)
  refine ⟨fun j k b c => ChainFormed.before_fork hE h₁ h₂ htold₁ htells hstill, fun b => ?_,
    fun c => ?_⟩
  · exact ChainFormed.validateBlock_of_forked hE h₁ h₂ htold₁ htells hstill
  · exact ChainFormed.validateBlock_of_forked hE h₂ h₁ htold₂ htells.symm hstill.symm

section
open Sample

/-- A second block with another payment, a second later. -/
def Sample.rival : Block :=
  Block.init paddedEnv 1700000061 1 [hashed 52 (-4)] first.hash

/-- Two blockchains have taken different second blocks, and are then offered each other's. -/
theorem fork_never_heals_rival :
    let bc₁ := run (Blockchain.step paddedEnv) (Blockchain.init paddedEnv 1700000000)
      ([offered second] ++ [offered rival])
    let bc₂ := run (Blockchain.step paddedEnv) (Blockchain.init paddedEnv 1700000000)
      ([offered rival] ++ [offered second])
    ∀ b ∈ bc₁.chain, bc₂.validateBlock paddedEnv b = false := by
  have hfork : Forked (run (Blockchain.step paddedEnv) (Blockchain.init paddedEnv 1700000000)
        [offered second]).chain
      (run (Blockchain.step paddedEnv) (Blockchain.init paddedEnv 1700000000)
        [offered rival]).chain 1 := by
    refine ⟨second, rival, by decide +kernel, by decide +kernel, fun hsame => ?_⟩
    have hheader := hsame.header
    revert hheader
    decide +kernel
  exact (fork_never_heals paddedEnv length_paddedEnv 1700000000 1700000000 _ _ [offered rival]
    [offered second] (hashed_of_mem (by decide +kernel)) (hashed_of_mem (by decide +kernel)) 1 hfork
    (by unfold Tells; decide +kernel)).2.1

end

end BlockchainMessaging
