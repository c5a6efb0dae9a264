import BlockchainMessaging.TransactionDigest

/-!
# What the digest of a block determines

Index and timestamp are two decimal numbers side by side, so the digest fixes them only once it is
known where they end. What follows them is a row of hashes of 64 characters and a nonce of at most
10: where the row ends can be told from the length.
-/

namespace BlockchainMessaging
namespace Block

variable {b₁ b₂ : Block}

/-- The hashes that stand between the header's numbers and the nonce. -/
def hashes (block : Block) : List Bytes :=
  block.previousHash :: block.transactions.map Transaction.getHash

theorem preimage_eq (block : Block) :
    block.preimage = decimal block.index.toNat ++ decimalInt block.timestamp ++
      (block.hashes.flatten ++ decimal block.nonce.toNat) := by
  simp only [preimage, hashes, List.flatten_cons, List.append_assoc]

/-- Where the index ends, and then where the timestamp ends, decides what they are. -/
theorem header_eq_of_length_eq (hpre : b₁.preimage = b₂.preimage)
    (hindex : (decimal b₁.index.toNat).length = (decimal b₂.index.toNat).length) :
    b₁.index = b₂.index ∧
      ((decimalInt b₁.timestamp).length = (decimalInt b₂.timestamp).length →
        b₁.timestamp = b₂.timestamp) := by
  rw [preimage_eq, preimage_eq, List.append_assoc, List.append_assoc] at hpre
  obtain ⟨hnumber, hrest⟩ := List.append_inj hpre hindex
  refine ⟨UInt32.toNat_inj.1 (decimal_injective hnumber), fun htime => ?_⟩
  exact decimalInt_injective (List.append_inj_left hrest htime)

theorem length_of_mem_hashes {block : Block} (hprev : block.previousHash.length = 64)
    (htxs : ∀ tx ∈ block.transactions, tx.getHash.length = 64) :
    ∀ s ∈ block.hashes, s.length = 64 := by
  intro s hs
  rcases List.mem_cons.1 hs with rfl | hs
  · exact hprev
  · obtain ⟨tx, htx, rfl⟩ := List.mem_map.1 hs
    exact htxs tx htx

end Block

theorem length_decimal_uint32_le (n : UInt32) : (decimal n.toNat).length ≤ 10 := by
  have hlt : n.toNat < 10 ^ 10 := n.toNat_lt.trans (by norm_num)
  exact (decimalDigits.length_numeral_le_iff (by omega)).2 hlt

/-- A row of texts of 64 characters and a number of at most 10 digits after it: the length tells how
many texts there are. -/
theorem row_inj {l m : List Bytes} (hl : ∀ s ∈ l, s.length = 64) (hm : ∀ s ∈ m, s.length = 64)
    {a b : UInt32} (h : l.flatten ++ decimal a.toNat = m.flatten ++ decimal b.toNat) :
    l = m ∧ a = b := by
  have ha := length_decimal_uint32_le a
  have hb := length_decimal_uint32_le b
  have ha0 : 0 < (decimal a.toNat).length := decimalDigits.length_numeral_pos _
  have hb0 : 0 < (decimal b.toNat).length := decimalDigits.length_numeral_pos _
  have hlen := congrArg List.length h
  rw [List.length_append, List.length_append, length_flatten_of_forall hl,
    length_flatten_of_forall hm] at hlen
  have hrow : l.flatten.length = m.flatten.length := by
    rw [length_flatten_of_forall hl, length_flatten_of_forall hm]
    omega
  obtain ⟨hflat, hnonce⟩ := List.append_inj h hrow
  exact ⟨eq_of_flatten_eq hl hm (by omega) hflat, UInt32.toNat_inj.1 (decimal_injective hnonce)⟩

/-- Of two blocks with one digested string the indexes agree exactly when they have the same width,
and index and timestamp do exactly when both widths agree. -/
theorem block_header_iff (b₁ b₂ : Block) (hpre : b₁.preimage = b₂.preimage) :
    (b₁.index = b₂.index ↔
      (decimal b₁.index.toNat).length = (decimal b₂.index.toNat).length) ∧
    (b₁.index = b₂.index ∧ b₁.timestamp = b₂.timestamp ↔
      (decimal b₁.index.toNat).length = (decimal b₂.index.toNat).length ∧
        (decimalInt b₁.timestamp).length = (decimalInt b₂.timestamp).length) := by
  have hheader := Block.header_eq_of_length_eq hpre
  refine ⟨⟨fun h => by rw [h], fun h => (hheader h).1⟩, ?_, ?_⟩
  · rintro ⟨hindex, htime⟩
    rw [hindex, htime]
    exact ⟨rfl, rfl⟩
  · rintro ⟨hindex, htime⟩
    exact ⟨(hheader hindex).1, (hheader hindex).2 htime⟩

section
open Sample

def Sample.header (index : UInt32) (timestamp : ℤ) : Block :=
  { index := index, timestamp := timestamp, previousHash := List.replicate 64 48, hash := [],
    transactions := [], nonce := 0 }

/-- The first digit of a timestamp goes to the index. -/
theorem same_digest_other_index :
    ¬ ∀ b₁ b₂ : Block, IsHexHash b₁.previousHash → IsHexHash b₂.previousHash →
      (∀ tx ∈ b₁.transactions, IsHexHash tx.getHash) →
      (∀ tx ∈ b₂.transactions, IsHexHash tx.getHash) → 0 ≤ b₁.timestamp → 0 ≤ b₂.timestamp →
      b₁.preimage = b₂.preimage → b₁.index = b₂.index ∧ b₁.timestamp = b₂.timestamp := by
  intro h
  have := h (header 1 1700000000) (header 11 700000000) isHexHash_zeros isHexHash_zeros
    (fun _ htx => absurd htx List.not_mem_nil) (fun _ htx => absurd htx List.not_mem_nil)
    (by decide) (by decide) (by decide +kernel)
  exact absurd this.1 (by decide)

theorem block_header_iff_header :
    ¬ (decimal (header 1 1700000000).index.toNat).length =
      (decimal (header 11 700000000).index.toNat).length :=
  fun h => absurd ((block_header_iff (header 1 1700000000) (header 11 700000000)
    (by decide +kernel)).1.2 h) (by decide)

end

/-- A block's digest determines its parent, its transactions and its nonce once index and timestamp
are given. -/
theorem block_hash_commits (b₁ b₂ : Block) (hprev₁ : IsHexHash b₁.previousHash)
    (hprev₂ : IsHexHash b₂.previousHash)
    (htxs₁ : ∀ tx ∈ b₁.transactions, IsHexHash tx.getHash)
    (htxs₂ : ∀ tx ∈ b₂.transactions, IsHexHash tx.getHash) (hindex : b₁.index = b₂.index)
    (htime : b₁.timestamp = b₂.timestamp) (hpre : b₁.preimage = b₂.preimage) :
    b₁.previousHash = b₂.previousHash ∧
      b₁.transactions.map Transaction.getHash = b₂.transactions.map Transaction.getHash ∧
      b₁.nonce = b₂.nonce := by
  rw [Block.preimage_eq, Block.preimage_eq, hindex, htime] at hpre
  have hlen₁ := Block.length_of_mem_hashes hprev₁.1 fun tx htx => (htxs₁ tx htx).1
  have hlen₂ := Block.length_of_mem_hashes hprev₂.1 fun tx htx => (htxs₂ tx htx).1
  obtain ⟨hhashes, hnonce⟩ := row_inj hlen₁ hlen₂ (List.append_cancel_left hpre)
  obtain ⟨hprev, htxs⟩ := List.cons.inj hhashes
  exact ⟨hprev, htxs, hnonce⟩

section
open Sample

/-- A payment with this digit 64 times for a hash. -/
def Sample.hashed (digit : UInt8) (amount : Amount) : Transaction :=
  { payment "bob" amount with hash := List.replicate 64 digit }

/-- Three payments and a nonce. The amounts do not enter the digest. -/
def Sample.paying (a b c : Amount) : Block :=
  { header 1 1700000000 with transactions := [hashed 49 a, hashed 50 b, hashed 51 c], nonce := 7 }

theorem Sample.isHexHash_paying (a b c : Amount) :
    ∀ tx ∈ (paying a b c).transactions, IsHexHash tx.getHash := by
  intro tx htx
  simp only [paying, List.mem_cons, List.not_mem_nil, or_false] at htx
  rcases htx with rfl | rfl | rfl <;>
    exact ⟨List.length_replicate, fun d hd => by rw [List.eq_of_mem_replicate hd]; decide⟩

/-- Two blocks of three payments each, with other amounts under the same hashes. -/
theorem block_hash_commits_paying :
    (paying 1 2 3).transactions.map Transaction.getHash =
      (paying 4 5 6).transactions.map Transaction.getHash ∧
    (paying 1 2 3).nonce = (paying 4 5 6).nonce :=
  (block_hash_commits (paying 1 2 3) (paying 4 5 6) isHexHash_zeros isHexHash_zeros
    (isHexHash_paying 1 2 3) (isHexHash_paying 4 5 6) rfl rfl (by decide +kernel)).2

end

end BlockchainMessaging
