import BlockchainMessaging.CacheRuns
import BlockchainMessaging.Blockchain

/-!
# The block cache (`utils/cache_manager.hpp`)

Two LRU caches side by side. `cacheBlock` puts the block into one and then, in a loop, its transactions
into the other, where a block of many transactions evicts its own first ones.
-/

namespace BlockchainMessaging
open Lru Machine

namespace LRUCache
variable {K V : Type*} [DecidableEq K] {size : ℕ} {c : LRUCache K V} {es : List (Event K V)}
  {entries : List (K × V)}

/-- The cache holds the most recently used entries of these events. -/
structure Tracks (size : ℕ) (es : List (Event K V)) (c : LRUCache K V) : Prop where
  capacity : c.capacity = size
  coherent : Coherent es
  implements : Implements c ((history es).take size)

namespace Tracks

theorem init (size : ℕ) : Tracks size [] (init size : LRUCache K V) where
  capacity := rfl
  coherent _ _ h := absurd h List.not_mem_nil
  implements := by
    rw [show history ([] : List (Event K V)) = [] from rfl, List.take_nil]
    exact Implements.init size

theorem put (h : Tracks size es c) (hsize : 1 ≤ size) (k : K) (v : V) :
    ∃ c', c.put k v = some c' ∧ Tracks size (es ++ [.put k v]) c' := by
  obtain ⟨c', hput, hcap, himp⟩ := h.implements.put (h.capacity ▸ hsize) k v
  rw [h.capacity, put_take hsize (nodupKeys_history es)] at himp
  refine ⟨c', hput, hcap.trans h.capacity, h.coherent.put k v, ?_⟩
  rw [history_concat]
  exact himp

theorem putAll (h : Tracks size es c) (hsize : 1 ≤ size) (entries : List (K × V)) :
    ∃ c', entries.foldlM (fun c e => LRUCache.put e.1 e.2 c) c = some c' ∧
      Tracks size (es ++ Lru.putAll entries) c' := by
  induction entries generalizing c es with
  | nil =>
    refine ⟨c, rfl, ?_⟩
    rw [Lru.putAll, List.map_nil, List.append_nil]
    exact h
  | cons e entries ih =>
    obtain ⟨mid, hput, hmid⟩ := h.put hsize e.1 e.2
    obtain ⟨c', hfold, hc'⟩ := ih hmid
    refine ⟨c', ?_, ?_⟩
    · rw [List.foldlM_cons, hput]
      exact hfold
    · rw [List.append_assoc] at hc'
      exact hc'

theorem get (h : Tracks size es c) (hsize : 1 ≤ size) (k : K) :
    ∃ r c' es', c.get k = some (r, c') ∧ Tracks size es' c' ∧ puts es' = puts es ∧
      (r.isSome = true ↔ k ∈ (recency es).take size) ∧
      ∀ v, r = some v → find k (puts es).reverse = some v := by
  have hn := h.implements.holds.nodup
  rw [← map_fst_history, ← List.map_take]
  rcases h.implements.get k with ⟨hfind, hget⟩ | ⟨v, c', hfind, hget, hcap, himp⟩
  · refine ⟨none, c, es, hget, h, rfl, ?_, fun v hv => by cases hv⟩
    simpa using find_eq_none_iff.1 hfind
  · have hkv := List.mem_of_mem_take ((find_eq_some_iff hn).1 hfind)
    have hk := mem_keys_of_find hfind
    refine ⟨some v, c', es ++ [.hit k v], hget, ⟨hcap.trans h.capacity, h.coherent.hit hkv, ?_⟩, ?_,
      ?_, fun v' hv => ?_⟩
    · rw [history_concat]
      rw [touch_take hsize (nodupKeys_history es) hk] at himp
      exact himp
    · rw [puts_append]
      exact List.append_nil _
    · simpa using hk
    · obtain rfl := Option.some.inj hv
      rw [← lastPut_eq_find]
      exact h.coherent k v hkv

end Tracks

/-- The cache has come from a new one by putting these entries, with any `get`s in between. -/
def Stores (c : LRUCache K V) (size : ℕ) (entries : List (K × V)) : Prop :=
  ∃ es, Tracks size es c ∧ puts es = entries

namespace Stores

theorem init (size : ℕ) : (init size : LRUCache K V).Stores size [] :=
  ⟨[], Tracks.init size, rfl⟩

theorem get (h : c.Stores size entries) (hsize : 1 ≤ size) (k : K) :
    ∃ r c', c.get k = some (r, c') ∧ c'.Stores size entries ∧
      ∀ v, r = some v → find k entries.reverse = some v := by
  obtain ⟨es, htracks, rfl⟩ := h
  obtain ⟨r, c', es', hget, htracks', hputs, -, hvalue⟩ := htracks.get hsize k
  exact ⟨r, c', hget, ⟨es', htracks', hputs⟩, hvalue⟩

/-- After the new entries, the cache finds of their keys those whose last use is the latest. -/
theorem putAll (h : c.Stores size entries) (hsize : 1 ≤ size) (new : List (K × V)) :
    ∃ c', new.foldlM (fun c e => LRUCache.put e.1 e.2 c) c = some c' ∧
      c'.Stores size (entries ++ new) ∧
      ∀ k ∈ new.map Prod.fst, ∃ r c'', c'.get k = some (r, c'') ∧
        (r.isSome = true ↔ k ∈ ((new.map Prod.fst).dedup.reverse).take size) ∧
        ∀ v, r = some v → find k new.reverse = some v := by
  obtain ⟨es, htracks, rfl⟩ := h
  obtain ⟨c', hfold, htracks'⟩ := htracks.putAll hsize new
  have hputs : puts (es ++ Lru.putAll new) = puts es ++ new := by rw [puts_append, puts_putAll]
  refine ⟨c', hfold, ⟨_, htracks', hputs⟩, fun k hk => ?_⟩
  obtain ⟨r, c'', -, hget, -, -, hfound, hvalue⟩ := htracks'.get hsize k
  refine ⟨r, c'', hget, hfound.trans (mem_take_recency_append_putAll hk es size), fun v hv => ?_⟩
  have hk' : k ∈ new.reverse.map Prod.fst := by
    rw [List.map_reverse]
    exact List.mem_reverse.2 hk
  rw [← hvalue v hv, hputs, List.reverse_append, find_append_of_mem hk']

theorem put (h : c.Stores size entries) (hsize : 1 ≤ size) (k : K) (v : V) :
    ∃ c', c.put k v = some c' ∧ c'.Stores size (entries ++ [(k, v)]) ∧
      ∃ c'', c'.get k = some (some v, c'') := by
  obtain ⟨c', hfold, hstores, hget⟩ := h.putAll hsize [(k, v)]
  simp only [List.foldlM_cons, List.foldlM_nil, bind_pure] at hfold
  obtain ⟨r, c'', hget, hfound, hvalue⟩ := hget k (List.mem_singleton_self k)
  refine ⟨c', hfold, hstores, c'', ?_⟩
  have hk : k ∈ [k].take size := by
    rw [List.take_of_length_le hsize]
    exact List.mem_singleton_self k
  obtain ⟨v', rfl⟩ := Option.isSome_iff_exists.1 (hfound.2 hk)
  have hv := hvalue v' rfl
  rw [List.reverse_singleton, find, List.find?_singleton, if_pos (decide_eq_true rfl)] at hv
  rw [hget, ← hv]
  rfl

end Stores
end LRUCache

structure BlockCache where
  blockCache : LRUCache Bytes Block
  transactionCache : LRUCache Bytes Transaction

namespace BlockCache

def init (blockCacheSize txCacheSize : ℕ) : BlockCache :=
  { blockCache := .init blockCacheSize, transactionCache := .init txCacheSize }

/-- `none` is undefined behaviour, as for `LRUCache`. -/
def cacheBlock (block : Block) (c : BlockCache) : Option BlockCache :=
  (c.blockCache.put block.hash block).bind fun blockCache =>
    (block.transactions.foldlM (fun cache tx => LRUCache.put tx.getHash tx cache)
      c.transactionCache).map fun transactionCache =>
        { blockCache := blockCache, transactionCache := transactionCache }

/-- The inner `none` is the result `false`, here and in `getTransaction`. -/
def getBlock (hash : Bytes) (c : BlockCache) : Option (Option Block × BlockCache) :=
  (c.blockCache.get hash).map fun r => (r.1, { c with blockCache := r.2 })

def getTransaction (hash : Bytes) (c : BlockCache) : Option (Option Transaction × BlockCache) :=
  (c.transactionCache.get hash).map fun r => (r.1, { c with transactionCache := r.2 })

/-! ### Runs -/

inductive Call where
  | cacheBlock (block : Block)
  | getBlock (hash : Bytes)
  | getTransaction (hash : Bytes)

def exec (c : BlockCache) : Call → Option BlockCache
  | .cacheBlock block => c.cacheBlock block
  | .getBlock hash => (c.getBlock hash).map Prod.snd
  | .getTransaction hash => (c.getTransaction hash).map Prod.snd

def step (s : Option BlockCache) (call : Call) : Option BlockCache :=
  s.bind fun c => c.exec call

def Call.block : Call → Option Block
  | cacheBlock block => some block
  | _ => none

/-- The blocks that the calls put into the cache, in order. -/
def cachedBlocks (calls : List Call) : List Block :=
  calls.filterMap Call.block

/-- The distinct transaction hashes of the block, the one that occurs last first. -/
def latestHashes (block : Block) : List Bytes :=
  (block.transactions.map Transaction.getHash).dedup.reverse

theorem cachedBlocks_concat (calls : List Call) (call : Call) :
    cachedBlocks (calls ++ [call]) = cachedBlocks calls ++ call.block.toList := by
  rw [cachedBlocks, List.filterMap_append, ← cachedBlocks]
  cases call <;> rfl

/-! ### What the two caches store -/

/-- The caches have come from new ones by `cacheBlock` of these blocks, with any other calls in
between. -/
structure Stores (c : BlockCache) (blockCacheSize txCacheSize : ℕ) (blocks : List Block) : Prop where
  blockCache : c.blockCache.Stores blockCacheSize (entriesOf Block.hash blocks)
  transactionCache : c.transactionCache.Stores txCacheSize
    (entriesOf Transaction.getHash (blocks.flatMap Block.transactions))

namespace Stores
variable {blockCacheSize txCacheSize : ℕ} {blocks : List Block} {c : BlockCache}

theorem init (blockCacheSize txCacheSize : ℕ) :
    (init blockCacheSize txCacheSize).Stores blockCacheSize txCacheSize [] :=
  ⟨LRUCache.Stores.init blockCacheSize, LRUCache.Stores.init txCacheSize⟩

theorem getBlock (h : c.Stores blockCacheSize txCacheSize blocks) (hsize : 1 ≤ blockCacheSize)
    (hash : Bytes) :
    ∃ r c', c.getBlock hash = some (r, c') ∧ c'.Stores blockCacheSize txCacheSize blocks ∧
      ∀ block, r = some block →
        blocks.reverse.find? (fun block => block.hash = hash) = some block := by
  obtain ⟨r, blockCache, hget, hstores, hvalue⟩ := h.blockCache.get hsize hash
  refine ⟨r, { c with blockCache := blockCache }, ?_, ⟨hstores, h.transactionCache⟩,
    fun block hblock => ?_⟩
  · rw [BlockCache.getBlock, hget, Option.map_some]
  · rw [← find_entriesOf_reverse]
    exact hvalue block hblock

theorem getTransaction (h : c.Stores blockCacheSize txCacheSize blocks) (hsize : 1 ≤ txCacheSize)
    (hash : Bytes) :
    ∃ r c', c.getTransaction hash = some (r, c') ∧ c'.Stores blockCacheSize txCacheSize blocks ∧
      ∀ tx, r = some tx →
        (blocks.flatMap Block.transactions).reverse.find? (fun tx => tx.getHash = hash) =
          some tx := by
  obtain ⟨r, transactionCache, hget, hstores, hvalue⟩ := h.transactionCache.get hsize hash
  refine ⟨r, { c with transactionCache := transactionCache }, ?_, ⟨h.blockCache, hstores⟩,
    fun tx htx => ?_⟩
  · rw [BlockCache.getTransaction, hget, Option.map_some]
  · rw [← find_entriesOf_reverse]
    exact hvalue tx htx

/-- After `cacheBlock`, the block is there, and of its transactions those whose hashes occur last. -/
theorem cacheBlock (h : c.Stores blockCacheSize txCacheSize blocks) (hblock : 1 ≤ blockCacheSize)
    (htx : 1 ≤ txCacheSize) (block : Block) :
    ∃ c', c.cacheBlock block = some c' ∧
      c'.Stores blockCacheSize txCacheSize (blocks ++ [block]) ∧
      (∃ c'', c'.getBlock block.hash = some (some block, c'')) ∧
      ∀ hash ∈ latestHashes block, ∃ r c'', c'.getTransaction hash = some (r, c'') ∧
        (r.isSome = true ↔ hash ∈ (latestHashes block).take txCacheSize) ∧
        ∀ tx, r = some tx →
          block.transactions.reverse.find? (fun tx => tx.getHash = hash) = some tx := by
  obtain ⟨blockCache, hput, hblocks, blockCache', hgetBlock⟩ :=
    h.blockCache.put hblock block.hash block
  obtain ⟨transactionCache, hfold, htxs, hgetTx⟩ :=
    h.transactionCache.putAll htx (entriesOf Transaction.getHash block.transactions)
  have hkeys : (entriesOf Transaction.getHash block.transactions).map Prod.fst =
      block.transactions.map Transaction.getHash := by
    rw [entriesOf, List.map_map]
    rfl
  rw [hkeys] at hgetTx
  rw [entriesOf, List.foldlM_map] at hfold
  let c' : BlockCache := { blockCache := blockCache, transactionCache := transactionCache }
  refine ⟨c', ?_, ⟨?_, ?_⟩, ⟨{ c' with blockCache := blockCache' }, ?_⟩, fun hash hhash => ?_⟩
  · rw [BlockCache.cacheBlock, hput, Option.bind_some, hfold, Option.map_some]
  · rw [entriesOf, List.map_append]
    exact hblocks
  · rw [List.flatMap_append, List.flatMap_singleton, entriesOf, List.map_append]
    exact htxs
  · rw [BlockCache.getBlock, hgetBlock, Option.map_some]
  · obtain ⟨r, transactionCache', hget, hfound, hvalue⟩ :=
      hgetTx hash (List.mem_dedup.1 (List.mem_reverse.1 hhash))
    refine ⟨r, { c' with transactionCache := transactionCache' }, ?_, hfound, fun tx hr => ?_⟩
    · rw [BlockCache.getTransaction, hget, Option.map_some]
    · rw [← find_entriesOf_reverse]
      exact hvalue tx hr

end Stores

theorem stores_run {blockCacheSize txCacheSize : ℕ} (hblock : 1 ≤ blockCacheSize)
    (htx : 1 ≤ txCacheSize) (calls : List Call) :
    ∃ c, run step (some (init blockCacheSize txCacheSize)) calls = some c ∧
      c.Stores blockCacheSize txCacheSize (cachedBlocks calls) := by
  refine run_inv_history (J := fun calls s => ∃ c : BlockCache, s = some c ∧
    c.Stores blockCacheSize txCacheSize (cachedBlocks calls))
    ⟨_, rfl, Stores.init blockCacheSize txCacheSize⟩ ?_ calls
  rintro calls call _ ⟨c, rfl, h⟩
  rw [cachedBlocks_concat]
  cases call with
  | cacheBlock block =>
    obtain ⟨c', hcache, h', -⟩ := h.cacheBlock hblock htx block
    exact ⟨c', hcache, h'⟩
  | getBlock hash =>
    obtain ⟨r, c', hget, h', -⟩ := h.getBlock hblock hash
    refine ⟨c', ?_, (List.append_nil _).symm ▸ h'⟩
    rw [step, Option.bind_some, exec, hget, Option.map_some]
  | getTransaction hash =>
    obtain ⟨r, c', hget, h', -⟩ := h.getTransaction htx hash
    refine ⟨c', ?_, (List.append_nil _).symm ▸ h'⟩
    rw [step, Option.bind_some, exec, hget, Option.map_some]

end BlockCache

/-- After any calls on a new cache, a hit is the last object stored with its hash. Right after
`cacheBlock` the block is found, and of its transaction hashes the `txCacheSize` ones that occur last,
each with the last transaction of the block that has it. -/
theorem block_cache_of_run (blockCacheSize txCacheSize : ℕ) (hblock : 1 ≤ blockCacheSize)
    (htx : 1 ≤ txCacheSize) (calls : List BlockCache.Call) :
    ∃ c : BlockCache,
      run BlockCache.step (some (BlockCache.init blockCacheSize txCacheSize)) calls = some c ∧
      (∀ hash, ∃ r c', c.getBlock hash = some (r, c') ∧ ∀ block, r = some block →
        (BlockCache.cachedBlocks calls).reverse.find? (fun block => block.hash = hash) =
          some block) ∧
      (∀ hash, ∃ r c', c.getTransaction hash = some (r, c') ∧ ∀ tx, r = some tx →
        ((BlockCache.cachedBlocks calls).flatMap Block.transactions).reverse.find?
          (fun tx => tx.getHash = hash) = some tx) ∧
      ∀ block : Block, ∃ c', c.cacheBlock block = some c' ∧
        (∃ c'', c'.getBlock block.hash = some (some block, c'')) ∧
        ∀ hash ∈ BlockCache.latestHashes block, ∃ r c'', c'.getTransaction hash = some (r, c'') ∧
          ((BlockCache.latestHashes block).length ≤ txCacheSize → r.isSome = true) ∧
          (r.isSome = true ↔ hash ∈ (BlockCache.latestHashes block).take txCacheSize) ∧
          ∀ tx, r = some tx →
            block.transactions.reverse.find? (fun tx => tx.getHash = hash) = some tx := by
  obtain ⟨c, hrun, h⟩ := BlockCache.stores_run hblock htx calls
  refine ⟨c, hrun, fun hash => ?_, fun hash => ?_, fun block => ?_⟩
  · obtain ⟨r, c', hget, -, hvalue⟩ := h.getBlock hblock hash
    exact ⟨r, c', hget, hvalue⟩
  · obtain ⟨r, c', hget, -, hvalue⟩ := h.getTransaction htx hash
    exact ⟨r, c', hget, hvalue⟩
  · obtain ⟨c', hcache, -, hfound, htxs⟩ := h.cacheBlock hblock htx block
    refine ⟨c', hcache, hfound, fun hash hhash => ?_⟩
    obtain ⟨r, c'', hget, hsome, hvalue⟩ := htxs hash hhash
    refine ⟨r, c'', hget, fun hle => hsome.2 ?_, hsome, hvalue⟩
    rwa [List.take_of_length_le hle]

section
open Sample

def Sample.blockOf (hashes : List String) : Block :=
  block (hashes.map fun hash => { payment "bob" 1 with hash := ascii hash })

/-- A block with the hashes `a`, `b`, `c`, `a`, and a cache of two transactions: `c` is found, `b` is
not. -/
theorem block_cache_of_run_two :
    ∃ c c' : BlockCache, run BlockCache.step (some (BlockCache.init 1 2)) [] = some c ∧
      c.cacheBlock (blockOf ["a", "b", "c", "a"]) = some c' ∧
      (∃ r c'', c'.getTransaction (ascii "c") = some (r, c'') ∧ r.isSome = true) ∧
      ∃ r c'', c'.getTransaction (ascii "b") = some (r, c'') ∧ ¬ r.isSome = true := by
  obtain ⟨c, hrun, -, -, hcache⟩ := block_cache_of_run 1 2 (by decide) (by decide) []
  obtain ⟨c', hc', -, htxs⟩ := hcache (blockOf ["a", "b", "c", "a"])
  obtain ⟨r, c₁, hget, -, hfound, -⟩ := htxs (ascii "c") (by decide +kernel)
  obtain ⟨s, c₂, hget', -, hfound', -⟩ := htxs (ascii "b") (by decide +kernel)
  refine ⟨c, c', hrun, hc', ⟨r, c₁, hget, hfound.2 ?_⟩, ⟨s, c₂, hget', fun hs => ?_⟩⟩
  · decide +kernel
  · exact absurd (hfound'.1 hs) (by decide +kernel)

end

end BlockchainMessaging
