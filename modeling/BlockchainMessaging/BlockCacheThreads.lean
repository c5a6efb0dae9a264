import BlockchainMessaging.BlockCache
import BlockchainMessaging.CacheThreads
import BlockchainMessaging.Lib.MonitorPair

/-!
# Threads at one block cache (`utils/cache_manager.hpp`)

Each of the two caches has a mutex of its own, and between the `put`s of `cacheBlock` a thread has
neither: others find the block and only some of its transactions.
-/

namespace BlockchainMessaging
open Machine

namespace LRUCache
variable {κ K V : Type*} [DecidableEq κ] [DecidableEq K] {size : ℕ}
  {s : Monitor.State κ (Option (LRUCache K V)) (Lru.Call K V) (Option (Lru.Event K V))
    (CacheAccess K V)}

/-- What a `get` finds was put before. -/
theorem put_of_hit (hlinear : Monitor.Linear monitor answer (some (init size)) s) (hsize : 1 ≤ size)
    {n : ℕ} {k : κ} {key key' : K} {v : V}
    (hn : s.order[n]? = some (k, .get key, some (.hit key' v))) :
    key' = key ∧ ∃ j o, (j, .put key v, o) ∈ s.order.take n := by
  have hanswer := hlinear.answer_eq hn
  obtain ⟨c, hrun, -, himp⟩ := run_init hsize (s.calls.take n)
  obtain ⟨hcalls, hco, hlist⟩ := events_init hsize (s.calls.take n)
  rw [(objectAfter_of_run hrun).1] at hanswer
  rcases himp.get key with ⟨-, hget⟩ | ⟨v', c', hfind, hget, -, -⟩
  · simp [answer, exec, hget] at hanswer
  · obtain ⟨rfl, rfl⟩ : key' = key ∧ v = v' := by simpa [answer, exec, hget] using hanswer
    have hmem := (Lru.find_eq_some_iff himp.holds.nodup).1 hfind
    rw [hlist] at hmem
    obtain ⟨e, he, hput⟩ := List.exists_of_findSome?_eq_some (hco _ v (List.mem_of_mem_take hmem))
    have hput' : Lru.Event.put key' v ∈ (Lru.run size [] (s.calls.take n)).1 := by
      cases e with
      | put =>
        simp only [Lru.Event.putValue, Option.ite_none_right_eq_some, Option.some.injEq] at hput
        obtain ⟨rfl, rfl⟩ := hput
        exact List.mem_reverse.1 he
      | hit | miss => cases hput
    have hcall := (mem_events_iff hcalls).2 hput'
    rw [Monitor.State.calls, ← List.map_take] at hcall
    obtain ⟨⟨j, _, o⟩, hmade, rfl⟩ := List.mem_map.1 hcall
    exact ⟨rfl, j, o, hmade⟩

end LRUCache

namespace BlockCache

/-- The calls on the two caches, one after the other. -/
def Call.plan : Call → List (Lru.Call Bytes Block ⊕ Lru.Call Bytes Transaction)
  | cacheBlock block =>
    .inl (.put block.hash block) :: block.transactions.map fun tx => .inr (.put tx.getHash tx)
  | getBlock hash => [.inl (.get hash)]
  | getTransaction hash => [.inr (.get hash)]

/-- A planned call with nobody else at the caches. -/
def perform (c : BlockCache) : Lru.Call Bytes Block ⊕ Lru.Call Bytes Transaction → Option BlockCache
  | .inl call => (c.blockCache.exec call).map fun r => { c with blockCache := r.2 }
  | .inr call => (c.transactionCache.exec call).map fun r => { c with transactionCache := r.2 }

/-- With nobody else at the caches, a plan does what its call does. -/
theorem foldlM_plan (c : BlockCache) (call : Call) : call.plan.foldlM perform c = c.exec call := by
  cases call with
  | getBlock hash =>
    simp [Call.plan, perform, exec, BlockCache.getBlock, LRUCache.exec, Option.map_map,
      Function.comp_def]
  | getTransaction hash =>
    simp [Call.plan, perform, exec, BlockCache.getTransaction, LRUCache.exec, Option.map_map,
      Function.comp_def]
  | cacheBlock block =>
    have htxs : ∀ (txs : List Transaction) (c : BlockCache),
        (txs.map fun tx => Sum.inr (Lru.Call.put tx.getHash tx)).foldlM perform c =
          (txs.foldlM (fun cache tx => LRUCache.put tx.getHash tx cache) c.transactionCache).map
            fun transactionCache => { c with transactionCache := transactionCache } := by
      intro txs
      induction txs with
      | nil => exact fun _ => rfl
      | cons tx txs ih =>
        intro c
        cases hput : c.transactionCache.put tx.getHash tx with
        | none => simp [perform, LRUCache.exec, hput]
        | some cache =>
          simpa [perform, LRUCache.exec, hput] using ih { c with transactionCache := cache }
    cases hput : c.blockCache.put block.hash block with
    | none => simp [Call.plan, perform, exec, cacheBlock, LRUCache.exec, hput]
    | some cache =>
      simpa [Call.plan, perform, exec, cacheBlock, LRUCache.exec, hput] using
        htxs block.transactions { c with blockCache := cache }

theorem cacheBlock_of_put {call : Call} {hash : Bytes} {block : Block}
    (h : .inl (.put hash block) ∈ call.plan) : call = .cacheBlock block ∧ hash = block.hash := by
  cases call with
  | getBlock | getTransaction => simp [Call.plan] at h
  | cacheBlock b =>
    obtain ⟨rfl, rfl⟩ : hash = b.hash ∧ block = b := by simpa [Call.plan] using h
    exact ⟨rfl, rfl⟩

/-- A transaction is put by `cacheBlock`, after its block. -/
theorem cacheBlock_of_plan {call : Call} {hash : Bytes} {tx : Transaction}
    {before after : List (Lru.Call Bytes Block ⊕ Lru.Call Bytes Transaction)}
    (h : call.plan = before ++ .inr (.put hash tx) :: after) :
    ∃ block, call = .cacheBlock block ∧ tx ∈ block.transactions ∧ tx.getHash = hash ∧
      .inl (.put block.hash block) ∈ before := by
  cases call with
  | getBlock | getTransaction =>
    rcases before with _ | ⟨x, _ | ⟨y, before⟩⟩ <;> simp [Call.plan] at h
  | cacheBlock block =>
    rcases before with _ | ⟨x, before⟩
    · simp [Call.plan] at h
    · obtain ⟨rfl, htxs⟩ := List.cons.inj h
      have hmem : Sum.inr (Lru.Call.put hash tx) ∈
          block.transactions.map fun tx => (Sum.inr (Lru.Call.put tx.getHash tx) :
            Lru.Call Bytes Block ⊕ Lru.Call Bytes Transaction) := by
        rw [htxs]
        simp
      obtain ⟨tx', htx, heq⟩ := List.mem_map.1 hmem
      obtain ⟨rfl, rfl⟩ := Lru.Call.put.inj (Sum.inr.inj heq)
      exact ⟨block, rfl, htx, rfl, List.mem_cons_self⟩

/-- In plans one behind the other, a transaction stands behind its block. -/
theorem cacheBlock_of_flatMap {calls : List Call} {hash : Bytes} {tx : Transaction}
    {before after : List (Lru.Call Bytes Block ⊕ Lru.Call Bytes Transaction)}
    (h : calls.flatMap Call.plan = before ++ .inr (.put hash tx) :: after) :
    ∃ block, .cacheBlock block ∈ calls ∧ tx ∈ block.transactions ∧ tx.getHash = hash ∧
      .inl (.put block.hash block) ∈ before := by
  induction calls generalizing before with
  | nil => simp at h
  | cons call calls ih =>
    rw [List.flatMap_cons, List.append_eq_append_iff] at h
    rcases h with ⟨rest, rfl, hrest⟩ | ⟨rest, hplan, hrest⟩
    · obtain ⟨block, hmem, htx, hhash, hbefore⟩ := ih hrest
      exact ⟨block, List.mem_cons_of_mem _ hmem, htx, hhash, List.mem_append_right _ hbefore⟩
    · rcases rest with _ | ⟨x, rest⟩
      · have hnone : calls.flatMap Call.plan = [] ++ .inr (.put hash tx) :: after := hrest.symm
        obtain ⟨block, -, -, -, hbefore⟩ := ih hnone
        cases hbefore
      · obtain ⟨rfl, -⟩ := List.cons.inj hrest
        obtain ⟨block, rfl, htx, hhash, hbefore⟩ := cacheBlock_of_plan hplan
        exact ⟨block, List.mem_cons_self, htx, hhash, hbefore⟩

/-! ### The threads -/

/-- New caches after these steps of the threads. -/
def threads {κ : Type*} [DecidableEq κ] (blockCacheSize txCacheSize : ℕ)
    (schedule : List (κ × Call)) :
    Monitor.PairState κ Call (Option (LRUCache Bytes Block)) (Lru.Call Bytes Block)
      (Option (Lru.Event Bytes Block)) (CacheAccess Bytes Block)
      (Option (LRUCache Bytes Transaction)) (Lru.Call Bytes Transaction)
      (Option (Lru.Event Bytes Transaction)) (CacheAccess Bytes Transaction) :=
  Machine.run (Monitor.pairStep LRUCache.monitor LRUCache.monitor Call.plan)
    (Monitor.pairInit (some (.init blockCacheSize)) (some (.init txCacheSize))) schedule

end BlockCache

section
open Sample

/-- One thread caches a block of two transactions; another looks for the first of them before the
second is put. -/
def Sample.cacheSchedule : List (Bool × BlockCache.Call) :=
  List.replicate 17 (true, .cacheBlock (block [payment "bob" 1, payment "bob" 2])) ++
    List.replicate 7 (false, .getTransaction (payment "bob" 1).getHash)

end

end BlockchainMessaging
