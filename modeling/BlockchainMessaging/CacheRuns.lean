import BlockchainMessaging.CacheManager
import BlockchainMessaging.Text

/-!
# Runs of the LRU cache

A new cache of capacity at least 1 implements the empty list, so all of its runs are runs of
`Lru.run`: from there come what it holds after any calls and how caches of two sizes compare. A cache
of capacity 0 is at its bound while it is empty, and its first `put` takes the last key of an empty
list.
-/

namespace BlockchainMessaging
open Lru

namespace LRUCache
variable {K V : Type*} [DecidableEq K]

theorem run_init {size : ℕ} (hsize : 1 ≤ size) (calls : List (Call K V)) :
    ∃ c : LRUCache K V, (init size).run calls = some ((Lru.run size [] calls).1, c) ∧
      c.capacity = size ∧ Implements c (Lru.run size [] calls).2 :=
  (Implements.init size).run hsize calls

/-- Past calls are the events that a new cache has answered them with. -/
theorem events_init {size : ℕ} (hsize : 1 ≤ size) (calls : List (Call K V)) :
    let r := Lru.run size [] calls
    r.1.map Event.call = calls ∧ Coherent r.1 ∧ r.2 = (history r.1).take size := by
  have hnil : Coherent ([] : List (Event K V)) := fun _ _ h => absurd h List.not_mem_nil
  have h := run_eq_take hsize hnil calls
  rwa [show history ([] : List (Event K V)) = [] from rfl, List.take_nil] at h

omit [DecidableEq K] in
theorem mem_events_iff {calls : List (Call K V)} {es : List (Event K V)}
    (h : es.map Event.call = calls) {k : K} {v : V} :
    Call.put k v ∈ calls ↔ Event.put k v ∈ es := by
  rw [← h, List.mem_map]
  constructor
  · rintro ⟨e, he, hcall⟩
    cases e with
    | put => cases hcall; exact he
    | hit => cases hcall
    | miss => cases hcall
  · exact fun he => ⟨_, he, rfl⟩

/-- A key was used exactly when it was put: it has to be there before a `get` finds it. -/
theorem mem_recency_iff_put {es : List (Event K V)} (h : Coherent es) {k : K} :
    k ∈ recency es ↔ ∃ v, Event.put k v ∈ es := by
  constructor
  · intro hk
    rw [← map_fst_history] at hk
    obtain ⟨⟨_, v⟩, hmem, rfl⟩ := List.mem_map.1 hk
    obtain ⟨e, he, hput⟩ := List.exists_of_findSome?_eq_some (h _ v hmem)
    cases e with
    | put key value =>
      simp only [Event.putValue, Option.ite_none_right_eq_some, Option.some.injEq] at hput
      obtain ⟨rfl, rfl⟩ := hput
      exact ⟨value, List.mem_reverse.1 he⟩
    | hit => cases hput
    | miss => cases hput
  · rintro ⟨v, hv⟩
    exact mem_recency.2 (List.mem_filterMap.2 ⟨_, hv, rfl⟩)

end LRUCache

/-- After any calls on a new cache, it holds the most recently used keys, each with its last value
and the address of its node; so a `get` finds what was put unless too many other keys were used
since. -/
theorem lru_of_run {K V : Type*} [DecidableEq K] (size : ℕ) (hsize : 1 ≤ size)
    (calls : List (Call K V)) :
    ∃ (es : List (Event K V)) (c : LRUCache K V),
      (LRUCache.init size).run calls = some (es, c) ∧ es.map Event.call = calls ∧
      c.lruList.toList = (recency es).take size ∧
      (∀ k, k ∈ c.cache ↔ k ∈ (recency es).take size) ∧
      (∀ k v it, c.cache.lookup k = some (v, it) →
        lastPut k es = some v ∧ (it, k) ∈ c.lruList.nodes) ∧
      ∀ k, ∃ r c', c.get k = some (r, c') ∧
        (r.isSome = true ↔ (∃ v, Call.put k v ∈ calls) ∧ (usedSince k es).dedup.length < size) ∧
        ∀ v, r = some v → lastPut k es = some v := by
  obtain ⟨c, hrun, hcap, himp⟩ := LRUCache.run_init hsize calls
  obtain ⟨hcalls, hco, hlist⟩ := LRUCache.events_init hsize calls
  set es := (Lru.run size [] calls).1
  rw [hlist] at himp
  have hkeys : ((history es).take size).map Prod.fst = (recency es).take size := by
    rw [List.map_take, map_fst_history]
  have hlast : ∀ k v, (k, v) ∈ (history es).take size → lastPut k es = some v :=
    fun k v hmem => hco k v (List.mem_of_mem_take hmem)
  have hmem : ∀ k, k ∈ (recency es).take size ↔
      (∃ v, Call.put k v ∈ calls) ∧ (usedSince k es).dedup.length < size := by
    intro k
    have hput : k ∈ recency es ↔ ∃ v, Call.put k v ∈ calls :=
      (LRUCache.mem_recency_iff_put hco).trans
        (exists_congr fun _ => (LRUCache.mem_events_iff hcalls).symm)
    rw [← hput]
    exact ⟨fun h => ⟨List.mem_of_mem_take h, (mem_take_recency_iff (List.mem_of_mem_take h) _).1 h⟩,
      fun h => (mem_take_recency_iff h.1 _).2 h.2⟩
  refine ⟨es, c, hrun, hcalls, himp.holds.keys.trans hkeys, fun k => ?_, fun k v it hl => ?_,
    fun k => ?_⟩
  · rw [himp.holds.mem_cache_iff, hkeys]
  · obtain ⟨hkv, hit⟩ := himp.holds.lookup_iff.1 hl
    exact ⟨hlast k v hkv, hit⟩
  · rcases himp.get k with ⟨hfind, hget⟩ | ⟨v, c', hfind, hget, -, -⟩
    · refine ⟨_, _, hget, ?_, fun v hv => ?_⟩
      · rw [← hmem, ← hkeys]
        simpa using find_eq_none_iff.1 hfind
      · cases hv
    · refine ⟨_, _, hget, ?_, fun v' hv => ?_⟩
      · rw [← hmem, ← hkeys]
        simpa using mem_keys_of_find hfind
      · obtain rfl : v = v' := Option.some.inj hv
        exact hlast k v ((find_eq_some_iff himp.holds.nodup).1 hfind)

/-- A cache of two entries: the `get` of `1` makes `2` the older one. -/
theorem lru_of_run_two :
    ∃ (es : List (Event ℕ ℕ)) (c : LRUCache ℕ ℕ),
      (LRUCache.init 2).run [.put 1 10, .put 2 20, .get 1, .put 3 30] = some (es, c) ∧
        c.lruList.toList = (recency es).take 2 := by
  obtain ⟨es, c, hrun, -, hlist, -⟩ := lru_of_run 2 (by decide)
    ([.put 1 10, .put 2 20, .get 1, .put 3 30] : List (Call ℕ ℕ))
  exact ⟨es, c, hrun, hlist⟩

/-- A larger cache finds what a smaller one finds. -/
theorem larger_cache_of_run {K V : Type*} [DecidableEq K] (c₁ c₂ : ℕ) (h₁ : 1 ≤ c₁) (hle : c₁ ≤ c₂)
    (calls : List (Call K V)) :
    ∃ (es₁ es₂ : List (Event K V)) (s₁ s₂ : LRUCache K V),
      (LRUCache.init c₁).run calls = some (es₁, s₁) ∧ es₁.map Event.call = calls ∧
      (LRUCache.init c₂).run calls = some (es₂, s₂) ∧ es₂.map Event.call = calls ∧
      List.Forall₂ (fun e₁ e₂ => ∀ k v, e₁ = .hit k v → e₂ = .hit k v) es₁ es₂ ∧
      s₁.lruList.toList.Sublist s₂.lruList.toList := by
  have h₂ : 1 ≤ c₂ := h₁.trans hle
  obtain ⟨s₁, hrun₁, -, himp₁⟩ := LRUCache.run_init h₁ calls
  obtain ⟨s₂, hrun₂, -, himp₂⟩ := LRUCache.run_init h₂ calls
  have hinc : Inclusion c₁ c₂ ([] : List (K × V)) [] :=
    ⟨List.nil_sublist _, by simp, Nat.zero_le _, List.nodup_nil⟩
  obtain ⟨hevents, hlists⟩ := hinc.run h₁ hle calls
  refine ⟨_, _, s₁, s₂, hrun₁, (LRUCache.events_init h₁ calls).1, hrun₂,
    (LRUCache.events_init h₂ calls).1, hevents, ?_⟩
  rw [himp₁.holds.keys, himp₂.holds.keys]
  exact hlists.sublist.map _

theorem larger_cache_of_run_two :
    ∃ (es₁ es₂ : List (Event ℕ ℕ)) (s₁ s₂ : LRUCache ℕ ℕ),
      (LRUCache.init 1).run [.put 1 10, .put 2 20, .get 1] = some (es₁, s₁) ∧
        (LRUCache.init 2).run [.put 1 10, .put 2 20, .get 1] = some (es₂, s₂) ∧
        s₁.lruList.toList.Sublist s₂.lruList.toList := by
  obtain ⟨es₁, es₂, s₁, s₂, hrun₁, -, hrun₂, -, -, hsub⟩ := larger_cache_of_run 1 2 (by decide)
    (by decide) ([.put 1 10, .put 2 20, .get 1] : List (Call ℕ ℕ))
  exact ⟨es₁, es₂, s₁, s₂, hrun₁, hrun₂, hsub⟩

/-! ### Safety -/

namespace LRUCache
variable {K V : Type*} [DecidableEq K]

/-- Every step has a defined result, and after every step the list and the map have the same size,
within the capacity. -/
def SafeRun (size : ℕ) (calls : List (Call K V)) : Prop :=
  ∀ n, ∃ (es : List (Event K V)) (c : LRUCache K V), (init size).run (calls.take n) = some (es, c) ∧
    c.lruList.toList.length = c.cache.keys.card ∧ c.cache.keys.card ≤ size

theorem safeRun_of_pos {size : ℕ} (hsize : 1 ≤ size) (calls : List (Call K V)) :
    SafeRun size calls := by
  intro n
  obtain ⟨c, hrun, hcap, himp⟩ := run_init hsize (calls.take n)
  refine ⟨_, c, hrun, ?_, ?_⟩
  · rw [himp.holds.card_keys, himp.holds.keys, List.length_map]
  · rw [himp.holds.card_keys]
    exact himp.length_le.trans_eq hcap

theorem exec_init_zero_get (k : K) :
    (init 0 : LRUCache K V).exec (.get k) = some (.miss k, init 0) := by
  simp [exec, get, init]

theorem exec_init_zero_put (k : K) (v : V) : (init 0 : LRUCache K V).exec (.put k v) = none := by
  simp [exec, put, makeRoom, init, NodeList.empty, NodeList.back, NodeList.toList]

theorem run_init_zero_of_gets {calls : List (Call K V)} (h : ∀ call ∈ calls, ∃ k, call = .get k) :
    ∃ es, (init 0 : LRUCache K V).run calls = some (es, init 0) := by
  induction calls with
  | nil => exact ⟨[], rfl⟩
  | cons call calls ih =>
    obtain ⟨k, rfl⟩ := h call List.mem_cons_self
    obtain ⟨es, hes⟩ := ih fun call hc => h call (List.mem_cons_of_mem _ hc)
    refine ⟨.miss k :: es, ?_⟩
    rw [run, exec_init_zero_get, Option.bind_some, hes, Option.map_some]

theorem gets_of_run_init_zero {calls : List (Call K V)} {r : List (Event K V) × LRUCache K V}
    (h : (init 0).run calls = some r) : ∀ call ∈ calls, ∃ k, call = .get k := by
  induction calls generalizing r with
  | nil => exact fun _ hc => absurd hc List.not_mem_nil
  | cons call calls ih =>
    cases call with
    | put k v =>
      rw [run, exec_init_zero_put] at h
      cases h
    | get k =>
      rw [run, exec_init_zero_get, Option.bind_some, Option.map_eq_some_iff] at h
      obtain ⟨rest, hrest, -⟩ := h
      exact List.forall_mem_cons.2 ⟨⟨k, rfl⟩, ih hrest⟩

theorem safeRun_zero_iff (calls : List (Call K V)) :
    SafeRun 0 calls ↔ ∀ call ∈ calls, ∃ k, call = .get k := by
  constructor
  · intro h
    obtain ⟨es, c, hrun, -⟩ := h calls.length
    rw [List.take_length] at hrun
    exact gets_of_run_init_zero hrun
  · intro h n
    obtain ⟨es, hes⟩ := run_init_zero_of_gets fun call hc => h call (List.mem_of_mem_take hc)
    exact ⟨es, init 0, hes, rfl, Nat.le_refl 0⟩

end LRUCache

/-- A run is safe exactly when the capacity is at least 1 or nothing is put. -/
theorem lru_safe_iff {K V : Type*} [DecidableEq K] (size : ℕ) (calls : List (Call K V)) :
    LRUCache.SafeRun size calls ↔ 1 ≤ size ∨ ∀ call ∈ calls, ∃ k, call = .get k := by
  rcases Nat.eq_zero_or_pos size with rfl | hpos
  · rw [LRUCache.safeRun_zero_iff, or_iff_right (Nat.not_succ_le_zero 0)]
  · exact ⟨fun _ => .inl hpos, fun _ => LRUCache.safeRun_of_pos hpos calls⟩

/-- The first `put` into a cache of capacity 0. -/
theorem put_in_empty_cache : ¬ ∀ (size : ℕ) (calls : List (Call Bytes Bytes)),
    LRUCache.SafeRun size calls := by
  intro h
  obtain ⟨k, hk⟩ := (LRUCache.safeRun_zero_iff _).1 (h 0 [.put (ascii "hash") (ascii "block")]) _
    (List.mem_singleton_self _)
  cases hk

end BlockchainMessaging
