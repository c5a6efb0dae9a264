import BlockchainMessaging.Lib.Lru
import BlockchainMessaging.Lib.NodeList
import Mathlib.Data.Finmap

/-!
# The LRU cache (`utils/cache_manager.hpp`)

`lruList` is a list of addressed nodes, and the map holds an address next to each value. The result
`none` is undefined behaviour: `back` or `pop_back` of an empty list, or an iterator whose node has
been erased. `get` is declared `const` although it splices `lruList`; it is read as if `lruList` were
mutable.
-/

namespace BlockchainMessaging
open Lru

structure LRUCache (K V : Type*) where
  capacity : ℕ
  lruList : NodeList K
  cache : Finmap fun _ : K => V × ℕ

namespace LRUCache
variable {K V : Type*} [DecidableEq K]

def init (size : ℕ) : LRUCache K V :=
  { capacity := size, lruList := .empty, cache := ∅ }

/-- The two branches of `put`: the key's own node or, in a full cache, the last one is taken out. -/
def makeRoom (key : K) (c : LRUCache K V) : Option (LRUCache K V) :=
  match c.cache.lookup key with
  | some entry => (c.lruList.erase entry.2).map fun lruList => { c with lruList := lruList }
  | none =>
    if c.cache.keys.card ≥ c.capacity then
      c.lruList.back.bind fun last => c.lruList.popBack.map fun lruList =>
        { c with cache := c.cache.erase last, lruList := lruList }
    else some c

def pushEntry (key : K) (value : V) (c : LRUCache K V) : LRUCache K V :=
  let lruList := c.lruList.pushFront key
  { c with lruList := lruList, cache := c.cache.insert key (value, lruList.begin) }

def put (key : K) (value : V) (c : LRUCache K V) : Option (LRUCache K V) :=
  (c.makeRoom key).map (pushEntry key value)

/-- The inner `none` is the result `false`, which leaves the argument `value` alone. -/
def get (key : K) (c : LRUCache K V) : Option (Option V × LRUCache K V) :=
  match c.cache.lookup key with
  | none => some (none, c)
  | some entry => (c.lruList.spliceFront entry.2).map fun lruList =>
    (some entry.1, { c with lruList := lruList })

/-! ### Runs -/

def exec (c : LRUCache K V) : Call K V → Option (Event K V × LRUCache K V)
  | .put key value => (c.put key value).map fun c => (.put key value, c)
  | .get key => (c.get key).map fun r =>
    (match r.1 with
      | some value => .hit key value
      | none => .miss key, r.2)

def run (c : LRUCache K V) : List (Call K V) → Option (List (Event K V) × LRUCache K V)
  | [] => some ([], c)
  | call :: calls => (c.exec call).bind fun r => (r.2.run calls).map fun s => (r.1 :: s.1, s.2)

/-! ### What the list and the map stand for -/

/-- The list and the map hold the entries `l`, but for what the map says of keys in `S`. -/
structure Holds (S : Set K) (c : LRUCache K V) (l : List (K × V)) : Prop where
  keys : c.lruList.toList = l.map Prod.fst
  nodup : NodupKeys l
  lookup : ∀ k ∉ S, ∀ v it, c.cache.lookup k = some (v, it) ↔ (k, v) ∈ l ∧ (it, k) ∈ c.lruList.nodes

namespace Holds
variable {c : LRUCache K V} {l : List (K × V)} {S : Set K} {k : K} {v : V} {it : ℕ}

theorem init (size : ℕ) : Holds ∅ (init size : LRUCache K V) [] where
  keys := rfl
  nodup := List.nodup_nil
  lookup k _ v it := by simp [LRUCache.init]

theorem nodup_toList (h : Holds S c l) : c.lruList.toList.Nodup := by
  rw [h.keys]
  exact h.nodup

theorem mem_keys_iff (h : Holds S c l) : k ∈ l.map Prod.fst ↔ ∃ it, (it, k) ∈ c.lruList.nodes := by
  rw [← h.keys, NodeList.toList, List.mem_map]
  constructor
  · rintro ⟨⟨it, _⟩, hn, rfl⟩
    exact ⟨it, hn⟩
  · rintro ⟨it, hn⟩
    exact ⟨_, hn, rfl⟩

theorem lookup_iff (h : Holds ∅ c l) :
    c.cache.lookup k = some (v, it) ↔ (k, v) ∈ l ∧ (it, k) ∈ c.lruList.nodes :=
  h.lookup k (Set.notMem_empty k) v it

theorem lookup_eq_none_iff (h : Holds ∅ c l) : c.cache.lookup k = none ↔ k ∉ l.map Prod.fst := by
  constructor
  · intro hnone hk
    obtain ⟨it, hit⟩ := h.mem_keys_iff.1 hk
    obtain ⟨⟨_, v⟩, hv, rfl⟩ := List.mem_map.1 hk
    rw [h.lookup_iff.2 ⟨hv, hit⟩] at hnone
    cases hnone
  · intro hk
    cases hl : c.cache.lookup k with
    | none => rfl
    | some entry =>
      have hmem := (h.lookup_iff.1 hl).1
      exact absurd (List.mem_map_of_mem hmem) hk

theorem mem_cache_iff (h : Holds ∅ c l) : k ∈ c.cache ↔ k ∈ l.map Prod.fst := by
  rw [← not_iff_not, ← h.lookup_eq_none_iff, Finmap.lookup_eq_none]

theorem card_keys (h : Holds ∅ c l) : c.cache.keys.card = l.length := by
  have hkeys : c.cache.keys = (l.map Prod.fst).toFinset := by
    ext k
    rw [Finmap.mem_keys, h.mem_cache_iff, List.mem_toFinset]
  rw [hkeys, List.toFinset_card_of_nodup h.nodup, List.length_map]

theorem mono (h : Holds ∅ c l) (S : Set K) : Holds S c l :=
  ⟨h.keys, h.nodup, fun _ _ _ _ => h.lookup_iff⟩

/-- The node of `k` is erased, the map still has its entry. -/
theorem unlink (h : Holds ∅ c l) (hit : (it, k) ∈ c.lruList.nodes) :
    Holds {k} { c with lruList := c.lruList.unlink it } (without k l) := by
  refine ⟨?_, ?_, fun k' hk' v it' => ?_⟩
  · show (c.lruList.unlink it).toList = _
    rw [NodeList.toList_unlink h.nodup_toList hit, h.keys, map_fst_without]
  · rw [NodupKeys, map_fst_without]
    exact h.nodup.filter _
  · have hne : k' ≠ k := fun heq => hk' (Set.mem_singleton_iff.2 heq)
    rw [mem_without, NodeList.mem_unlink]
    refine h.lookup_iff.trans ⟨?_, fun h => ⟨h.1.1, h.2.1⟩⟩
    rintro ⟨h1, h2⟩
    refine ⟨⟨h1, hne⟩, h2, fun heq => hne ?_⟩
    exact congrArg Prod.snd (NodeList.eq_of_fst_eq h2 hit heq)

/-- The last node is popped, and its key erased from the map. -/
theorem evict {e : K × V} (h : Holds ∅ c (l ++ [e])) :
    ∃ lruList, c.lruList.back = some e.1 ∧ c.lruList.popBack = some lruList ∧
      Holds ∅ { c with cache := c.cache.erase e.1, lruList := lruList } l := by
  have hkeys := h.keys
  have hnd := h.nodup
  rw [List.map_append, List.map_singleton] at hkeys
  rw [NodupKeys, List.map_append, List.map_singleton, List.nodup_append'] at hnd
  have hnot : e.1 ∉ l.map Prod.fst := fun hmem => hnd.2.2 hmem (List.mem_singleton_self _)
  obtain ⟨nodes, last, hnodes, hinit, hlast⟩ := List.map_eq_append_iff.1 hkeys
  obtain ⟨n, rfl, hn⟩ := List.map_eq_singleton_iff.1 hlast
  have hne : c.lruList.nodes ≠ [] := by rw [hnodes]; simp
  obtain ⟨lruList, hpop, hpopped⟩ := NodeList.popBack_of_ne_nil hne
  rw [hnodes, List.dropLast_concat] at hpopped
  refine ⟨lruList, ?_, hpop, ?_, hnd.1, fun k' _ v it => ?_⟩
  · rw [NodeList.back, hkeys, List.getLast?_concat]
  · show lruList.nodes.map Prod.snd = l.map Prod.fst
    rw [hpopped, hinit]
  · show (c.cache.erase e.1).lookup k' = _ ↔ (k', v) ∈ l ∧ (it, k') ∈ lruList.nodes
    rw [hpopped]
    by_cases hk : k' = e.1
    · subst hk
      rw [Finmap.lookup_erase]
      exact ⟨fun h => by (cases h), fun h => absurd (List.mem_map.2 ⟨_, h.1, rfl⟩) hnot⟩
    · have h1 : (k', v) ≠ e := fun heq => hk (congrArg Prod.fst heq)
      have h2 : (it, k') ≠ n := fun heq => hk ((congrArg Prod.snd heq).trans hn)
      rw [Finmap.lookup_erase_ne hk, h.lookup_iff, hnodes, List.mem_append,
        List.mem_append, List.mem_singleton, List.mem_singleton, or_iff_left h1, or_iff_left h2]

/-- A node for `k` is put in front, with the entry of the map that names it. -/
theorem cons {c' : LRUCache K V} (h : Holds {k} c l) (hk : k ∉ l.map Prod.fst)
    (hnodes : c'.lruList.nodes = (it, k) :: c.lruList.nodes)
    (hself : c'.cache.lookup k = some (v, it))
    (hother : ∀ k' ≠ k, c'.cache.lookup k' = c.cache.lookup k') : Holds ∅ c' ((k, v) :: l) := by
  refine ⟨?_, List.nodup_cons.2 ⟨hk, h.nodup⟩, fun k' _ v' it' => ?_⟩
  · rw [NodeList.toList, hnodes, List.map_cons, List.map_cons, ← h.keys]
    rfl
  · rw [hnodes, List.mem_cons, List.mem_cons]
    by_cases heq : k' = k
    · subst heq
      have hl : (k', v') ∉ l := fun hmem => hk (List.mem_map.2 ⟨_, hmem, rfl⟩)
      have hn : (it', k') ∉ c.lruList.nodes := fun hit => hk (h.mem_keys_iff.2 ⟨it', hit⟩)
      rw [hself, or_iff_left hl, or_iff_left hn]
      simp only [Option.some.injEq, Prod.mk.injEq, true_and, and_true, eq_comm]
    · have h1 : (k', v') ≠ (k, v) := fun h => heq (congrArg Prod.fst h)
      have h2 : (it', k') ≠ (it, k) := fun h => heq (congrArg Prod.snd h)
      rw [hother k' heq, or_iff_right h1, or_iff_right h2]
      exact h.lookup k' (fun hs => heq (Set.mem_singleton_iff.1 hs)) v' it'

theorem pushEntry (h : Holds {k} c l) (hk : k ∉ l.map Prod.fst) (v : V) :
    Holds ∅ (c.pushEntry k v) ((k, v) :: l) :=
  h.cons hk rfl (Finmap.lookup_insert _) fun _ hne => Finmap.lookup_insert_of_ne _ hne

end Holds

structure Implements (c : LRUCache K V) (l : List (K × V)) : Prop where
  holds : Holds ∅ c l
  length_le : l.length ≤ c.capacity

namespace Implements
variable {c : LRUCache K V} {l : List (K × V)}

theorem init (size : ℕ) : Implements (init size : LRUCache K V) [] :=
  ⟨Holds.init size, Nat.zero_le _⟩

theorem makeRoom (h : Implements c l) (hc : 1 ≤ c.capacity) (k : K) :
    ∃ c', c.makeRoom k = some c' ∧ c'.capacity = c.capacity ∧
      Holds {k} c' ((without k l).take (c.capacity - 1)) := by
  cases hl : c.cache.lookup k with
  | some entry =>
    obtain ⟨hmem, hit⟩ := h.holds.lookup_iff.1 hl
    have hk : k ∈ l.map Prod.fst := List.mem_map_of_mem hmem
    have hlen := length_without h.holds.nodup hk
    have hle := h.length_le
    refine ⟨{ c with lruList := c.lruList.unlink entry.2 }, ?_, rfl, ?_⟩
    · simp only [LRUCache.makeRoom, hl, NodeList.erase_of_mem hit, Option.map_some]
    · rw [List.take_of_length_le (by omega)]
      exact h.holds.unlink hit
  | none =>
    have hk := h.holds.lookup_eq_none_iff.1 hl
    rw [without_eq_self hk]
    rcases Nat.lt_or_ge l.length c.capacity with hlt | hge
    · refine ⟨c, ?_, rfl, ?_⟩
      · simp only [LRUCache.makeRoom, hl, h.holds.card_keys, ge_iff_le, Nat.not_le.2 hlt, if_false]
      · rw [List.take_of_length_le (by omega)]
        exact h.holds.mono _
    · have hne : l ≠ [] := List.ne_nil_of_length_pos (by omega)
      obtain ⟨rest, e, rfl⟩ := (List.eq_nil_or_concat' l).resolve_left hne
      obtain ⟨lruList, hback, hpop, hholds⟩ := h.holds.evict
      have hle := h.length_le
      rw [List.length_append, List.length_singleton] at hge hle
      refine ⟨{ c with cache := c.cache.erase e.1, lruList := lruList }, ?_, rfl, ?_⟩
      · simp only [LRUCache.makeRoom, hl, h.holds.card_keys, List.length_append,
          List.length_singleton, ge_iff_le, hge, if_true, hback, hpop, Option.bind_some,
          Option.map_some]
      · rw [List.take_append_of_le_length (by omega), List.take_of_length_le (by omega)]
        exact hholds.mono _

theorem put (h : Implements c l) (hc : 1 ≤ c.capacity) (k : K) (v : V) :
    ∃ c', c.put k v = some c' ∧ c'.capacity = c.capacity ∧
      Implements c' (Lru.put c.capacity k v l) := by
  obtain ⟨c', hroom, hcap, hholds⟩ := h.makeRoom hc k
  obtain ⟨n, hn⟩ : ∃ n, c.capacity = n + 1 := ⟨c.capacity - 1, by omega⟩
  have hk : k ∉ ((without k l).take (c.capacity - 1)).map Prod.fst := by
    rw [List.map_take, map_fst_without]
    exact fun hmem => by simpa using List.of_mem_filter (List.mem_of_mem_take hmem)
  have hput : Lru.put c.capacity k v l = (k, v) :: (without k l).take (c.capacity - 1) := by
    rw [Lru.put, touch, hn, List.take_succ_cons, Nat.add_sub_cancel]
  refine ⟨c'.pushEntry k v, by rw [LRUCache.put, hroom]; rfl, hcap, ?_, ?_⟩
  · rw [hput]
    exact hholds.pushEntry hk v
  · show _ ≤ c'.capacity
    rw [hcap]
    exact List.length_take_le _ _

theorem get (h : Implements c l) (k : K) :
    (find k l = none ∧ c.get k = some (none, c)) ∨
      ∃ v c', find k l = some v ∧ c.get k = some (some v, c') ∧ c'.capacity = c.capacity ∧
        Implements c' (touch k v l) := by
  cases hl : c.cache.lookup k with
  | none =>
    refine .inl ⟨find_eq_none_iff.2 (h.holds.lookup_eq_none_iff.1 hl), ?_⟩
    simp only [LRUCache.get, hl]
  | some entry =>
    obtain ⟨hmem, hit⟩ := h.holds.lookup_iff.1 hl
    have hk : k ∉ (without k l).map Prod.fst := by
      rw [map_fst_without]
      exact fun hmem => by simpa using List.of_mem_filter hmem
    obtain ⟨lruList, hsplice, hnodes⟩ := NodeList.spliceFront_of_mem hit
    have hfind := (find_eq_some_iff h.holds.nodup).2 hmem
    refine .inr ⟨entry.1, { c with lruList := lruList }, hfind, ?_, rfl, ?_, ?_⟩
    · simp only [LRUCache.get, hl, hsplice, Option.map_some]
    · exact (h.holds.unlink hit).cons hk hnodes hl fun _ _ => rfl
    · show (touch k entry.1 l).length ≤ c.capacity
      rw [touch, List.length_cons, length_without h.holds.nodup (List.mem_map_of_mem hmem)]
      exact h.length_le

theorem exec (h : Implements c l) (hc : 1 ≤ c.capacity) (call : Call K V) :
    ∃ c', c.exec call = some ((Lru.exec c.capacity l call).1, c') ∧ c'.capacity = c.capacity ∧
      Implements c' (Lru.exec c.capacity l call).2 := by
  cases call with
  | put k v =>
    obtain ⟨c', hput, hcap, himp⟩ := h.put hc k v
    exact ⟨c', by rw [LRUCache.exec, hput]; rfl, hcap, himp⟩
  | get k =>
    rcases h.get k with ⟨hfind, hget⟩ | ⟨v, c', hfind, hget, hcap, himp⟩
    · refine ⟨c, ?_, rfl, ?_⟩
      · simp only [LRUCache.exec, hget, Option.map_some, Lru.exec, hfind]
      · simp only [Lru.exec, hfind]
        exact h
    · refine ⟨c', ?_, hcap, ?_⟩
      · simp only [LRUCache.exec, hget, Option.map_some, Lru.exec, hfind]
      · simp only [Lru.exec, hfind]
        exact himp

/-- A cache that implements a list runs as the list does. -/
theorem run (h : Implements c l) (hc : 1 ≤ c.capacity) (calls : List (Call K V)) :
    ∃ c', c.run calls = some ((Lru.run c.capacity l calls).1, c') ∧ c'.capacity = c.capacity ∧
      Implements c' (Lru.run c.capacity l calls).2 := by
  induction calls generalizing c l with
  | nil => exact ⟨c, rfl, rfl, h⟩
  | cons call calls ih =>
    obtain ⟨mid, hexec, hcap, himp⟩ := h.exec hc call
    obtain ⟨c', hrun, hcap', himp'⟩ := ih himp (hcap ▸ hc)
    rw [hcap] at hrun hcap' himp'
    refine ⟨c', ?_, hcap', himp'⟩
    rw [LRUCache.run, hexec]
    simp only [Option.bind_some, hrun, Option.map_some]
    rfl

end Implements
end LRUCache
end BlockchainMessaging
