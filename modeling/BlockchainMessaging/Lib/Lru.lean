import Mathlib.Data.List.Basic
import Mathlib.Data.List.Dedup
import Mathlib.Data.List.DropRight
import Mathlib.Data.List.Lemmas

/-!
# Least-recently-used caches as lists

A cache of capacity `c` is the list of its entries, the most recently used first: `put` moves or
brings an entry to the front and cuts the list to `c` entries, a `get` that finds its key moves the
entry to the front. `recency es` is the list of all keys used in the events `es`, the most recently
used first. `run_eq_take` says that a cache holds the first `c` of them, `Inclusion.run` that a
larger cache holds what a smaller one holds.
-/

namespace Lru
variable {K V : Type*}

inductive Call (K V : Type*) where
  | put (key : K) (value : V)
  | get (key : K)

/-- A call with its outcome. -/
inductive Event (K V : Type*) where
  | put (key : K) (value : V)
  | hit (key : K) (value : V)
  | miss (key : K)

namespace Event

def call : Event K V → Call K V
  | put key value => .put key value
  | hit key _ => .get key
  | miss key => .get key

/-- The key the event uses: a `get` that misses uses none. -/
def used : Event K V → Option K
  | put key _ => some key
  | hit key _ => some key
  | miss _ => none

end Event

variable [DecidableEq K]

def find (k : K) (l : List (K × V)) : Option V :=
  (l.find? fun e => e.1 = k).map Prod.snd

def without (k : K) (l : List (K × V)) : List (K × V) :=
  l.filter fun e => e.1 != k

def touch (k : K) (v : V) (l : List (K × V)) : List (K × V) :=
  (k, v) :: without k l

def put (c : ℕ) (k : K) (v : V) (l : List (K × V)) : List (K × V) :=
  (touch k v l).take c

def exec (c : ℕ) (l : List (K × V)) : Call K V → Event K V × List (K × V)
  | .put k v => (.put k v, put c k v l)
  | .get k =>
    match find k l with
    | none => (.miss k, l)
    | some v => (.hit k v, touch k v l)

def run (c : ℕ) : List (K × V) → List (Call K V) → List (Event K V) × List (K × V)
  | l, [] => ([], l)
  | l, call :: calls =>
    let r := exec c l call
    let s := run c r.2 calls
    (r.1 :: s.1, s.2)

/-! ### Entries -/

def NodupKeys (l : List (K × V)) : Prop :=
  (l.map Prod.fst).Nodup

theorem mem_without {k : K} {l : List (K × V)} {e : K × V} : e ∈ without k l ↔ e ∈ l ∧ e.1 ≠ k := by
  simp [without]

theorem map_fst_without (k : K) (l : List (K × V)) :
    (without k l).map Prod.fst = (l.map Prod.fst).filter (· != k) := by
  rw [List.filter_map]
  rfl

theorem without_eq_self {k : K} {l : List (K × V)} (h : k ∉ l.map Prod.fst) : without k l = l := by
  refine List.filter_eq_self.2 fun e he => ?_
  rw [bne_iff_ne]
  rintro rfl
  exact h (List.mem_map_of_mem he)

theorem length_without {k : K} {l : List (K × V)} (hn : NodupKeys l) (h : k ∈ l.map Prod.fst) :
    (without k l).length + 1 = l.length := by
  have hlen := congrArg List.length (map_fst_without k l)
  rw [List.length_map, ← hn.erase_eq_filter, List.length_erase_of_mem h, List.length_map] at hlen
  have hpos := List.length_pos_of_mem h
  rw [List.length_map] at hpos
  omega

theorem length_without_eq {l : List (K × V)} (hn : NodupKeys l) (k : K) :
    (without k l).length = if k ∈ l.map Prod.fst then l.length - 1 else l.length := by
  split
  · rename_i hk
    have := length_without hn hk
    omega
  · rename_i hk
    rw [without_eq_self hk]

theorem NodupKeys.touch {l : List (K × V)} (hn : NodupKeys l) (k : K) (v : V) :
    NodupKeys (touch k v l) := by
  rw [NodupKeys, Lru.touch, List.map_cons, map_fst_without]
  exact List.nodup_cons.2 ⟨fun h => by simpa using List.of_mem_filter h, hn.filter _⟩

theorem find_eq_some_iff {l : List (K × V)} (hn : NodupKeys l) {k : K} {v : V} :
    find k l = some v ↔ (k, v) ∈ l := by
  induction l with
  | nil => simp [find]
  | cons e l ih =>
    obtain ⟨hnot, hn'⟩ := List.nodup_cons.1 hn
    by_cases hk : e.1 = k
    · subst hk
      have hmem : (e.1, v) ∉ l := fun h => hnot (List.mem_map.2 ⟨_, h, rfl⟩)
      simp [find, hmem, Prod.ext_iff, eq_comm]
    · have hrec : find k (e :: l) = find k l := by simp [find, hk]
      have hne : (k, v) ≠ e := by rintro rfl; exact hk rfl
      rw [hrec, ih hn', List.mem_cons, or_iff_right hne]

theorem find_eq_none_iff {l : List (K × V)} {k : K} : find k l = none ↔ k ∉ l.map Prod.fst := by
  simp only [find, Option.map_eq_none_iff, List.find?_eq_none, decide_eq_true_eq, List.mem_map,
    not_exists, not_and]

theorem mem_keys_of_find {l : List (K × V)} {k : K} {v : V} (h : find k l = some v) :
    k ∈ l.map Prod.fst := by
  by_contra hk
  rw [find_eq_none_iff.2 hk] at h
  cases h

theorem find_append_of_mem {l : List (K × V)} {k : K} (h : k ∈ l.map Prod.fst)
    (l' : List (K × V)) : find k (l ++ l') = find k l := by
  cases hf : find k l with
  | none => exact absurd h (find_eq_none_iff.1 hf)
  | some v =>
    obtain ⟨e, he, rfl⟩ := Option.map_eq_some_iff.1 hf
    rw [find, List.find?_append, he, Option.some_or, Option.map_some]

def entriesOf (key : V → K) (values : List V) : List (K × V) :=
  values.map fun v => (key v, v)

theorem find_entriesOf_reverse (key : V → K) (k : K) (values : List V) :
    find k (entriesOf key values).reverse = values.reverse.find? fun v => key v = k := by
  rw [find, entriesOf, ← List.map_reverse, List.find?_map, Option.map_map]
  exact Option.map_id' ..

/-! ### The recency list -/

/-- The distinct keys used in the events, the most recently used first. -/
def recency (es : List (Event K V)) : List K :=
  (es.filterMap Event.used).dedup.reverse

/-- The keys used after the last use of `k`. -/
def usedSince (k : K) (es : List (Event K V)) : List K :=
  (es.filterMap Event.used).rtakeWhile (· ≠ k)

theorem dedup_concat (us : List K) (x : K) :
    (us ++ [x]).dedup = us.dedup.filter (· != x) ++ [x] := by
  induction us with
  | nil => rfl
  | cons a us ih =>
    rw [List.cons_append]
    by_cases ha : a ∈ us
    · rw [List.dedup_cons_of_mem (List.mem_append_left _ ha), List.dedup_cons_of_mem ha, ih]
    · rw [List.dedup_cons_of_notMem ha]
      by_cases hx : a = x
      · subst hx
        rw [List.dedup_cons_of_mem (by simp), ih, List.filter_cons_of_neg (by simp)]
      · rw [List.dedup_cons_of_notMem (by simp [ha, hx]), ih,
          List.filter_cons_of_pos (by simpa using hx)]
        rfl

theorem recency_concat_of_used {es : List (Event K V)} {e : Event K V} {k : K}
    (h : e.used = some k) : recency (es ++ [e]) = k :: (recency es).filter (· != k) := by
  rw [recency, recency, List.filterMap_append, List.filterMap_cons_some h, List.filterMap_nil,
    dedup_concat, List.reverse_append, List.filter_reverse]
  rfl

theorem recency_concat_of_not_used {es : List (Event K V)} {e : Event K V} (h : e.used = none) :
    recency (es ++ [e]) = recency es := by
  rw [recency, recency, List.filterMap_append, List.filterMap_cons_none h, List.filterMap_nil,
    List.append_nil]

theorem mem_recency {es : List (Event K V)} {k : K} :
    k ∈ recency es ↔ k ∈ es.filterMap Event.used := by
  rw [recency, List.mem_reverse, List.mem_dedup]

theorem eq_append_rtakeWhile {us : List K} {k : K} (h : k ∈ us) :
    ∃ before, us = before ++ k :: us.rtakeWhile (· ≠ k) := by
  induction us using List.reverseRecOn with
  | nil => cases h
  | append_singleton us x ih =>
    by_cases hx : x = k
    · subst hx
      exact ⟨us, by rw [List.rtakeWhile_concat_neg _ _ _ (by simp)]⟩
    · have hmem : k ∈ us := by
        rcases List.mem_append.1 h with h | h
        · exact h
        · exact absurd (List.mem_singleton.1 h).symm hx
      obtain ⟨before, hb⟩ := ih hmem
      refine ⟨before, ?_⟩
      rw [List.rtakeWhile_concat_pos _ _ _ (by simpa using hx), ← List.cons_append,
        ← List.append_assoc, ← hb]

/-- The keys used after the last use of `k`, then `k` itself. -/
theorem recency_eq_append {es : List (Event K V)} {k : K} (hk : k ∈ recency es) :
    ∃ older, recency es = (usedSince k es).dedup.reverse ++ k :: older := by
  obtain ⟨before, hb⟩ := eq_append_rtakeWhile (mem_recency.1 hk)
  have hnot : k ∉ usedSince k es := fun h => by simpa using List.mem_rtakeWhile_imp h
  obtain ⟨t, ht⟩ := List.suffix_union_right before (k :: usedSince k es).dedup
  refine ⟨t.reverse, ?_⟩
  rw [recency, hb, ← usedSince, List.dedup_append, ← ht, List.dedup_cons_of_notMem hnot]
  simp

theorem nodup_recency (es : List (Event K V)) : (recency es).Nodup :=
  List.nodup_reverse.2 (List.nodup_dedup _)

/-- A used key is among the first `c` exactly when fewer than `c` other keys were used since. -/
theorem mem_take_recency_iff {es : List (Event K V)} {k : K} (hk : k ∈ recency es) (c : ℕ) :
    k ∈ (recency es).take c ↔ (usedSince k es).dedup.length < c := by
  obtain ⟨older, heq⟩ := recency_eq_append hk
  have hnot : k ∉ (usedSince k es).dedup.reverse := by
    have hnd := nodup_recency es
    rw [heq, List.nodup_append'] at hnd
    exact fun h => hnd.2.2 h List.mem_cons_self
  rw [heq, List.take_append, List.mem_append, List.length_reverse,
    or_iff_right (fun h => hnot (List.mem_of_mem_take h))]
  obtain hlt | hge := Nat.lt_or_ge (usedSince k es).dedup.length c
  · obtain ⟨n, hn⟩ : ∃ n, c - (usedSince k es).dedup.length = n + 1 :=
      ⟨c - (usedSince k es).dedup.length - 1, by omega⟩
    rw [hn, List.take_succ_cons]
    simp [hlt]
  · rw [Nat.sub_eq_zero_of_le hge, List.take_zero]
    simp [Nat.not_lt.2 hge]

/-! ### The entries of all used keys -/

def record (l : List (K × V)) : Event K V → List (K × V)
  | .put k v => touch k v l
  | .hit k v => touch k v l
  | .miss _ => l

def history (es : List (Event K V)) : List (K × V) :=
  es.foldl record []

def Event.putValue (k : K) : Event K V → Option V
  | put key value => if key = k then some value else none
  | _ => none

def lastPut (k : K) (es : List (Event K V)) : Option V :=
  es.reverse.findSome? (Event.putValue k)

theorem history_concat (es : List (Event K V)) (e : Event K V) :
    history (es ++ [e]) = record (history es) e :=
  List.foldl_concat ..

theorem lastPut_concat (k : K) (es : List (Event K V)) (e : Event K V) :
    lastPut k (es ++ [e]) = (e.putValue k).or (lastPut k es) := by
  rw [lastPut, List.reverse_append, List.reverse_singleton, List.singleton_append,
    List.findSome?_cons]
  cases e.putValue k <;> rfl

theorem map_fst_history (es : List (Event K V)) : (history es).map Prod.fst = recency es := by
  induction es using List.reverseRecOn with
  | nil => rfl
  | append_singleton es e ih =>
    rw [history_concat]
    cases e with
    | put k v =>
      rw [record, touch, List.map_cons, map_fst_without, ih, recency_concat_of_used rfl]
    | hit k v =>
      rw [record, touch, List.map_cons, map_fst_without, ih, recency_concat_of_used rfl]
    | miss k => rw [record, ih, recency_concat_of_not_used rfl]

theorem nodupKeys_history (es : List (Event K V)) : NodupKeys (history es) := by
  rw [NodupKeys, map_fst_history]
  exact nodup_recency es

/-- The entries of the history are those of the last `put`s: no `get` reported another value. -/
def Coherent (es : List (Event K V)) : Prop :=
  ∀ k v, (k, v) ∈ history es → lastPut k es = some v

theorem Coherent.put {es : List (Event K V)} (h : Coherent es) (k : K) (v : V) :
    Coherent (es ++ [.put k v]) := by
  intro k' v' hmem
  rw [history_concat, record, touch, List.mem_cons, mem_without] at hmem
  rw [lastPut_concat, Event.putValue]
  rcases hmem with heq | ⟨hmem, hne⟩
  · obtain ⟨rfl, rfl⟩ := Prod.mk.inj heq
    rw [if_pos rfl, Option.some_or]
  · rw [if_neg (Ne.symm hne), Option.none_or]
    exact h k' v' hmem

theorem Coherent.hit {es : List (Event K V)} (h : Coherent es) {k : K} {v : V}
    (hkv : (k, v) ∈ history es) : Coherent (es ++ [.hit k v]) := by
  intro k' v' hmem
  rw [history_concat, record, touch, List.mem_cons, mem_without] at hmem
  rw [lastPut_concat]
  show lastPut k' es = some v'
  rcases hmem with heq | ⟨hmem, -⟩
  · rw [heq.symm] at hkv
    exact h k' v' hkv
  · exact h k' v' hmem

theorem Coherent.miss {es : List (Event K V)} (h : Coherent es) (k : K) :
    Coherent (es ++ [.miss k]) := by
  intro k' v' hmem
  rw [history_concat, record] at hmem
  rw [lastPut_concat]
  exact h k' v' hmem

/-! ### Entries put, in order -/

def Event.putEntry : Event K V → Option (K × V)
  | put key value => some (key, value)
  | _ => none

def puts (es : List (Event K V)) : List (K × V) :=
  es.filterMap Event.putEntry

def putAll (entries : List (K × V)) : List (Event K V) :=
  entries.map fun e => .put e.1 e.2

omit [DecidableEq K] in
theorem puts_append (es es' : List (Event K V)) : puts (es ++ es') = puts es ++ puts es' :=
  List.filterMap_append

omit [DecidableEq K] in
theorem puts_putAll (entries : List (K × V)) : puts (putAll entries) = entries := by
  rw [puts, putAll, List.filterMap_map]
  exact List.filterMap_some

theorem lastPut_eq_find (k : K) (es : List (Event K V)) :
    lastPut k es = find k (puts es).reverse := by
  induction es using List.reverseRecOn with
  | nil => rfl
  | append_singleton es e ih =>
    rw [lastPut_concat, ih, puts_append, List.reverse_append]
    cases e with
    | put key value =>
      show (if key = k then some value else none).or (find k (puts es).reverse) =
        find k ((key, value) :: (puts es).reverse)
      by_cases hk : key = k <;> simp [find, hk]
    | hit => rfl
    | miss => rfl

theorem recency_append_putAll (es : List (Event K V)) (entries : List (K × V)) :
    ∃ older, recency (es ++ putAll entries) = (entries.map Prod.fst).dedup.reverse ++ older := by
  have hused : (putAll entries).filterMap Event.used = entries.map Prod.fst := by
    rw [putAll, List.filterMap_map, ← List.filterMap_eq_map]
    rfl
  obtain ⟨t, ht⟩ := List.suffix_union_right (es.filterMap Event.used) (entries.map Prod.fst).dedup
  refine ⟨t.reverse, ?_⟩
  rw [recency, List.filterMap_append, hused, List.dedup_append, ← ht, List.reverse_append]

/-- Of the keys just put, the most recently used ones are those whose last use is the latest. -/
theorem mem_take_recency_append_putAll {entries : List (K × V)} {k : K}
    (hk : k ∈ entries.map Prod.fst) (es : List (Event K V)) (c : ℕ) :
    k ∈ (recency (es ++ putAll entries)).take c ↔
      k ∈ ((entries.map Prod.fst).dedup.reverse).take c := by
  obtain ⟨older, heq⟩ := recency_append_putAll es entries
  have hnd := nodup_recency (es ++ putAll entries)
  rw [heq, List.nodup_append'] at hnd
  have hmem : k ∈ (entries.map Prod.fst).dedup.reverse :=
    List.mem_reverse.2 (List.mem_dedup.2 hk)
  rw [heq, List.take_append, List.mem_append,
    or_iff_left fun h => hnd.2.2 hmem (List.mem_of_mem_take h)]

/-! ### A cache holds the front of the history -/

/-- Taking an entry out of `n + 1` leaves room for `n`. -/
theorem take_without {n : ℕ} {k : K} {l : List (K × V)} (hn : NodupKeys l) :
    (without k (l.take (n + 1))).take n = (without k l).take n := by
  induction l generalizing n with
  | nil => rfl
  | cons e l ih =>
    obtain ⟨hnot, hn'⟩ := List.nodup_cons.1 hn
    rw [List.take_succ_cons]
    by_cases hk : e.1 = k
    · have hl : k ∉ l.map Prod.fst := hk ▸ hnot
      have hl' : k ∉ (l.take n).map Prod.fst := fun h => by
        rw [List.map_take] at h
        exact hl (List.mem_of_mem_take h)
      have hdrop : ∀ m : List (K × V), without k (e :: m) = without k m := fun m =>
        List.filter_cons_of_neg (by simpa using hk)
      rw [hdrop, hdrop, without_eq_self hl, without_eq_self hl', List.take_take, min_self]
    · have hkeep : ∀ m : List (K × V), without k (e :: m) = e :: without k m := fun m =>
        List.filter_cons_of_pos (by simpa using hk)
      rw [hkeep, hkeep]
      cases n with
      | zero => rfl
      | succ n => rw [List.take_succ_cons, List.take_succ_cons, ih hn']

theorem put_take {c : ℕ} (hc : 1 ≤ c) {l : List (K × V)} (hn : NodupKeys l) (k : K) (v : V) :
    put c k v (l.take c) = (touch k v l).take c := by
  obtain ⟨n, rfl⟩ : ∃ n, c = n + 1 := ⟨c - 1, by omega⟩
  rw [put, touch, touch, List.take_succ_cons, List.take_succ_cons, take_without hn]

/-- An entry that is there is moved, not brought in. -/
theorem touch_take {c : ℕ} (hc : 1 ≤ c) {l : List (K × V)} (hn : NodupKeys l) {k : K}
    (hk : k ∈ (l.take c).map Prod.fst) (v : V) : touch k v (l.take c) = (touch k v l).take c := by
  have hlen : (touch k v (l.take c)).length ≤ c := by
    have hn' : NodupKeys (l.take c) := by
      rw [NodupKeys, List.map_take]
      exact hn.sublist (List.take_sublist _ _)
    rw [touch, List.length_cons, length_without hn' hk]
    exact List.length_take_le _ _
  rw [← put_take hc hn, put, List.take_of_length_le hlen]

theorem exec_take {c : ℕ} (hc : 1 ≤ c) {es : List (Event K V)} (hes : Coherent es)
    (call : Call K V) :
    let r := exec c ((history es).take c) call
    r.1.call = call ∧ Coherent (es ++ [r.1]) ∧ r.2 = (history (es ++ [r.1])).take c := by
  have hn := nodupKeys_history es
  have hn' : NodupKeys ((history es).take c) := by
    rw [NodupKeys, List.map_take]
    exact hn.sublist (List.take_sublist _ _)
  cases call with
  | put k v =>
    refine ⟨rfl, hes.put k v, ?_⟩
    rw [history_concat]
    exact put_take hc hn k v
  | get k =>
    intro r
    cases hf : find k ((history es).take c) with
    | none =>
      have hr : r = (.miss k, (history es).take c) := by simp [r, exec, hf]
      rw [hr, history_concat]
      exact ⟨rfl, hes.miss k, rfl⟩
    | some v =>
      have hr : r = (.hit k v, touch k v ((history es).take c)) := by simp [r, exec, hf]
      have hmem := List.mem_of_mem_take ((find_eq_some_iff hn').1 hf)
      rw [hr, history_concat]
      exact ⟨rfl, hes.hit hmem, touch_take hc hn (mem_keys_of_find hf) v⟩

/-- A run of a cache that holds the front of the history ends with the front of the history. -/
theorem run_eq_take {c : ℕ} (hc : 1 ≤ c) {es : List (Event K V)} (hes : Coherent es)
    (calls : List (Call K V)) :
    let r := run c ((history es).take c) calls
    r.1.map Event.call = calls ∧ Coherent (es ++ r.1) ∧ r.2 = (history (es ++ r.1)).take c := by
  induction calls generalizing es with
  | nil => simpa [run] using hes
  | cons call calls ih =>
    obtain ⟨hcall, hco, heq⟩ := exec_take hc hes call
    obtain ⟨h1, h2, h3⟩ := ih hco
    simp only [run, heq]
    refine ⟨?_, ?_, ?_⟩
    · rw [List.map_cons, hcall, h1]
    · simpa using h2
    · simpa using h3

/-! ### A larger cache holds what a smaller one holds -/

/-- The smaller cache holds the entries of the larger one that fit, in the same order; it is full
before the larger one loses an entry. -/
structure Inclusion (c₁ c₂ : ℕ) (l₁ l₂ : List (K × V)) : Prop where
  sublist : l₁.Sublist l₂
  length : l₁.length = min c₁ l₂.length
  bound : l₂.length ≤ c₂
  nodup : NodupKeys l₂

namespace Inclusion
variable {c₁ c₂ : ℕ} {l₁ l₂ : List (K × V)}

omit [DecidableEq K] in
theorem nodup_left (h : Inclusion c₁ c₂ l₁ l₂) : NodupKeys l₁ :=
  h.nodup.sublist (h.sublist.map _)

omit [DecidableEq K] in
theorem mem_keys (h : Inclusion c₁ c₂ l₁ l₂) {k : K} (hk : k ∈ l₁.map Prod.fst) :
    k ∈ l₂.map Prod.fst :=
  (h.sublist.map _).subset hk

omit [DecidableEq K] in
/-- A key that only the larger cache holds was lost by the smaller one, which is full. -/
theorem length_eq_of_notMem (h : Inclusion c₁ c₂ l₁ l₂) {k : K} (hk : k ∈ l₂.map Prod.fst)
    (hnot : k ∉ l₁.map Prod.fst) : l₁.length = c₁ := by
  by_contra hne
  have hlen := h.length
  have heq : l₁ = l₂ := h.sublist.eq_of_length (by omega)
  exact hnot (heq ▸ hk)

theorem touch_sublist (h : Inclusion c₁ c₂ l₁ l₂) (k : K) (v : V) :
    (touch k v l₁).Sublist (touch k v l₂) :=
  (h.sublist.filter _).cons_cons _

/-- What is left of the smaller cache in front of a new entry is left of the larger one. -/
theorem put_sublist (h : Inclusion c₁ c₂ l₁ l₂) (h₁ : 1 ≤ c₁) (hle : c₁ ≤ c₂) (k : K) (v : V) :
    (put c₁ k v l₁).Sublist (put c₂ k v l₂) := by
  obtain ⟨n₁, rfl⟩ : ∃ n, c₁ = n + 1 := ⟨c₁ - 1, by omega⟩
  obtain ⟨n₂, rfl⟩ : ∃ n, c₂ = n + 1 := ⟨c₂ - 1, by omega⟩
  have hlen := h.length
  have hbound := h.bound
  rw [put, put, touch, touch, List.take_succ_cons, List.take_succ_cons]
  refine List.Sublist.cons_cons _ ?_
  by_cases hk : k ∈ l₂.map Prod.fst
  · -- nothing is lost on the right
    have := length_without h.nodup hk
    rw [List.take_of_length_le (l := without k l₂) (by omega)]
    exact (List.take_sublist _ _).trans (h.sublist.filter _)
  · rw [without_eq_self hk, without_eq_self fun h' => hk (h.mem_keys h')]
    rcases Nat.lt_or_ge l₂.length (n₂ + 1) with hlt | hge
    · rw [List.take_of_length_le (l := l₂) (by omega)]
      exact (List.take_sublist _ _).trans h.sublist
    · -- both are full and lose their last entries
      have e₁ : l₁.take n₁ = l₁.dropLast := by
        rw [List.dropLast_eq_take, show l₁.length - 1 = n₁ by omega]
      have e₂ : l₂.take n₂ = l₂.dropLast := by
        rw [List.dropLast_eq_take, show l₂.length - 1 = n₂ by omega]
      have htail := h.sublist.reverse.tail.reverse
      rwa [List.tail_reverse, List.tail_reverse, List.reverse_reverse, List.reverse_reverse, ← e₁,
        ← e₂] at htail

theorem put (h : Inclusion c₁ c₂ l₁ l₂) (h₁ : 1 ≤ c₁) (hle : c₁ ≤ c₂) (k : K) (v : V) :
    Inclusion c₁ c₂ (put c₁ k v l₁) (put c₂ k v l₂) := by
  refine ⟨h.put_sublist h₁ hle k v, ?_, List.length_take_le _ _, ?_⟩
  · have hlen := h.length
    have hbound := h.bound
    have hw₁ := length_without_eq h.nodup_left k
    have hw₂ := length_without_eq h.nodup k
    simp only [Lru.put, List.length_take, touch, List.length_cons, hw₁, hw₂]
    by_cases hk₂ : k ∈ l₂.map Prod.fst
    · have hpos := List.length_pos_of_mem hk₂
      rw [List.length_map] at hpos
      by_cases hk₁ : k ∈ l₁.map Prod.fst
      · rw [if_pos hk₁, if_pos hk₂]
        omega
      · have hfull := h.length_eq_of_notMem hk₂ hk₁
        rw [if_neg hk₁, if_pos hk₂]
        omega
    · rw [if_neg hk₂, if_neg fun h' => hk₂ (h.mem_keys h')]
      omega
  · rw [NodupKeys, Lru.put, List.map_take]
    exact (h.nodup.touch k v).sublist (List.take_sublist _ _)

theorem length_touch (hn : NodupKeys l₁) {k : K} (hk : k ∈ l₁.map Prod.fst) (v : V) :
    (touch k v l₁).length = l₁.length :=
  length_without hn hk

theorem touch (h : Inclusion c₁ c₂ l₁ l₂) {k : K} (hk : k ∈ l₁.map Prod.fst) (v : V) :
    Inclusion c₁ c₂ (touch k v l₁) (touch k v l₂) := by
  have hlen₁ := length_touch h.nodup_left hk v
  have hlen₂ := length_touch h.nodup (h.mem_keys hk) v
  refine ⟨h.touch_sublist k v, ?_, ?_, h.nodup.touch k v⟩
  · rw [hlen₁, hlen₂, h.length]
  · rw [hlen₂]
    exact h.bound

theorem touch_right (h : Inclusion c₁ c₂ l₁ l₂) {k : K} (hnot : k ∉ l₁.map Prod.fst)
    (hk : k ∈ l₂.map Prod.fst) (v : V) : Inclusion c₁ c₂ l₁ (Lru.touch k v l₂) := by
  have hlen := length_touch h.nodup hk v
  refine ⟨?_, ?_, ?_, h.nodup.touch k v⟩
  · have hsub := h.sublist.filter fun e => e.1 != k
    rw [← without, without_eq_self hnot] at hsub
    exact hsub.cons _
  · rw [hlen, h.length]
  · rw [hlen]
    exact h.bound

theorem exec (h : Inclusion c₁ c₂ l₁ l₂) (h₁ : 1 ≤ c₁) (hle : c₁ ≤ c₂) (call : Call K V) :
    (∀ k v, (exec c₁ l₁ call).1 = .hit k v → (exec c₂ l₂ call).1 = .hit k v) ∧
      Inclusion c₁ c₂ (exec c₁ l₁ call).2 (exec c₂ l₂ call).2 := by
  cases call with
  | put k v =>
    refine ⟨fun _ _ heq => ?_, h.put h₁ hle k v⟩
    cases heq
  | get k =>
    cases hf₁ : find k l₁ with
    | some v =>
      have hf₂ : find k l₂ = some v :=
        (find_eq_some_iff h.nodup).2 (h.sublist.subset ((find_eq_some_iff h.nodup_left).1 hf₁))
      simp only [Lru.exec, hf₁, hf₂]
      exact ⟨fun _ _ heq => heq, h.touch (mem_keys_of_find hf₁) v⟩
    | none =>
      cases hf₂ : find k l₂ with
      | none =>
        simp only [Lru.exec, hf₁, hf₂]
        exact ⟨fun _ _ heq => heq, h⟩
      | some v =>
        simp only [Lru.exec, hf₁, hf₂]
        refine ⟨fun _ _ heq => ?_, h.touch_right (find_eq_none_iff.1 hf₁) (mem_keys_of_find hf₂) v⟩
        cases heq

theorem run (h : Inclusion c₁ c₂ l₁ l₂) (h₁ : 1 ≤ c₁) (hle : c₁ ≤ c₂) (calls : List (Call K V)) :
    List.Forall₂ (fun e₁ e₂ => ∀ k v, e₁ = .hit k v → e₂ = .hit k v) (run c₁ l₁ calls).1
        (run c₂ l₂ calls).1 ∧
      Inclusion c₁ c₂ (run c₁ l₁ calls).2 (run c₂ l₂ calls).2 := by
  induction calls generalizing l₁ l₂ with
  | nil => exact ⟨.nil, h⟩
  | cons call calls ih =>
    obtain ⟨hevent, hnext⟩ := h.exec h₁ hle call
    obtain ⟨hevents, hlast⟩ := ih hnext
    exact ⟨.cons hevent hevents, hlast⟩

end Inclusion

end Lru
