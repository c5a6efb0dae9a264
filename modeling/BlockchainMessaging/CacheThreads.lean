import BlockchainMessaging.CacheRuns
import BlockchainMessaging.Lib.Monitor

/-!
# Threads at one LRU cache (`utils/cache_manager.hpp`)

`put` and `get` hold `cacheMutex` from the first access to the cache to the last. Here each access to
the list or to the map is a step of its own, between which other threads run; `it->second` is a look
at the map when it is read. An object `none` is one with undefined behaviour behind it.
-/

namespace BlockchainMessaging
open Lru Machine

/-- The next access in a call that has the mutex. -/
inductive CacheAccess (K V : Type*) where
  | find (call : Call K V)
  | erase (key : K) (value : V)
  | size (key : K) (value : V)
  | eraseBack (key : K) (value : V)
  | popBack (key : K) (value : V)
  | pushFront (key : K) (value : V)
  | assign (key : K) (value : V)
  | splice (key : K)
  | read (key : K)

namespace LRUCache
variable {K V : Type*} [DecidableEq K]

/-- An access that is undefined where its result is `none`. -/
def access (c : Option (LRUCache K V)) (next : CacheAccess K V) :
    Option (LRUCache K V) × (CacheAccess K V ⊕ Option (Event K V)) :=
  match c with
  | some c => (some c, .inl next)
  | none => (none, .inr none)

def turn (x : CacheAccess K V) (c : LRUCache K V) :
    Option (LRUCache K V) × (CacheAccess K V ⊕ Option (Event K V)) :=
  match x with
  | .find (.put key value) =>
    access c (if (c.cache.lookup key).isSome then .erase key value else .size key value)
  | .find (.get key) =>
    if (c.cache.lookup key).isSome then access c (.splice key) else (c, .inr (some (.miss key)))
  | .erase key value =>
    access ((c.cache.lookup key).bind fun entry => (c.lruList.erase entry.2).map fun lruList =>
      { c with lruList := lruList }) (.pushFront key value)
  | .size key value =>
    access c (if c.cache.keys.card ≥ c.capacity then .eraseBack key value else .pushFront key value)
  | .eraseBack key value =>
    access (c.lruList.back.map fun last => { c with cache := c.cache.erase last })
      (.popBack key value)
  | .popBack key value =>
    access (c.lruList.popBack.map fun lruList => { c with lruList := lruList }) (.pushFront key value)
  | .pushFront key value =>
    access (some { c with lruList := c.lruList.pushFront key }) (.assign key value)
  | .assign key value =>
    (some { c with cache := c.cache.insert key (value, c.lruList.begin) },
      .inr (some (.put key value)))
  | .splice key =>
    access ((c.cache.lookup key).bind fun entry => (c.lruList.spliceFront entry.2).map fun lruList =>
      { c with lruList := lruList }) (.read key)
  | .read key =>
    match c.cache.lookup key with
    | some entry => (c, .inr (some (.hit key entry.1)))
    | none => (none, .inr none)

/-- The calls as they go on under `cacheMutex`. -/
def monitor : Monitor (Option (LRUCache K V)) (Call K V) (Option (Event K V)) (CacheAccess K V) where
  enter := .find
  turn x c := c.elim (none, .inr none) (turn x)

/-- A call with nobody else at the cache. -/
def answer (c : Option (LRUCache K V)) (call : Call K V) :
    Option (LRUCache K V) × Option (Event K V) :=
  let r := c.bind fun c => c.exec call
  (r.map Prod.snd, r.map Prod.fst)

/-! ### A call from its first access to its last -/

variable {c c' : LRUCache K V} {x next : CacheAccess K V} {s : Option (LRUCache K V)}
  {o : Option (Event K V)}

theorem ends_of_access (h : turn x c = access (some c') next) (hends : monitor.Ends next (some c') s o) :
    monitor.Ends x (some c) s o :=
  .more (M := monitor) h hends

theorem ends_of_undefined (h : turn x c = access none next) :
    monitor.Ends x (some c) none (none : Option (Event K V)) :=
  .done (M := monitor) h

theorem ends_pushFront (c : LRUCache K V) (key : K) (value : V) :
    monitor.Ends (.pushFront key value) (some c) (some (c.pushEntry key value))
      (some (.put key value)) :=
  ends_of_access rfl (.done rfl)

/-- The room that `put` makes for a key that is there. -/
theorem ends_erase (c : LRUCache K V) (key : K) (value : V) {entry : V × ℕ}
    (hl : c.cache.lookup key = some entry) :
    let room := (c.lruList.erase entry.2).map fun lruList => { c with lruList := lruList }
    monitor.Ends (.erase key value) (some c) (room.map (pushEntry key value))
      ((room.map (pushEntry key value)).map fun _ => .put key value) := by
  have herase : turn (.erase key value) c =
      access ((c.lruList.erase entry.2).map fun lruList => { c with lruList := lruList })
        (.pushFront key value) := by
    simp [turn, hl]
  cases he : c.lruList.erase entry.2 <;> rw [he] at herase
  · exact ends_of_undefined herase
  · exact ends_of_access herase (ends_pushFront _ key value)

/-- The room that `put` makes in a full cache. -/
theorem ends_eraseBack (c : LRUCache K V) (key : K) (value : V) :
    let room := c.lruList.back.bind fun last => c.lruList.popBack.map fun lruList =>
      { c with cache := c.cache.erase last, lruList := lruList }
    monitor.Ends (.eraseBack key value) (some c) (room.map (pushEntry key value))
      ((room.map (pushEntry key value)).map fun _ => .put key value) := by
  have hback : turn (.eraseBack key value) c =
      access (c.lruList.back.map fun last => { c with cache := c.cache.erase last })
        (.popBack key value) := rfl
  cases hb : c.lruList.back with
  | none =>
    rw [hb] at hback
    exact ends_of_undefined hback
  | some last =>
    rw [hb] at hback
    refine ends_of_access hback ?_
    have hpop : turn (.popBack key value) { c with cache := c.cache.erase last } =
        access (c.lruList.popBack.map fun lruList =>
          { c with cache := c.cache.erase last, lruList := lruList }) (.pushFront key value) := rfl
    rw [Option.bind_some]
    cases hp : c.lruList.popBack <;> rw [hp] at hpop
    · exact ends_of_undefined hpop
    · exact ends_of_access hpop (ends_pushFront _ key value)

theorem ends_put (c : LRUCache K V) (key : K) (value : V) :
    monitor.Ends (monitor.enter (.put key value)) (some c) (c.put key value)
      ((c.put key value).map fun _ => .put key value) := by
  cases hl : c.cache.lookup key with
  | some entry =>
    have hfind : turn (.find (.put key value)) c = access (some c) (.erase key value) := by
      simp [turn, hl]
    have hput : c.put key value = ((c.lruList.erase entry.2).map fun lruList =>
        { c with lruList := lruList }).map (pushEntry key value) := by
      simp [put, makeRoom, hl]
    rw [hput]
    exact ends_of_access hfind (ends_erase c key value hl)
  | none =>
    have hfind : turn (.find (.put key value)) c = access (some c) (.size key value) := by
      simp [turn, hl]
    refine ends_of_access hfind ?_
    by_cases hfull : c.cache.keys.card ≥ c.capacity
    · have hsize : turn (.size key value) c = access (some c) (.eraseBack key value) := by
        simp [turn, hfull]
      have hput : c.put key value =
          (c.lruList.back.bind fun last => c.lruList.popBack.map fun lruList =>
            { c with cache := c.cache.erase last, lruList := lruList }).map
              (pushEntry key value) := by
        simp [put, makeRoom, hl, hfull]
      rw [hput]
      exact ends_of_access hsize (ends_eraseBack c key value)
    · have hsize : turn (.size key value) c = access (some c) (.pushFront key value) := by
        simp [turn, hfull]
      have hput : c.put key value = some (c.pushEntry key value) := by
        simp [put, makeRoom, hl, hfull]
      rw [hput]
      exact ends_of_access hsize (ends_pushFront c key value)

theorem ends_get (c : LRUCache K V) (key : K) :
    monitor.Ends (monitor.enter (.get key)) (some c) ((c.get key).map Prod.snd)
      ((c.get key).map fun r => match r.1 with
        | some value => .hit key value
        | none => .miss key) := by
  cases hl : c.cache.lookup key with
  | none =>
    have hget : c.get key = some (none, c) := by simp [get, hl]
    rw [hget]
    exact .done (by simp [monitor, turn, hl])
  | some entry =>
    have hfind : turn (.find (.get key)) c = access (some c) (.splice key) := by
      simp [turn, hl]
    refine ends_of_access hfind ?_
    have hsplice : turn (.splice key) c =
        access ((c.lruList.spliceFront entry.2).map fun lruList => { c with lruList := lruList })
          (.read key) := by
      simp [turn, hl]
    have hget : c.get key = (c.lruList.spliceFront entry.2).map fun lruList =>
        (some entry.1, { c with lruList := lruList }) := by
      simp [get, hl]
    rw [hget]
    cases hs : c.lruList.spliceFront entry.2 with
    | none =>
      rw [hs] at hsplice
      exact ends_of_undefined hsplice
    | some lruList =>
      rw [hs] at hsplice
      have hread : turn (.read key) { c with lruList := lruList } =
          (some { c with lruList := lruList }, .inr (some (.hit key entry.1))) := by
        simp [turn, hl]
      exact ends_of_access hsplice (.done hread)

theorem performs_monitor : (monitor : Monitor _ (Call K V) _ _).Performs answer := by
  intro s call
  cases s with
  | none => exact .done rfl
  | some c =>
    cases call with
    | put key value =>
      have hput := ends_put c key value
      simp only [answer, exec, Option.bind_some]
      cases h : c.put key value <;> rw [h] at hput <;> exact hput
    | get key =>
      have hget := ends_get c key
      simp only [answer, exec, Option.bind_some]
      cases h : c.get key <;> rw [h] at hget <;> exact hget

/-! ### Calls one after the other -/

theorem objectAfter_of_run {calls : List (Call K V)} {es : List (Event K V)}
    (h : c.run calls = some (es, c')) :
    Monitor.objectAfter answer (some c) calls = some c' ∧
      Monitor.answersTo answer (some c) calls = es.map some := by
  induction calls generalizing c es with
  | nil =>
    obtain ⟨rfl, rfl⟩ := Prod.mk.inj (Option.some.inj h)
    exact ⟨rfl, rfl⟩
  | cons call calls ih =>
    rw [run, Option.bind_eq_some_iff] at h
    obtain ⟨⟨event, mid⟩, hexec, hrest⟩ := h
    obtain ⟨⟨rest, last⟩, hrun, heq⟩ := Option.map_eq_some_iff.1 hrest
    obtain ⟨rfl, rfl⟩ := Prod.mk.inj heq
    obtain ⟨hobject, hanswers⟩ := ih hrun
    have hanswer : answer (some c) call = (some mid, some event) := by
      simp [answer, hexec]
    constructor
    · show Monitor.objectAfter answer (answer (some c) call).1 calls = _
      rwa [hanswer]
    · show [(answer (some c) call).2] ++ Monitor.answersTo answer (answer (some c) call).1 calls = _
      rw [hanswer, hanswers]
      rfl

/-- Behind undefined behaviour nothing is defined. -/
theorem eq_none_of_ends (h : monitor.Ends x none s o) : s = none := by
  cases h with
  | done hturn => exact (congrArg Prod.fst hturn).symm
  | more hturn => exact absurd (congrArg Prod.snd hturn) (by simp [monitor])

theorem answer_ne_none {l : List (K × V)} (h : Implements c l) (hc : 1 ≤ c.capacity)
    (call : Call K V) : (answer (some c) call).1 ≠ none := by
  obtain ⟨c', hexec, -⟩ := h.exec hc call
  simp [answer, hexec]

variable {κ : Type*} [DecidableEq κ]

/-- A new cache after these steps of the threads. -/
def threads (size : ℕ) (schedule : List (κ × Call K V)) :
    Monitor.State κ (Option (LRUCache K V)) (Call K V) (Option (Event K V)) (CacheAccess K V) :=
  Machine.run monitor.step (Monitor.init (some (init size))) schedule

theorem linear_threads (size : ℕ) (schedule : List (κ × Call K V)) :
    Monitor.Linear monitor answer (some (init size)) (threads size schedule) :=
  Monitor.linear_run performs_monitor _ schedule

variable {size : ℕ}
  {t : Monitor.State κ (Option (LRUCache K V)) (Call K V) (Option (Event K V)) (CacheAccess K V)}

theorem object_ne_none (hlinear : Monitor.Linear monitor answer (some (init size)) t)
    (hsize : 1 ≤ size) : t.object ≠ none := by
  obtain ⟨c, hrun, hcap, himp⟩ := run_init hsize t.calls
  have hafter : Monitor.objectAfter answer (some (init size)) t.calls = some c :=
    (objectAfter_of_run hrun).1
  intro hnone
  cases hm : t.mutex with
  | none =>
    have hfree := hlinear.free hm
    rw [hnone, hafter] at hfree
    cases hfree
  | some k =>
    have hcrit : (t.place k).Critical := (hlinear.guarded k).2 hm
    have hknows := hlinear.knows k
    cases hplace : t.place k with
    | idle | waiting | returning => rw [hplace] at hcrit; exact hcrit
    | inside call x =>
      rw [hplace, Monitor.State.Knows, hafter, hnone] at hknows
      exact answer_ne_none himp (hcap ▸ hsize) call (eq_none_of_ends hknows.2)
    | unlocking call o =>
      rw [hplace, Monitor.State.Knows, hafter, hnone] at hknows
      exact answer_ne_none himp (hcap ▸ hsize) call (congrArg Prod.fst hknows)

theorem answers_eq (hlinear : Monitor.Linear monitor answer (some (init size)) t)
    (hsize : 1 ≤ size) : t.answers = (Lru.run size [] t.calls).1.map some := by
  obtain ⟨c, hrun, -, -⟩ := run_init hsize t.calls
  rw [hlinear.answers]
  exact (objectAfter_of_run hrun).2

end LRUCache

/-- Any number of threads call `put` and `get` on one cache and take their steps in any order. No
access is ever undefined. The answers are those of an LRU list when the calls are made one after the
other in the order in which they give `cacheMutex` back, and so is the cache when the mutex is free.
The calls a thread has returned from, and the one it is in, are those the schedule gives it, in the
order of the schedule; they stand so in the order of the calls, which never changes what it holds.
From everywhere each thread can come to return from all calls it has been given. -/
theorem cache_of_schedule {κ K V : Type*} [DecidableEq κ] [DecidableEq K] (size : ℕ)
    (hsize : 1 ≤ size) (schedule : List (κ × Call K V)) :
    let s := LRUCache.threads size schedule
    let given (k : κ) : List (Call K V) :=
      Monitor.begun LRUCache.monitor k (Monitor.init (some (LRUCache.init size))) schedule
    s.object ≠ none ∧
    (∃ c, (LRUCache.init size).run s.calls = some ((Lru.run size [] s.calls).1, c) ∧
      s.answers = (Lru.run size [] s.calls).1.map some ∧ (s.mutex = none → s.object = some c)) ∧
    (∀ k, inputsOf k s.order = inputsOf k s.returned ++ (s.place k).due) ∧
    (∀ n, (LRUCache.threads size (schedule.take n)).order <+: s.order) ∧
    (∀ k, (inputsOf k s.returned).map Prod.fst ++ (s.place k).inCall.toList = given k) ∧
    ∀ k, ∃ more, let s' := LRUCache.threads size (schedule ++ more)
      s'.place k = .idle ∧ (inputsOf k s'.returned).map Prod.fst = given k := by
  intro s given
  have hlinear : Monitor.Linear LRUCache.monitor LRUCache.answer (some (LRUCache.init size)) s :=
    LRUCache.linear_threads size schedule
  refine ⟨LRUCache.object_ne_none hlinear hsize, ?_, hlinear.own,
    Monitor.order_prefix_take _ schedule, Monitor.callsOf_run_init _ _ schedule,
    Monitor.exists_append_returned LRUCache.performs_monitor _ schedule⟩
  obtain ⟨c, hrun, -, -⟩ := LRUCache.run_init hsize s.calls
  exact ⟨c, hrun, LRUCache.answers_eq hlinear hsize,
    fun hm => (hlinear.free hm).trans (LRUCache.objectAfter_of_run hrun).1⟩

/-- A thread asks for a key while another one puts it: it has to wait until the value is there. -/
def Sample.putWhileGet : List (Bool × Call ℕ ℕ) :=
  List.replicate 2 (true, .put 1 10) ++ List.replicate 2 (false, .get 1) ++
    List.replicate 6 (true, .put 1 10) ++ List.replicate 6 (false, .get 1)

theorem cache_of_schedule_two :
    let s := LRUCache.threads 1 Sample.putWhileGet
    inputsOf true s.returned = [(.put 1 10, some (.put 1 10))] ∧
      inputsOf false s.returned = [(.get 1, some (.hit 1 10))] ∧
      s.answers = [some (.put 1 10), some (.hit 1 10)] := by
  intro s
  have hcalls : s.calls = [.put 1 10, .get 1] := rfl
  refine ⟨rfl, rfl, ?_⟩
  obtain ⟨-, ⟨_, -, hanswers, -⟩, -⟩ := cache_of_schedule 1 (by decide) Sample.putWhileGet
  show s.answers = _
  rw [hanswers]
  show (Lru.run 1 [] s.calls).1.map some = _
  rw [hcalls]
  rfl

end BlockchainMessaging
