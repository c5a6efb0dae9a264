import BlockchainMessaging.Lib.Monitor
import BlockchainMessaging.MemoryPool

/-!
# Threads at one memory pool (`utils/memory_pool.hpp`, `utils/memory_pool.cpp`)

`addTransaction` and `getHighestPriorityTransactions` hold `poolMutex` throughout. Each test of the
vector, each change of it and each turn of the loop that copies is a step of its own. `cleanup` takes
no mutex and is only called from `addTransaction` here.
-/

namespace BlockchainMessaging
open Machine

inductive PoolRequest where
  | addTransaction (S : PoolSort) (cleanupTime now : ℤ) (tx : Transaction) (priority : UInt32)
  | getHighestPriorityTransactions (count : ℕ)

/-- What the request does to the pool, as a call. -/
def PoolRequest.call : PoolRequest → List PoolCall
  | addTransaction S cleanupTime now tx priority => [.addTransaction S cleanupTime now tx priority]
  | getHighestPriorityTransactions _ => []

inductive PoolAnswer where
  | added (result : Bool)
  | transactions (result : List Transaction)
deriving DecidableEq

/-- The next access in a call that has the mutex. -/
inductive PoolAccess where
  | isFull (S : PoolSort) (cleanupTime : ℤ) (entry : PoolEntry)
  | cleanup (S : PoolSort) (cleanupTime : ℤ) (entry : PoolEntry)
  | isFullAgain (S : PoolSort) (entry : PoolEntry)
  | pushBack (S : PoolSort) (entry : PoolEntry)
  | sort (S : PoolSort)
  | size (count : ℕ)
  | copy (i count : ℕ) (result : List Transaction)

namespace MemoryPool

def enter : PoolRequest → PoolAccess
  | .addTransaction S cleanupTime now tx priority => .isFull S cleanupTime ⟨tx, now, priority⟩
  | .getHighestPriorityTransactions count => .size count

/-- The answer `none` is an access outside the vector. -/
def turn (x : PoolAccess) (p : MemoryPool) : MemoryPool × (PoolAccess ⊕ Option PoolAnswer) :=
  match x with
  | .isFull S cleanupTime entry =>
    (p, .inl (if p.isFull then .cleanup S cleanupTime entry else .pushBack S entry))
  | .cleanup S cleanupTime entry => (p.cleanup cleanupTime 3600, .inl (.isFullAgain S entry))
  | .isFullAgain S entry =>
    if p.isFull then (p, .inr (some (.added false))) else (p, .inl (.pushBack S entry))
  | .pushBack S entry => ({ p with pool := p.pool ++ [entry] }, .inl (.sort S))
  | .sort S => ({ p with pool := S.sort p.pool }, .inr (some (.added true)))
  | .size count => (p, .inl (.copy 0 (min count p.size) []))
  | .copy i count result =>
    if i < count then
      match p.pool[i]? with
      | some entry => (p, .inl (.copy (i + 1) count (result ++ [entry.transaction])))
      | none => (p, .inr none)
    else (p, .inr (some (.transactions result)))

/-- The calls as they go on under `poolMutex`. -/
def monitor : Monitor MemoryPool PoolRequest (Option PoolAnswer) PoolAccess where
  enter := enter
  turn := turn

/-- A call with nobody else at the pool. -/
def answer (p : MemoryPool) : PoolRequest → MemoryPool × Option PoolAnswer
  | .addTransaction S cleanupTime now tx priority =>
    let r := p.addTransaction S cleanupTime now tx priority
    (r.2, some (.added r.1))
  | .getHighestPriorityTransactions count =>
    (p, some (.transactions (p.getHighestPriorityTransactions count)))

/-! ### A call from its first access to its last -/

variable {p : MemoryPool}

theorem ends_pushBack (p : MemoryPool) (S : PoolSort) (entry : PoolEntry) :
    monitor.Ends (.pushBack S entry) p (p.insert S entry) (some (.added true)) :=
  .more (M := monitor) rfl (.done rfl)

theorem ends_addTransaction (p : MemoryPool) (S : PoolSort) (cleanupTime now : ℤ) (tx : Transaction)
    (priority : UInt32) :
    monitor.Ends (.isFull S cleanupTime ⟨tx, now, priority⟩) p
      (p.addTransaction S cleanupTime now tx priority).2
      (some (.added (p.addTransaction S cleanupTime now tx priority).1)) := by
  have hfirst : monitor.turn (.isFull S cleanupTime ⟨tx, now, priority⟩) p =
      (p, .inl (if p.isFull then .cleanup S cleanupTime ⟨tx, now, priority⟩
        else .pushBack S ⟨tx, now, priority⟩)) := rfl
  have hagain : ∀ q : MemoryPool, monitor.turn (.isFullAgain S ⟨tx, now, priority⟩) q =
      if q.isFull then (q, .inr (some (.added false)))
      else (q, .inl (.pushBack S ⟨tx, now, priority⟩)) := fun _ => rfl
  rcases addTransaction_cases S cleanupTime now tx priority p with
    ⟨hfull, heq⟩ | ⟨hfull, hclean, heq⟩ | ⟨hfull, hclean, heq⟩ <;> rw [heq] <;>
    refine .more hfirst ?_ <;> rw [hfull]
  · exact ends_pushBack p S _
  · refine .more (M := monitor) rfl (.more ((hagain _).trans ?_) (ends_pushBack _ S _))
    rw [hclean]
    rfl
  · refine .more (M := monitor) rfl (.done ((hagain _).trans ?_))
    rw [hclean]
    rfl

/-- The loop has copied the first `i` transactions. -/
theorem ends_copy {i count : ℕ} (hi : i ≤ count) (hcount : count ≤ p.size) :
    monitor.Ends (.copy i count ((p.pool.take i).map PoolEntry.transaction)) p p
      (some (.transactions ((p.pool.take count).map PoolEntry.transaction))) := by
  induction hn : count - i generalizing i with
  | zero =>
    obtain rfl : i = count := by omega
    exact .done (if_neg (lt_irrefl i))
  | succ n ih =>
    have hlt : i < count := by omega
    have hin : i < p.pool.length := lt_of_lt_of_le hlt hcount
    have htake : p.pool.take (i + 1) = p.pool.take i ++ [p.pool[i]] :=
      (List.take_concat_get' p.pool i hin).symm
    refine .more ?_ (ih (i := i + 1) (by omega) (by omega))
    rw [htake, List.map_append]
    simp [monitor, turn, hlt, hin]

theorem performs_monitor : monitor.Performs answer := by
  intro p request
  cases request with
  | addTransaction S cleanupTime now tx priority =>
    exact ends_addTransaction p S cleanupTime now tx priority
  | getHighestPriorityTransactions count =>
    refine .more (M := monitor) (x := .size count) rfl ?_
    exact ends_copy (Nat.zero_le _) (min_le_right count p.size)

/-! ### Threads -/

theorem objectAfter_eq (p : MemoryPool) (requests : List PoolRequest) :
    Monitor.objectAfter answer p requests = run step p (requests.flatMap PoolRequest.call) := by
  induction requests generalizing p with
  | nil => rfl
  | cons request requests ih =>
    rw [List.flatMap_cons, run_append]
    cases request with
    | addTransaction S cleanupTime now tx priority =>
      exact ih (p.addTransaction S cleanupTime now tx priority).2
    | getHighestPriorityTransactions count => exact ih p

variable {κ : Type*} [DecidableEq κ]

/-- A new pool after these steps of the threads. -/
def threads (maxSize : ℕ) (schedule : List (κ × PoolRequest)) :
    Monitor.State κ MemoryPool PoolRequest (Option PoolAnswer) PoolAccess :=
  run monitor.step (Monitor.init (init maxSize)) schedule

theorem linear_threads (maxSize : ℕ) (schedule : List (κ × PoolRequest)) :
    Monitor.Linear monitor answer (init maxSize) (threads maxSize schedule) :=
  Monitor.linear_run performs_monitor _ schedule

/-- The bound is kept between two accesses, and there is room where an entry is about to be put. -/
structure Within (bound : ℕ) (x : PoolAccess) (p : MemoryPool) : Prop where
  maxSize : p.maxSize = bound
  size : p.size ≤ bound
  room : ∀ S entry, x = .pushBack S entry → p.isFull = false

theorem Within.goes {bound : ℕ} {a b : PoolAccess × MemoryPool} (h : Within bound a.1 a.2)
    (hgoes : monitor.Goes a b) : Within bound b.1 b.2 := by
  obtain ⟨x, p⟩ := a
  obtain ⟨y, q⟩ := b
  have hturn : turn x p = (q, .inl y) := hgoes
  have hsize := h.size
  cases x with
  | isFull S cleanupTime entry =>
    obtain ⟨rfl, hy⟩ := Prod.mk.inj hturn
    obtain rfl := Sum.inl.inj hy
    refine ⟨h.maxSize, hsize, fun S' entry' hpush => ?_⟩
    cases hfull : p.isFull with
    | false => rfl
    | true => simp [hfull] at hpush
  | cleanup S cleanupTime entry =>
    obtain ⟨rfl, hy⟩ := Prod.mk.inj hturn
    obtain rfl := Sum.inl.inj hy
    exact ⟨h.maxSize, (List.length_filter_le _ _).trans hsize, fun _ _ hpush => by cases hpush⟩
  | isFullAgain S entry =>
    cases hfull : p.isFull with
    | false =>
      simp only [turn, hfull, Bool.false_eq_true, if_false] at hturn
      obtain ⟨rfl, -⟩ := Prod.mk.inj hturn
      exact ⟨h.maxSize, hsize, fun _ _ _ => hfull⟩
    | true => simp [turn, hfull] at hturn
  | pushBack S entry =>
    have hroom := h.room S entry rfl
    obtain ⟨rfl, hy⟩ := Prod.mk.inj hturn
    obtain rfl := Sum.inl.inj hy
    refine ⟨h.maxSize, ?_, fun _ _ hpush => by cases hpush⟩
    have hlt : p.pool.length < bound := by
      rw [← h.maxSize]
      simpa [isFull] using hroom
    simpa [MemoryPool.size] using hlt
  | sort S => simp [turn] at hturn
  | size count =>
    obtain ⟨rfl, hy⟩ := Prod.mk.inj hturn
    obtain rfl := Sum.inl.inj hy
    exact ⟨h.maxSize, hsize, fun _ _ hpush => by cases hpush⟩
  | copy i count result =>
    by_cases hi : i < count
    · cases hentry : p.pool[i]? with
      | none => simp [turn, hi, hentry] at hturn
      | some entry =>
        simp only [turn, if_pos hi, hentry] at hturn
        obtain ⟨rfl, hy⟩ := Prod.mk.inj hturn
        obtain rfl := Sum.inl.inj hy
        exact ⟨h.maxSize, hsize, fun _ _ hpush => by cases hpush⟩
    · simp [turn, hi] at hturn

end MemoryPool

/-- Any number of threads call `addTransaction` and `getHighestPriorityTransactions` on one pool and
take their steps in any order. At every moment, also within a call, the pool is within its bound. In
the order in which the calls give `poolMutex` back, each is answered as if the calls before it had
been made one after the other, so that the transactions handed out are of highest priority. The calls
a thread has returned from, and the one it is in, are those the schedule gives it, in the order of the
schedule; they stand so in the order of the calls, which never changes what it holds. From everywhere
each thread can come to return from all calls it has been given. -/
theorem pool_of_schedule {κ : Type*} [DecidableEq κ] (maxSize : ℕ)
    (schedule : List (κ × PoolRequest)) :
    let s := MemoryPool.threads maxSize schedule
    let before (n : ℕ) : MemoryPool :=
      run MemoryPool.step (MemoryPool.init maxSize) ((s.calls.take n).flatMap PoolRequest.call)
    let given (k : κ) : List PoolRequest :=
      Monitor.begun MemoryPool.monitor k (Monitor.init (MemoryPool.init maxSize)) schedule
    s.object.size ≤ maxSize ∧
    (s.mutex = none → s.object = before s.calls.length) ∧
    (∀ (n : ℕ) (k : κ) S cleanupTime now tx priority answer,
      s.order[n]? = some (k, .addTransaction S cleanupTime now tx priority, answer) →
        answer = some (.added ((before n).addTransaction S cleanupTime now tx priority).1)) ∧
    (∀ (n : ℕ) (k : κ) count answer, s.order[n]? = some (k, .getHighestPriorityTransactions count, answer) →
      ∃ chosen rest : List PoolEntry, (before n).pool = chosen ++ rest ∧
        answer = some (.transactions (chosen.map PoolEntry.transaction)) ∧
        chosen.length = min count (before n).size ∧ PoolEntry.Ordered chosen ∧
        ∀ a ∈ chosen, ∀ b ∈ rest, b.priority ≤ a.priority) ∧
    (∀ k, inputsOf k s.order = inputsOf k s.returned ++ (s.place k).due) ∧
    (∀ n, (MemoryPool.threads maxSize (schedule.take n)).order <+: s.order) ∧
    (∀ k, (inputsOf k s.returned).map Prod.fst ++ (s.place k).inCall.toList = given k) ∧
    ∀ k, ∃ more, let s' := MemoryPool.threads maxSize (schedule ++ more)
      s'.place k = .idle ∧ (inputsOf k s'.returned).map Prod.fst = given k := by
  intro s before given
  have hlinear : Monitor.Linear MemoryPool.monitor MemoryPool.answer (MemoryPool.init maxSize) s :=
    MemoryPool.linear_threads maxSize schedule
  have hbefore : ∀ n, PoolOk (before n) ∧ (before n).maxSize = maxSize := fun n =>
    ⟨(PoolOk.init maxSize).run _, run_eq MemoryPool.maxSize maxSize_step _ _⟩
  have hobject : ∀ n, Monitor.objectAfter MemoryPool.answer (MemoryPool.init maxSize)
      (s.calls.take n) = before n := fun n => MemoryPool.objectAfter_eq _ _
  have hpast : Monitor.objectAfter MemoryPool.answer (MemoryPool.init maxSize) s.calls =
      before s.calls.length := by
    rw [← hobject, List.take_length]
  refine ⟨?_, fun hm => (hlinear.free hm).trans hpast, ?_, ?_, hlinear.own,
    Monitor.order_prefix_take _ schedule, Monitor.callsOf_run_init _ _ schedule,
    Monitor.exists_append_returned MemoryPool.performs_monitor _ schedule⟩
  · have hsize : ∀ p : MemoryPool, PoolOk p → p.maxSize = maxSize → p.size ≤ maxSize :=
      fun p hok hmax => hok.size.trans_eq hmax
    obtain ⟨hok, hmax⟩ := hbefore s.calls.length
    refine hlinear.object_keeps (I := fun p => p.size ≤ maxSize)
      (J := fun a => MemoryPool.Within maxSize a.1 a.2) ?_ (fun request => ?_) (fun request => ?_)
      (fun a b h hgoes => h.goes hgoes) (fun a h => h.size) <;> rw [hpast]
    · exact hsize _ hok hmax
    · cases request with
      | getHighestPriorityTransactions count => exact hsize _ hok hmax
      | addTransaction S cleanupTime now tx priority =>
        exact hsize _ (hok.step (.addTransaction S cleanupTime now tx priority))
          ((maxSize_step _ (.addTransaction S cleanupTime now tx priority)).trans hmax)
    · cases request <;> exact ⟨hmax, hsize _ hok hmax, nofun⟩
  · intro n k S cleanupTime now tx priority answer hn
    have hanswer := hlinear.answer_eq hn
    rwa [hobject] at hanswer
  · intro n k count answer hn
    have hanswer := hlinear.answer_eq hn
    rw [hobject] at hanswer
    obtain ⟨chosen, rest, hpool, hchosen, hhighest⟩ := (hbefore n).1.highest count
    exact ⟨chosen, rest, hpool, by rw [hanswer, ← hchosen]; rfl, hhighest⟩

end BlockchainMessaging
