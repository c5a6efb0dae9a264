import BlockchainMessaging.Transaction
import BlockchainMessaging.Lib.Run
import Mathlib.Data.Multiset.AddSub
import Mathlib.Data.Multiset.Filter

/-!
# The memory pool (`utils/memory_pool.hpp`, `utils/memory_pool.cpp`)

Of `std::sort` only its contract is used: it returns some rearrangement in the order of the
comparator. Every reading of the clock is an argument of its own.
-/

namespace BlockchainMessaging
open Machine

structure PoolEntry where
  transaction : Transaction
  timestamp : ℤ
  priority : UInt32
deriving DecidableEq

namespace PoolEntry

def isExpired (now : ℤ) (maxAgeSeconds : UInt32) (entry : PoolEntry) : Bool :=
  now - entry.timestamp > maxAgeSeconds.toNat

def Ordered (entries : List PoolEntry) : Prop :=
  entries.Pairwise fun a b => b.priority ≤ a.priority

end PoolEntry

/-- A sorting function that meets the contract of `std::sort` for the comparator of
`addTransaction`. -/
structure PoolSort where
  sort : List PoolEntry → List PoolEntry
  perm : ∀ entries, (sort entries).Perm entries
  ordered : ∀ entries, PoolEntry.Ordered (sort entries)

structure MemoryPool where
  pool : List PoolEntry
  maxSize : ℕ

namespace MemoryPool

def init (maxSize : ℕ) : MemoryPool :=
  { pool := [], maxSize := maxSize }

def size (p : MemoryPool) : ℕ :=
  p.pool.length

def isFull (p : MemoryPool) : Bool :=
  p.pool.length ≥ p.maxSize

def cleanup (now : ℤ) (maxAgeSeconds : UInt32) (p : MemoryPool) : MemoryPool :=
  { p with pool := p.pool.filter fun entry => !entry.isExpired now maxAgeSeconds }

def insert (S : PoolSort) (entry : PoolEntry) (p : MemoryPool) : MemoryPool :=
  { p with pool := S.sort (p.pool ++ [entry]) }

/-- `cleanupTime` is the clock that the call of `cleanup` reads, `now` the one for the entry. -/
def addTransaction (S : PoolSort) (cleanupTime now : ℤ) (tx : Transaction) (priority : UInt32)
    (p : MemoryPool) : Bool × MemoryPool :=
  let entry : PoolEntry := { transaction := tx, timestamp := now, priority := priority }
  if p.isFull then
    let p := p.cleanup cleanupTime 3600
    if p.isFull then (false, p) else (true, p.insert S entry)
  else (true, p.insert S entry)

def getHighestPriorityTransactions (count : ℕ) (p : MemoryPool) : List Transaction :=
  (p.pool.take (min count p.pool.length)).map PoolEntry.transaction

end MemoryPool

inductive PoolCall where
  | addTransaction (S : PoolSort) (cleanupTime now : ℤ) (tx : Transaction) (priority : UInt32)
  | cleanup (now : ℤ) (maxAgeSeconds : UInt32)

namespace MemoryPool

def step (p : MemoryPool) : PoolCall → MemoryPool
  | .addTransaction S cleanupTime now tx priority =>
    (p.addTransaction S cleanupTime now tx priority).2
  | .cleanup now maxAgeSeconds => p.cleanup now maxAgeSeconds

theorem addTransaction_cases (S : PoolSort) (cleanupTime now : ℤ) (tx : Transaction)
    (priority : UInt32) (p : MemoryPool) :
    (p.isFull = false ∧ p.addTransaction S cleanupTime now tx priority =
      (true, p.insert S ⟨tx, now, priority⟩)) ∨
    (p.isFull = true ∧ (p.cleanup cleanupTime 3600).isFull = false ∧
      p.addTransaction S cleanupTime now tx priority =
        (true, (p.cleanup cleanupTime 3600).insert S ⟨tx, now, priority⟩)) ∨
    (p.isFull = true ∧ (p.cleanup cleanupTime 3600).isFull = true ∧
      p.addTransaction S cleanupTime now tx priority = (false, p.cleanup cleanupTime 3600)) := by
  unfold addTransaction
  cases hfull : p.isFull with
  | false => exact .inl ⟨rfl, rfl⟩
  | true =>
    cases hclean : (p.cleanup cleanupTime 3600).isFull with
    | false => exact .inr (.inl ⟨rfl, rfl, by simp [hclean]⟩)
    | true => exact .inr (.inr ⟨rfl, rfl, by simp [hclean]⟩)

end MemoryPool

/-! ### Order and size -/

structure PoolOk (p : MemoryPool) : Prop where
  size : p.pool.length ≤ p.maxSize
  ordered : PoolEntry.Ordered p.pool

namespace PoolOk
variable {p : MemoryPool}

theorem init (maxSize : ℕ) : PoolOk (MemoryPool.init maxSize) :=
  ⟨Nat.zero_le _, List.Pairwise.nil⟩

theorem cleanup (h : PoolOk p) (now : ℤ) (maxAgeSeconds : UInt32) :
    PoolOk (p.cleanup now maxAgeSeconds) :=
  ⟨(List.length_filter_le _ _).trans h.size, h.ordered.filter _⟩

theorem insert (S : PoolSort) (entry : PoolEntry) (h : p.isFull = false) :
    PoolOk (p.insert S entry) := by
  refine ⟨?_, S.ordered _⟩
  have hlt : p.pool.length < p.maxSize := by simpa [MemoryPool.isFull] using h
  show (S.sort (p.pool ++ [entry])).length ≤ p.maxSize
  rw [(S.perm _).length_eq, List.length_append, List.length_singleton]
  exact hlt

theorem step (h : PoolOk p) (call : PoolCall) : PoolOk (p.step call) := by
  cases call with
  | cleanup now maxAgeSeconds => exact h.cleanup now maxAgeSeconds
  | addTransaction S cleanupTime now tx priority =>
    show PoolOk (p.addTransaction S cleanupTime now tx priority).2
    rcases MemoryPool.addTransaction_cases S cleanupTime now tx priority p with
      ⟨hfull, heq⟩ | ⟨-, hclean, heq⟩ | ⟨-, -, heq⟩ <;> rw [heq]
    · exact insert S _ hfull
    · exact insert S _ hclean
    · exact h.cleanup cleanupTime 3600

theorem run (h : PoolOk p) (calls : List PoolCall) : PoolOk (run MemoryPool.step p calls) :=
  run_inv (fun _ call h => h.step call) h calls

/-- What is taken from the front of an ordered pool is of highest priority. -/
theorem highest (h : PoolOk p) (count : ℕ) :
    ∃ chosen rest : List PoolEntry, p.pool = chosen ++ rest ∧
      p.getHighestPriorityTransactions count = chosen.map PoolEntry.transaction ∧
      chosen.length = min count p.size ∧ PoolEntry.Ordered chosen ∧
      ∀ a ∈ chosen, ∀ b ∈ rest, b.priority ≤ a.priority := by
  have hsplit := List.take_append_drop (min count p.pool.length) p.pool
  have hord := h.ordered
  rw [PoolEntry.Ordered, ← hsplit, List.pairwise_append] at hord
  refine ⟨_, _, hsplit.symm, rfl, ?_, hord.1, hord.2.2⟩
  rw [List.length_take, MemoryPool.size]
  omega

end PoolOk

theorem maxSize_step (p : MemoryPool) (call : PoolCall) : (p.step call).maxSize = p.maxSize := by
  cases call with
  | cleanup => rfl
  | addTransaction S cleanupTime now tx priority =>
    show (p.addTransaction S cleanupTime now tx priority).2.maxSize = p.maxSize
    rcases MemoryPool.addTransaction_cases S cleanupTime now tx priority p with
      ⟨-, heq⟩ | ⟨-, -, heq⟩ | ⟨-, -, heq⟩ <;> rw [heq] <;> rfl

/-- After any calls the pool is within its bound and ordered, so the entries it hands out are of
highest priority. -/
theorem pool_order_of_run (maxSize : ℕ) (calls : List PoolCall) :
    let p := run MemoryPool.step (MemoryPool.init maxSize) calls
    p.size ≤ maxSize ∧ PoolEntry.Ordered p.pool ∧
    ∀ count, ∃ chosen rest : List PoolEntry, p.pool = chosen ++ rest ∧
      p.getHighestPriorityTransactions count = chosen.map PoolEntry.transaction ∧
      chosen.length = min count p.size ∧ PoolEntry.Ordered chosen ∧
      ∀ a ∈ chosen, ∀ b ∈ rest, b.priority ≤ a.priority := by
  intro p
  have hok : PoolOk p := (PoolOk.init maxSize).run calls
  have hmax : p.maxSize = maxSize := run_eq MemoryPool.maxSize maxSize_step _ calls
  exact ⟨hok.size.trans_eq hmax, hok.ordered, hok.highest⟩

/-! ### Conservation -/

namespace MemoryPool

/-- The entries that a cleanup at `now` finds too old. -/
def foundExpired (p : MemoryPool) (now : ℤ) (maxAgeSeconds : UInt32) : Multiset PoolEntry :=
  p.pool.filter fun entry => entry.isExpired now maxAgeSeconds

def accepted (p : MemoryPool) : PoolCall → Multiset PoolEntry
  | .addTransaction S cleanupTime now tx priority =>
    if (p.addTransaction S cleanupTime now tx priority).1 then {⟨tx, now, priority⟩} else 0
  | .cleanup _ _ => 0

/-- The entries that the cleanup executed by the call, if it executes one, finds too old. -/
def expired (p : MemoryPool) : PoolCall → Multiset PoolEntry
  | .addTransaction _ cleanupTime _ _ _ =>
    if p.isFull then p.foundExpired cleanupTime 3600 else 0
  | .cleanup now maxAgeSeconds => p.foundExpired now maxAgeSeconds

variable {p : MemoryPool}

theorem coe_cleanup (p : MemoryPool) (now : ℤ) (maxAgeSeconds : UInt32) :
    ((p.cleanup now maxAgeSeconds).pool : Multiset PoolEntry) + p.foundExpired now maxAgeSeconds =
      p.pool := by
  rw [add_comm]
  exact Multiset.coe_eq_coe.2 (List.filter_append_perm _ _)

theorem coe_insert (S : PoolSort) (entry : PoolEntry) (p : MemoryPool) :
    ((p.insert S entry).pool : Multiset PoolEntry) = p.pool + {entry} :=
  Multiset.coe_eq_coe.2 (S.perm _)

theorem step_conserves (p : MemoryPool) (call : PoolCall) :
    ((p.step call).pool : Multiset PoolEntry) + p.expired call = p.pool + p.accepted call := by
  cases call with
  | cleanup now maxAgeSeconds =>
    rw [accepted, add_zero]
    exact p.coe_cleanup now maxAgeSeconds
  | addTransaction S cleanupTime now tx priority =>
    have hclean := p.coe_cleanup cleanupTime 3600
    rw [step, expired, accepted]
    rcases addTransaction_cases S cleanupTime now tx priority p with
      ⟨hfull, heq⟩ | ⟨hfull, -, heq⟩ | ⟨hfull, -, heq⟩ <;> rw [heq, hfull]
    · rw [if_neg Bool.false_ne_true, if_pos rfl, add_zero, coe_insert]
    · rw [if_pos rfl, if_pos rfl, coe_insert, add_right_comm, hclean]
    · rw [if_pos rfl, if_neg Bool.false_ne_true, add_zero, hclean]

theorem isFull_iff : p.isFull = true ↔ p.maxSize ≤ p.pool.length :=
  decide_eq_true_iff

theorem cleanup_of_not_expired {now : ℤ} {maxAgeSeconds : UInt32}
    (h : ∀ entry ∈ p.pool, entry.isExpired now maxAgeSeconds = false) :
    p.cleanup now maxAgeSeconds = p := by
  have hpool : p.pool.filter (fun entry => !entry.isExpired now maxAgeSeconds) = p.pool :=
    List.filter_eq_self.2 fun entry hmem => by rw [h entry hmem]; rfl
  rw [cleanup, hpool]

end MemoryPool

namespace PoolOk
variable {p : MemoryPool}

/-- A full pool stays full exactly when the cleanup finds nothing: it was filled to the bound. -/
theorem isFull_cleanup_iff (h : PoolOk p) (hfull : p.isFull = true) (now : ℤ)
    (maxAgeSeconds : UInt32) :
    (p.cleanup now maxAgeSeconds).isFull = true ↔
      ∀ entry ∈ p.pool, entry.isExpired now maxAgeSeconds = false := by
  have hlen : p.pool.length = p.maxSize := le_antisymm h.size (MemoryPool.isFull_iff.1 hfull)
  constructor
  · intro hclean entry hmem
    have hle : p.maxSize ≤ (p.pool.filter fun e => !e.isExpired now maxAgeSeconds).length :=
      MemoryPool.isFull_iff.1 hclean
    rw [← hlen] at hle
    have hlen' := le_antisymm (List.length_filter_le _ _) hle
    simpa using List.length_filter_eq_length_iff.1 hlen' entry hmem
  · intro hall
    rwa [MemoryPool.cleanup_of_not_expired hall]

theorem addTransaction_eq_false_iff (h : PoolOk p) {S : PoolSort} {cleanupTime now : ℤ}
    {tx : Transaction} {priority : UInt32} :
    (p.addTransaction S cleanupTime now tx priority).1 = false ↔
      p.isFull = true ∧ ∀ entry ∈ p.pool, entry.isExpired cleanupTime 3600 = false := by
  rcases MemoryPool.addTransaction_cases S cleanupTime now tx priority p with
    ⟨hfull, heq⟩ | ⟨hfull, hclean, heq⟩ | ⟨hfull, hclean, heq⟩ <;> rw [heq]
  · simp [hfull]
  · have hno := (h.isFull_cleanup_iff hfull cleanupTime 3600).not.1 (by simp [hclean])
    simp only [Bool.true_eq_false, false_iff, not_and]
    exact fun _ => hno
  · simp only [true_iff]
    exact ⟨hfull, (h.isFull_cleanup_iff hfull cleanupTime 3600).1 hclean⟩

theorem addTransaction_of_false (h : PoolOk p) {S : PoolSort} {cleanupTime now : ℤ}
    {tx : Transaction} {priority : UInt32}
    (hfalse : (p.addTransaction S cleanupTime now tx priority).1 = false) :
    (p.addTransaction S cleanupTime now tx priority).2 = p := by
  obtain ⟨hfull, hnone⟩ := h.addTransaction_eq_false_iff.1 hfalse
  rcases MemoryPool.addTransaction_cases S cleanupTime now tx priority p with
    ⟨-, heq⟩ | ⟨-, -, heq⟩ | ⟨-, -, heq⟩ <;> rw [heq] at hfalse
  · cases hfalse
  · cases hfalse
  · rw [heq]
    exact MemoryPool.cleanup_of_not_expired hnone

end PoolOk

/-- The pool is what was accepted minus what executed cleanups found too old. A transaction is
refused exactly when the pool is full of entries that are not, and then nothing changes. -/
theorem pool_conserved_of_run (maxSize : ℕ) (calls : List PoolCall) :
    let p := run MemoryPool.step (MemoryPool.init maxSize) calls
    let accepted := total MemoryPool.step MemoryPool.accepted (MemoryPool.init maxSize) calls
    let expired := total MemoryPool.step MemoryPool.expired (MemoryPool.init maxSize) calls
    (expired ≤ accepted ∧ (p.pool : Multiset PoolEntry) = accepted - expired) ∧
    ∀ (S : PoolSort) (cleanupTime now : ℤ) (tx : Transaction) (priority : UInt32),
      ((p.addTransaction S cleanupTime now tx priority).1 = false ↔
        maxSize ≤ p.size ∧ ∀ entry ∈ p.pool, entry.isExpired cleanupTime 3600 = false) ∧
      ((p.addTransaction S cleanupTime now tx priority).1 = false →
        (p.addTransaction S cleanupTime now tx priority).2 = p) := by
  intro p accepted expired
  have hok : PoolOk p := (PoolOk.init maxSize).run calls
  have hmax : p.maxSize = maxSize := run_eq MemoryPool.maxSize maxSize_step _ calls
  have hcons : (p.pool : Multiset PoolEntry) + expired = accepted := by
    have h := run_conserved (C := fun p : MemoryPool => (p.pool : Multiset PoolEntry))
      MemoryPool.step_conserves (MemoryPool.init maxSize) calls
    exact h.trans (zero_add _)
  refine ⟨⟨?_, ?_⟩, fun S cleanupTime now tx priority => ⟨?_, hok.addTransaction_of_false⟩⟩
  · rw [← hcons]
    exact Multiset.le_add_left _ _
  · rw [← hcons, add_tsub_cancel_right]
  · rw [hok.addTransaction_eq_false_iff, MemoryPool.isFull_iff, hmax]
    rfl

end BlockchainMessaging
