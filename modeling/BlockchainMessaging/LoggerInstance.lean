import BlockchainMessaging.Lib.Mutex
import BlockchainMessaging.Lib.Run

/-!
# The one logger (`utils/logger.hpp`, `utils/logger.cpp`)

`getInstance` tests `instance` before it takes `instanceMutex` and again when it has it. Any number of
threads call it again and again, and take their steps in any order. A step is one access to
`instance` or to the mutex, taken as atomic, or the run of the constructor, which may throw.
-/

namespace BlockchainMessaging
open Machine Mutex

/-- Where a thread stands in `getInstance`. -/
inductive InstancePlace where
  | outside
  | outerTest
  | locking
  | innerTest
  | constructing
  | storing (p : ℕ)
  | unlocking (thrown : Bool)
  | returning
deriving DecidableEq

/-- The places inside the scope of the `lock_guard`. -/
def InstancePlace.Critical : InstancePlace → Prop
  | innerTest | constructing | storing _ | unlocking _ => True
  | _ => False

/-- The loggers are numbered in the order of their construction; `returned` collects the results. -/
structure InstanceState (κ : Type*) where
  instancePtr : Option ℕ
  constructed : ℕ
  instanceMutex : Option κ
  place : κ → InstancePlace
  returned : List (κ × Option ℕ)

namespace InstanceState
variable {κ : Type*}

def init : InstanceState κ :=
  { instancePtr := none, constructed := 0, instanceMutex := none, place := fun _ => .outside
    returned := [] }

variable [DecidableEq κ]

def goto (s : InstanceState κ) (k : κ) (p : InstancePlace) : InstanceState κ :=
  { s with place := Function.update s.place k p }

/-- The next step of the thread `e.1`; `e.2` says whether the constructor throws, if it runs. A
thread that finds the mutex taken waits. -/
def step (s : InstanceState κ) (e : κ × Bool) : InstanceState κ :=
  match s.place e.1 with
  | .outside => s.goto e.1 .outerTest
  | .outerTest => s.goto e.1 (if s.instancePtr = none then .locking else .returning)
  | .locking =>
    match s.instanceMutex with
    | none => { s.goto e.1 .innerTest with instanceMutex := some e.1 }
    | some _ => s
  | .innerTest => s.goto e.1 (if s.instancePtr = none then .constructing else .unlocking false)
  | .constructing =>
    if e.2 then s.goto e.1 (.unlocking true)
    else { s.goto e.1 (.storing s.constructed) with constructed := s.constructed + 1 }
  | .storing p => { s.goto e.1 (.unlocking false) with instancePtr := some p }
  | .unlocking thrown =>
    { s.goto e.1 (if thrown then .outside else .returning) with instanceMutex := none }
  | .returning =>
    { s.goto e.1 .outside with returned := s.returned ++ [(e.1, s.instancePtr)] }

/-- The state the threads reach when they take their steps in this order. -/
def after (schedule : List (κ × Bool)) : InstanceState κ :=
  run step init schedule

/-- What a thread at a place knows. -/
def Knows (s : InstanceState κ) : InstancePlace → Prop
  | .constructing => s.instancePtr = none ∧ s.constructed = 0
  | .storing p => p = 0 ∧ s.instancePtr = none ∧ s.constructed = 1
  | .unlocking false | .returning => s.instancePtr = some 0
  | _ => True

end InstanceState

open InstanceState

structure InstanceOk {κ : Type*} [DecidableEq κ] (s : InstanceState κ) : Prop where
  guarded : Guarded InstancePlace.Critical s.place s.instanceMutex
  knows : ∀ k, s.Knows (s.place k)
  value : s.instancePtr = none ∨ s.instancePtr = some 0 ∧ s.constructed = 1
  constructed : s.constructed ≤ 1
  pending : s.instancePtr = none → s.constructed = 1 → ∃ k, s.place k = .storing 0
  returned : ∀ r ∈ s.returned, r.2 = some 0

namespace InstanceOk
variable {κ : Type*} [DecidableEq κ] {s : InstanceState κ} {k : κ}

theorem init : InstanceOk (InstanceState.init : InstanceState κ) where
  guarded k := iff_of_false id (by simp [InstanceState.init])
  knows _ := trivial
  value := .inl rfl
  constructed := Nat.zero_le 1
  pending _ h := by cases h
  returned _ h := absurd h List.not_mem_nil

/-- A move that only changes where the thread stands, and not out of `storing`. -/
theorem goto (h : InstanceOk s) {p : InstancePlace} (hcrit : p.Critical ↔ (s.place k).Critical)
    (hknows : s.Knows p) (hstoring : s.place k ≠ .storing 0) : InstanceOk (s.goto k p) where
  guarded := h.guarded.stay hcrit
  knows j := by
    show s.Knows (Function.update s.place k p j)
    rcases eq_or_ne j k with rfl | hne
    · rwa [Function.update_self]
    · rw [Function.update_of_ne hne]
      exact h.knows j
  value := h.value
  constructed := h.constructed
  pending hnone hone := by
    obtain ⟨j, hj⟩ := h.pending hnone hone
    have hne : j ≠ k := by
      rintro rfl
      exact hstoring hj
    exact ⟨j, by rw [← hj]; exact Function.update_of_ne hne ..⟩
  returned := h.returned

/-- While a thread is inside the lock and not storing, nothing constructed waits to be stored. -/
theorem constructed_eq_zero (h : InstanceOk s) (hk : (s.place k).Critical)
    (hstoring : s.place k ≠ .storing 0) (hnone : s.instancePtr = none) : s.constructed = 0 := by
  have hle := h.constructed
  by_contra hne
  obtain ⟨j, hj⟩ := h.pending hnone (by omega)
  have hjk : j = k := h.guarded.unique (by rw [hj]; trivial) hk
  subst hjk
  exact hstoring hj

/-- Nobody else is in the lock, so only what the others know outside of it matters. -/
theorem knows_other (h : InstanceOk s) (s' : InstanceState κ) {j : κ} (hk : (s.place k).Critical)
    (hne : j ≠ k) (hptr : s.instancePtr = some 0 → s'.instancePtr = some 0) :
    s'.Knows (s.place j) := by
  have hout := h.guarded.not_critical hk hne
  have hknows := h.knows j
  cases hj : s.place j with
  | returning =>
    rw [hj] at hknows
    exact hptr hknows
  | innerTest | constructing | storing p | unlocking thrown =>
    rw [hj] at hout
    exact absurd trivial hout
  | outside | outerTest | locking => trivial

theorem construct (h : InstanceOk s) (hk : s.place k = .constructing) :
    InstanceOk { s.goto k (.storing s.constructed) with constructed := s.constructed + 1 } := by
  obtain ⟨hnone, hzero⟩ : s.instancePtr = none ∧ s.constructed = 0 := by
    have hknows := h.knows k
    rwa [hk] at hknows
  have hcrit : (s.place k).Critical := by rw [hk]; trivial
  refine ⟨h.guarded.stay (iff_of_true trivial hcrit), fun j => ?_, .inl hnone, by simp [hzero],
    fun _ _ => ⟨k, by simp [InstanceState.goto, hzero]⟩, h.returned⟩
  rcases eq_or_ne j k with rfl | hne
  · simp [InstanceState.goto, Knows, hzero, hnone]
  · have hother := h.knows_other { s.goto k (.storing s.constructed) with
        constructed := s.constructed + 1 } hcrit hne id
    simpa only [InstanceState.goto, Function.update_of_ne hne] using hother

theorem store (h : InstanceOk s) {p : ℕ} (hk : s.place k = .storing p) :
    InstanceOk { s.goto k (.unlocking false) with instancePtr := some p } := by
  obtain ⟨rfl, hnone, hone⟩ : p = 0 ∧ s.instancePtr = none ∧ s.constructed = 1 := by
    have hknows := h.knows k
    rwa [hk] at hknows
  have hcrit : (s.place k).Critical := by rw [hk]; trivial
  refine ⟨h.guarded.stay (iff_of_true trivial hcrit), fun j => ?_, .inr ⟨rfl, hone⟩, h.constructed,
    fun hnone' => by simp at hnone', h.returned⟩
  rcases eq_or_ne j k with rfl | hne
  · simp [InstanceState.goto, Knows]
  · have hother := h.knows_other { s.goto k (.unlocking false) with instancePtr := some 0 } hcrit hne
      fun _ => rfl
    simpa only [InstanceState.goto, Function.update_of_ne hne] using hother

theorem lock (h : InstanceOk s) (hk : s.place k = .locking) (hfree : s.instanceMutex = none) :
    InstanceOk { s.goto k .innerTest with instanceMutex := some k } := by
  have hg := h.guarded
  rw [hfree] at hg
  refine ⟨hg.acquire trivial, fun j => ?_, h.value, h.constructed, fun hnone hone => ?_, h.returned⟩
  · show s.Knows (Function.update s.place k .innerTest j)
    rcases eq_or_ne j k with rfl | hne
    · rw [Function.update_self]; trivial
    · rw [Function.update_of_ne hne]
      exact h.knows j
  · obtain ⟨j, hj⟩ := h.pending hnone hone
    have hne : j ≠ k := by
      rintro rfl
      rw [hk] at hj
      cases hj
    exact ⟨j, by rw [← hj]; exact Function.update_of_ne hne ..⟩

theorem unlock (h : InstanceOk s) {thrown : Bool} (hk : s.place k = .unlocking thrown) :
    InstanceOk { s.goto k (if thrown then .outside else .returning) with instanceMutex := none } := by
  have hcrit : (s.place k).Critical := by rw [hk]; trivial
  have hknows := h.knows k
  rw [hk] at hknows
  refine ⟨h.guarded.release hcrit (by cases thrown <;> exact id), fun j => ?_, h.value,
    h.constructed, fun hnone hone => ?_, h.returned⟩
  · show s.Knows (Function.update s.place k _ j)
    rcases eq_or_ne j k with rfl | hne
    · rw [Function.update_self]
      cases thrown
      exacts [hknows, trivial]
    · rw [Function.update_of_ne hne]
      exact h.knows j
  · have hzero := h.constructed_eq_zero hcrit (by rw [hk]; simp) hnone
    have hone' : s.constructed = 1 := hone
    omega

theorem finish (h : InstanceOk s) (hk : s.place k = .returning) :
    InstanceOk { s.goto k .outside with returned := s.returned ++ [(k, s.instancePtr)] } := by
  have hptr : s.instancePtr = some 0 := by
    have hknows := h.knows k
    rwa [hk] at hknows
  have hstay : InstanceOk (s.goto k .outside) :=
    h.goto (by rw [hk]; rfl) trivial (by rw [hk]; simp)
  refine ⟨hstay.guarded, hstay.knows, hstay.value, hstay.constructed, hstay.pending, fun r hr => ?_⟩
  rcases List.mem_append.1 hr with hr | hr
  · exact h.returned r hr
  · obtain rfl := List.mem_singleton.1 hr
    exact hptr

theorem step (h : InstanceOk s) (e : κ × Bool) : InstanceOk (s.step e) := by
  have hvalue := h.value
  unfold InstanceState.step
  cases hk : s.place e.1 with
  | outside => exact h.goto (by rw [hk]; rfl) trivial (by rw [hk]; simp)
  | outerTest =>
    refine h.goto (by rw [hk]; split <;> rfl) ?_ (by rw [hk]; simp)
    rcases hvalue with hnone | ⟨hsome, -⟩
    · rw [if_pos hnone]; trivial
    · rw [if_neg (by simp [hsome])]; exact hsome
  | locking =>
    cases hm : s.instanceMutex with
    | none => exact h.lock hk hm
    | some _ => exact h
  | innerTest =>
    have hcrit : (s.place e.1).Critical := by rw [hk]; trivial
    have hstoring : s.place e.1 ≠ .storing 0 := by rw [hk]; simp
    by_cases hnone : s.instancePtr = none
    · simp only [if_pos hnone]
      exact h.goto (iff_of_true trivial hcrit)
        ⟨hnone, h.constructed_eq_zero hcrit hstoring hnone⟩ hstoring
    · simp only [if_neg hnone]
      exact h.goto (iff_of_true trivial hcrit) (hvalue.resolve_left hnone).1 hstoring
  | constructing =>
    simp only
    split
    · exact h.goto (by rw [hk]; exact iff_of_true trivial trivial) trivial (by rw [hk]; simp)
    · exact h.construct hk
  | storing p => exact h.store hk
  | unlocking thrown => exact h.unlock hk
  | returning => exact h.finish hk

end InstanceOk

/-! ### Progress -/

namespace InstanceState
variable {κ : Type*} [DecidableEq κ]

/-- How many of its own steps a thread is at most away from a result, if it need not wait and its
constructor does not throw. -/
def stepsLeft : InstancePlace → ℕ
  | .returning => 1
  | .unlocking false => 2
  | .storing _ => 3
  | .constructing => 4
  | .innerTest => 5
  | .locking => 6
  | .outerTest => 7
  | .outside => 8
  | .unlocking true => 9

/-- The thread is not kept out of the lock. -/
def Free (s : InstanceState κ) (k : κ) : Prop :=
  s.instanceMutex = none ∨ s.instanceMutex = some k

variable {s : InstanceState κ} {k : κ}

/-- A step of a thread that need not wait ends its call or brings the end nearer. -/
theorem step_progress (h : InstanceOk s) (hfree : s.Free k) :
    (s.place k = .returning ∧ (s.step (k, false)).returned = s.returned ++ [(k, some 0)]) ∨
    (s.step (k, false)).returned = s.returned ∧ (s.step (k, false)).Free k ∧
      stepsLeft ((s.step (k, false)).place k) < stepsLeft (s.place k) := by
  have hknows := h.knows k
  unfold step
  cases hk : s.place k with
  | returning =>
    rw [hk] at hknows
    have hptr : s.instancePtr = some 0 := hknows
    exact .inl ⟨rfl, by simp [hptr]⟩
  | locking =>
    have hnone : s.instanceMutex = none := by
      rcases hfree with hnone | hsome
      · exact hnone
      · have hcrit := (h.guarded k).2 hsome
        rw [hk] at hcrit
        exact absurd hcrit id
    exact .inr (by simp [hnone, goto, Free, stepsLeft])
  | outside => exact .inr ⟨rfl, hfree, by simp [goto, stepsLeft]⟩
  | outerTest | innerTest =>
    refine .inr ⟨rfl, hfree, ?_⟩
    by_cases hnone : s.instancePtr = none <;> simp [goto, stepsLeft, hnone]
  | constructing => exact .inr ⟨rfl, hfree, by simp [goto, stepsLeft]⟩
  | storing p => exact .inr ⟨rfl, hfree, by simp [goto, stepsLeft]⟩
  | unlocking thrown => exact .inr ⟨rfl, .inl rfl, by cases thrown <;> simp [goto, stepsLeft]⟩

theorem exists_returned (h : InstanceOk s) (hfree : s.Free k) :
    ∃ n ≤ stepsLeft (s.place k),
      (run step s (List.replicate n (k, false))).returned = s.returned ++ [(k, some 0)] := by
  induction hleft : stepsLeft (s.place k) using Nat.strong_induction_on generalizing s with
  | _ left ih =>
    subst hleft
    rcases step_progress h hfree with ⟨hk, hret⟩ | ⟨hret, hfree', hlt⟩
    · exact ⟨1, by rw [hk]; exact le_rfl, hret⟩
    · obtain ⟨n, hn, hrun⟩ := ih _ hlt (h.step (k, false)) hfree' rfl
      refine ⟨n + 1, by omega, ?_⟩
      rw [← hret, ← hrun, List.replicate_succ]
      rfl

end InstanceState

end BlockchainMessaging
