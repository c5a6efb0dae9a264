import BlockchainMessaging.Lib.Interleaving
import BlockchainMessaging.Lib.Mutex
import Mathlib.Logic.Relation

/-!
# An object behind a mutex

Any number of threads make calls on an object, and every call holds the mutex from its first access to
the object to its last. The threads take their steps in any order; an access is one step. If each
call does, with nobody else at the object, what `exec` says, then the threads get the answers that
`exec` gives when the calls are made one after the other, in the order in which they have given the
mutex back. The calls of a thread are those the schedule gives it, and it can always come to return
from them.
-/

/-- A call starts with the local state `enter`. A turn is one access to the object, and ends in the
next local state or in the answer. -/
structure Monitor (σ ι ω l : Type*) where
  enter : ι → l
  turn : l → σ → σ × (l ⊕ ω)

namespace Monitor
open Machine Mutex

/-- Where a thread stands. -/
inductive Place (ι ω l : Type*) where
  | idle
  | waiting (call : ι)
  | inside (call : ι) (x : l)
  | unlocking (call : ι) (answer : ω)
  | returning (call : ι) (answer : ω)

namespace Place
variable {ι ω l : Type*}

def Critical : Place ι ω l → Prop
  | inside _ _ | unlocking _ _ => True
  | _ => False

/-- The call a thread at this place is in. -/
def inCall : Place ι ω l → Option ι
  | idle => none
  | waiting call | inside call _ | unlocking call _ | returning call _ => some call

/-- The call that has given the mutex back and has not returned. -/
def due : Place ι ω l → List (ι × ω)
  | returning call answer => [(call, answer)]
  | _ => []

end Place

/-- `returned` collects the answers as the threads get them. `order` is no part of the program: it
notes the calls as they give the mutex back. -/
structure State (κ σ ι ω l : Type*) where
  object : σ
  mutex : Option κ
  place : κ → Place ι ω l
  order : List (κ × ι × ω)
  returned : List (κ × ι × ω)

variable {κ σ ι ω l : Type*} (M : Monitor σ ι ω l)

def init (object : σ) : State κ σ ι ω l :=
  { object := object, mutex := none, place := fun _ => .idle, order := [], returned := [] }

def State.goto [DecidableEq κ] (s : State κ σ ι ω l) (k : κ) (p : Place ι ω l) : State κ σ ι ω l :=
  { s with place := Function.update s.place k p }

/-- The next step of the thread `e.1`; `e.2` is the call it makes, if it is in none. A thread that
finds the mutex taken waits. -/
def step [DecidableEq κ] (s : State κ σ ι ω l) (e : κ × ι) : State κ σ ι ω l :=
  match s.place e.1 with
  | .idle => s.goto e.1 (.waiting e.2)
  | .waiting call =>
    match s.mutex with
    | none => { s.goto e.1 (.inside call (M.enter call)) with mutex := some e.1 }
    | some _ => s
  | .inside call x =>
    match M.turn x s.object with
    | (object, .inl x') => { s.goto e.1 (.inside call x') with object := object }
    | (object, .inr answer) => { s.goto e.1 (.unlocking call answer) with object := object }
  | .unlocking call answer =>
    { s.goto e.1 (.returning call answer) with
      mutex := none
      order := s.order ++ [(e.1, call, answer)] }
  | .returning call answer =>
    { s.goto e.1 .idle with returned := s.returned ++ [(e.1, call, answer)] }

/-- A turn after which the call goes on. -/
def Goes (a b : l × σ) : Prop :=
  M.turn a.1 a.2 = (b.2, .inl b.1)

/-- The turns from `x` on, with nobody else at the object. -/
inductive Ends : l → σ → σ → ω → Prop
  | done {x : l} {s s' : σ} {o : ω} (h : M.turn x s = (s', .inr o)) : Ends x s s' o
  | more {x x' : l} {s s' s'' : σ} {o : ω} (h : M.turn x s = (s', .inl x')) (hends : Ends x' s' s'' o) :
    Ends x s s'' o

/-- Every call, with nobody else at the object, does what `exec` says. -/
def Performs (exec : σ → ι → σ × ω) : Prop :=
  ∀ s i, M.Ends (M.enter i) s (exec s i).1 (exec s i).2

/-- The calls made one after the other. -/
def objectAfter (exec : σ → ι → σ × ω) (s₀ : σ) (calls : List ι) : σ :=
  run (fun s i => (exec s i).1) s₀ calls

def answersTo (exec : σ → ι → σ × ω) (s₀ : σ) (calls : List ι) : List ω :=
  outputs (fun s i => (exec s i).1) (fun s i => [(exec s i).2]) s₀ calls

namespace State

/-- The calls that have given the mutex back. -/
def calls (s : State κ σ ι ω l) : List ι :=
  s.order.map fun e => e.2.1

def answers (s : State κ σ ι ω l) : List ω :=
  s.order.map fun e => e.2.2

/-- What a thread at a place knows of the object. -/
def Knows (exec : σ → ι → σ × ω) (s₀ : σ) (s : State κ σ ι ω l) : Place ι ω l → Prop
  | .inside call x =>
    let past := objectAfter exec s₀ s.calls
    Relation.ReflTransGen M.Goes (M.enter call, past) (x, s.object) ∧
      M.Ends x s.object (exec past call).1 (exec past call).2
  | .unlocking call answer => exec (objectAfter exec s₀ s.calls) call = (s.object, answer)
  | _ => True

end State

variable [DecidableEq κ]

structure Linear (exec : σ → ι → σ × ω) (s₀ : σ) (s : State κ σ ι ω l) : Prop where
  guarded : Guarded Place.Critical s.place s.mutex
  knows : ∀ k, s.Knows M exec s₀ (s.place k)
  free : s.mutex = none → s.object = objectAfter exec s₀ s.calls
  answers : s.answers = answersTo exec s₀ s.calls
  own : ∀ k, inputsOf k s.order = inputsOf k s.returned ++ (s.place k).due

variable {M} {exec : σ → ι → σ × ω} {s₀ : σ} {s s' : State κ σ ι ω l} {k : κ} {i : ι} {x : l} {o : ω}

omit [DecidableEq κ] in
theorem knows_of_not_critical {p : Place ι ω l} (hp : ¬ p.Critical) : s.Knows M exec s₀ p := by
  cases p with
  | inside | unlocking => exact absurd trivial hp
  | idle | waiting | returning => trivial

namespace Linear

theorem init (s₀ : σ) : Linear M exec s₀ (Monitor.init s₀ : State κ σ ι ω l) where
  guarded k := iff_of_false id (by simp [Monitor.init])
  knows _ := trivial
  free _ := rfl
  answers := rfl
  own _ := rfl

/-- A step of a thread that is at the object or comes to it: the others are not. -/
theorem knows_update (p : Place ι ω l) (hp : s'.Knows M exec s₀ p)
    (hother : ∀ j ≠ k, ¬ (s.place j).Critical) (j : κ) :
    s'.Knows M exec s₀ (Function.update s.place k p j) := by
  rcases eq_or_ne j k with rfl | hne
  · rwa [Function.update_self]
  · rw [Function.update_of_ne hne]
    exact knows_of_not_critical (hother j hne)

theorem due_update (h : Linear M exec s₀ s) (p : Place ι ω l) (hp : p.due = (s.place k).due) (j : κ) :
    inputsOf j s.order = inputsOf j s.returned ++ (Function.update s.place k p j).due := by
  rcases eq_or_ne j k with rfl | hne
  · rw [Function.update_self, hp]
    exact h.own j
  · rw [Function.update_of_ne hne]
    exact h.own j

theorem call (h : Linear M exec s₀ s) (hk : s.place k = .idle) (i : ι) :
    Linear M exec s₀ (s.goto k (.waiting i)) where
  guarded := h.guarded.stay (by rw [hk]; rfl)
  knows j := by
    show s.Knows M exec s₀ (Function.update s.place k _ j)
    rcases eq_or_ne j k with rfl | hne
    · rw [Function.update_self]
      trivial
    · rw [Function.update_of_ne hne]
      exact h.knows j
  free := h.free
  answers := h.answers
  own := h.due_update _ (by rw [hk]; rfl)

theorem lock (h : Linear M exec s₀ s) (hM : M.Performs exec) (hk : s.place k = .waiting i)
    (hfree : s.mutex = none) :
    Linear M exec s₀ { s.goto k (.inside i (M.enter i)) with mutex := some k } where
  guarded := by
    have hg := h.guarded
    rw [hfree] at hg
    exact hg.acquire trivial
  knows := by
    refine knows_update _ ?_ fun j _ hj => ?_
    · show Relation.ReflTransGen _ _ (_, s.object) ∧ M.Ends _ s.object _ _
      rw [h.free hfree]
      exact ⟨.refl, hM _ i⟩
    · have hown := (h.guarded j).1 hj
      rw [hfree] at hown
      cases hown
  free hnone := by cases hnone
  answers := h.answers
  own := h.due_update _ (by rw [hk]; rfl)

theorem turn (h : Linear M exec s₀ s) (hk : s.place k = .inside i x) (p : Place ι ω l) (object : σ)
    (hcrit : p.Critical) (hdue : p.due = [])
    (hp : State.Knows M exec s₀ { s.goto k p with object := object } p) :
    Linear M exec s₀ { s.goto k p with object := object } := by
  have hcrit' : (s.place k).Critical := by rw [hk]; trivial
  refine ⟨h.guarded.stay (iff_of_true hcrit hcrit'),
    knows_update p hp fun j hne => h.guarded.not_critical hcrit' hne, fun hnone => ?_, h.answers,
    h.due_update p (by rw [hdue, hk]; rfl)⟩
  have hown := (h.guarded k).1 hcrit'
  rw [show s.mutex = none from hnone] at hown
  cases hown

theorem unlock (h : Linear M exec s₀ s) (hk : s.place k = .unlocking i o) :
    Linear M exec s₀ { s.goto k (.returning i o) with
      mutex := none
      order := s.order ++ [(k, i, o)] } := by
  have hcrit : (s.place k).Critical := by rw [hk]; trivial
  have hexec : exec (objectAfter exec s₀ s.calls) i = (s.object, o) := by
    have hknows := h.knows k
    rwa [hk] at hknows
  have hcalls : (s.order ++ [(k, i, o)]).map (fun e => e.2.1) = s.calls ++ [i] := by
    simp [State.calls]
  refine ⟨h.guarded.release hcrit id,
    knows_update _ trivial fun j hne => h.guarded.not_critical hcrit hne, fun _ => ?_, ?_,
    fun j => ?_⟩
  · show s.object = run _ s₀ (List.map _ _)
    rw [hcalls, run_concat]
    exact (congrArg Prod.fst hexec).symm
  · show List.map _ (s.order ++ [(k, i, o)]) = outputs _ _ s₀ (List.map _ _)
    rw [hcalls, outputs_concat, List.map_append]
    have hlast : (exec (objectAfter exec s₀ s.calls) i).2 = o := congrArg Prod.snd hexec
    exact congrArg₂ (· ++ ·) h.answers (congrArg (fun o => [o]) hlast.symm)
  · show inputsOf j (s.order ++ [(k, i, o)]) = inputsOf j s.returned ++ (Function.update s.place k _ j).due
    rw [inputsOf_concat, h.own j]
    rcases eq_or_ne j k with rfl | hne
    · simp [hk, Place.due]
    · simp [Function.update_of_ne hne, hne.symm]

theorem finish (h : Linear M exec s₀ s) (hk : s.place k = .returning i o) :
    Linear M exec s₀ { s.goto k .idle with returned := s.returned ++ [(k, i, o)] } where
  guarded := h.guarded.stay (by rw [hk]; rfl)
  knows j := by
    show s.Knows M exec s₀ (Function.update s.place k _ j)
    rcases eq_or_ne j k with rfl | hne
    · rw [Function.update_self]
      trivial
    · rw [Function.update_of_ne hne]
      exact h.knows j
  free := h.free
  answers := h.answers
  own j := by
    show inputsOf j s.order = inputsOf j (s.returned ++ [(k, i, o)]) ++ (Function.update s.place k _ j).due
    rw [inputsOf_concat, h.own j]
    rcases eq_or_ne j k with rfl | hne
    · simp [hk, Place.due]
    · simp [Function.update_of_ne hne, hne.symm]

theorem step (h : Linear M exec s₀ s) (hM : M.Performs exec) (e : κ × ι) :
    Linear M exec s₀ (M.step s e) := by
  have hknows := h.knows e.1
  unfold Monitor.step
  cases hk : s.place e.1 with
  | idle => exact h.call hk e.2
  | waiting i =>
    cases hm : s.mutex with
    | none => exact h.lock hM hk hm
    | some _ => exact h
  | inside i x =>
    rw [hk] at hknows
    obtain ⟨hgone, hends⟩ := hknows
    cases hends with
    | done hturn =>
      simp only [hturn]
      exact h.turn hk _ _ trivial rfl rfl
    | more hturn hends =>
      simp only [hturn]
      exact h.turn hk _ _ trivial rfl ⟨hgone.tail hturn, hends⟩
  | unlocking i o => exact h.unlock hk
  | returning i o => exact h.finish hk

end Linear

theorem linear_run (hM : M.Performs exec) (s₀ : σ) (schedule : List (κ × ι)) :
    Linear M exec s₀ (run M.step (init s₀) schedule) :=
  run_inv (fun _ e h => h.step hM e) (Linear.init s₀) schedule

/-- What the calls keep between their turns, and leave behind, holds of the object at every moment. -/
theorem Linear.object_keeps (h : Linear M exec s₀ s) {I : σ → Prop} {J : l × σ → Prop}
    (hpast : I (objectAfter exec s₀ s.calls))
    (hexec : ∀ i, I (exec (objectAfter exec s₀ s.calls) i).1)
    (henter : ∀ i, J (M.enter i, objectAfter exec s₀ s.calls))
    (hgoes : ∀ a b, J a → M.Goes a b → J b) (hJ : ∀ a, J a → I a.2) : I s.object := by
  cases hm : s.mutex with
  | none => rwa [h.free hm]
  | some k =>
    have hcrit : (s.place k).Critical := (h.guarded k).2 hm
    have hknows := h.knows k
    cases hplace : s.place k with
    | idle | waiting | returning => rw [hplace] at hcrit; exact hcrit.elim
    | inside i x =>
      rw [hplace] at hknows
      have hkept : J (x, s.object) :=
        hknows.1.head_induction_on (motive := fun a _ => J a → J (x, s.object)) id
          (fun hab _ ih ha => ih (hgoes _ _ ha hab)) (henter i)
      exact hJ _ hkept
    | unlocking i o =>
      rw [hplace] at hknows
      have hleft : s.object = (exec (objectAfter exec s₀ s.calls) i).1 :=
        (congrArg Prod.fst hknows).symm
      rw [hleft]
      exact hexec i

omit [DecidableEq κ] in
theorem getElem?_answersTo (exec : σ → ι → σ × ω) (s₀ : σ) (calls : List ι) (n : ℕ) :
    (answersTo exec s₀ calls)[n]? =
      calls[n]?.map fun i => (exec (objectAfter exec s₀ (calls.take n)) i).2 := by
  induction calls generalizing s₀ n with
  | nil => rfl
  | cons i calls ih =>
    cases n with
    | zero => rfl
    | succ n => exact ih (exec s₀ i).1 n

/-- The answer of a call is the one that `exec` gives behind the calls before it. -/
theorem Linear.answer_eq (h : Linear M exec s₀ s) {n : ℕ} (hn : s.order[n]? = some (k, i, o)) :
    o = (exec (objectAfter exec s₀ (s.calls.take n)) i).2 := by
  have hanswer : s.answers[n]? = some o := by simp [State.answers, hn]
  have hcall : s.calls[n]? = some i := by simp [State.calls, hn]
  rw [h.answers, getElem?_answersTo, hcall] at hanswer
  exact (Option.some.inj hanswer).symm

theorem order_prefix_run (s : State κ σ ι ω l) (schedule : List (κ × ι)) :
    s.order <+: (run M.step s schedule).order := by
  refine run_inv (I := fun s' : State κ σ ι ω l => s.order <+: s'.order) (fun s' e h => ?_)
    List.prefix_rfl schedule
  unfold step
  cases s'.place e.1 with
  | idle | returning => exact h
  | waiting => cases s'.mutex <;> exact h
  | unlocking => exact h.trans (List.prefix_append _ _)
  | inside call x =>
    rcases hturn : M.turn x s'.object with ⟨object, x' | o⟩ <;> simpa [hturn, State.goto] using h

/-- What is in the order stays in it, in front of all that comes later. -/
theorem order_prefix_take (s : State κ σ ι ω l) (schedule : List (κ × ι)) (n : ℕ) :
    (run M.step s (schedule.take n)).order <+: (run M.step s schedule).order := by
  have hrest : run M.step s schedule = run M.step (run M.step s (schedule.take n)) (schedule.drop n) := by
    rw [← run_append, List.take_append_drop]
  rw [hrest]
  exact order_prefix_run _ _

/-! ### The calls the threads are given -/

/-- The calls of one thread: those it has returned from, and the one it is in. -/
def State.callsOf (k : κ) (s : State κ σ ι ω l) : List ι :=
  (inputsOf k s.returned).map Prod.fst ++ (s.place k).inCall.toList

/-- What the step `e` makes the thread `k` begin: one that is in no call begins the call of `e`. -/
def begins (k : κ) (s : State κ σ ι ω l) (e : κ × ι) : List ι :=
  if e.1 = k ∧ (s.place k).inCall.isNone then [e.2] else []

/-- The calls that the schedule gives the thread `k`. -/
def begun (M : Monitor σ ι ω l) (k : κ) (s : State κ σ ι ω l) (schedule : List (κ × ι)) : List ι :=
  outputs M.step (begins k) s schedule

theorem begins_of_ne {j : κ} (h : k ≠ j) : begins j s (k, i) = [] :=
  if_neg fun hk => h hk.1

theorem begins_of_inCall {c : ι} (h : (s.place k).inCall = some c) (j : κ) :
    begins j s (k, i) = [] := by
  refine if_neg ?_
  rintro ⟨rfl, hnone⟩
  rw [h] at hnone
  cases hnone

theorem callsOf_of_ne {j : κ} (h : j ≠ k) {p : Place ι ω l}
    (hplace : s'.place = Function.update s.place k p)
    (hreturned : inputsOf j s'.returned = inputsOf j s.returned) : s'.callsOf j = s.callsOf j := by
  rw [State.callsOf, State.callsOf, hplace, hreturned, Function.update_of_ne h]

/-- A thread goes on in its call. -/
theorem callsOf_goOn {p : Place ι ω l} (hp : p.inCall = (s.place k).inCall)
    (hplace : s'.place = Function.update s.place k p) (hreturned : s'.returned = s.returned) (j : κ) :
    s'.callsOf j = s.callsOf j := by
  rcases eq_or_ne j k with rfl | hne
  · rw [State.callsOf, State.callsOf, hplace, hreturned, Function.update_self, hp]
  · exact callsOf_of_ne hne hplace (by rw [hreturned])

/-- A thread returns from its call. -/
theorem callsOf_finish (hk : (s.place k).inCall = some i)
    (hplace : s'.place = Function.update s.place k .idle)
    (hreturned : s'.returned = s.returned ++ [(k, i, o)]) (j : κ) : s'.callsOf j = s.callsOf j := by
  rcases eq_or_ne j k with rfl | hne
  · rw [State.callsOf, State.callsOf, hplace, hreturned, Function.update_self, hk, inputsOf_concat]
    simp [Place.inCall]
  · exact callsOf_of_ne hne hplace (by rw [hreturned, inputsOf_concat, if_neg hne.symm, List.append_nil])

/-- A thread begins a call. -/
theorem callsOf_call (hk : s.place k = .idle) (i : ι) (j : κ) :
    (s.goto k (.waiting i)).callsOf j = s.callsOf j ++ begins j s (k, i) := by
  rcases eq_or_ne k j with rfl | hne
  · simp [State.callsOf, State.goto, begins, hk, Place.inCall]
  · rw [begins_of_ne hne, List.append_nil]
    exact callsOf_of_ne hne.symm rfl rfl

theorem callsOf_step (M : Monitor σ ι ω l) (s : State κ σ ι ω l) (e : κ × ι) (j : κ) :
    (M.step s e).callsOf j = s.callsOf j ++ begins j s e := by
  obtain ⟨k, i⟩ := e
  have hstays : ∀ {c : ι} {s' : State κ σ ι ω l}, (s.place k).inCall = some c →
      s'.callsOf j = s.callsOf j → s'.callsOf j = s.callsOf j ++ begins j s (k, i) := by
    intro c s' hc heq
    rw [heq, begins_of_inCall hc, List.append_nil]
  unfold step
  cases hk : s.place k with
  | idle => exact callsOf_call hk i j
  | waiting c =>
    have hc : (s.place k).inCall = some c := by rw [hk]; rfl
    refine hstays hc ?_
    cases s.mutex with
    | none => refine callsOf_goOn (p := .inside c (M.enter c)) hc.symm ?_ ?_ j <;> rfl
    | some _ => rfl
  | inside c x =>
    have hc : (s.place k).inCall = some c := by rw [hk]; rfl
    refine hstays hc ?_
    rcases hturn : M.turn x s.object with ⟨object, x' | o⟩ <;> simp only [hturn]
    · refine callsOf_goOn (p := .inside c x') hc.symm ?_ ?_ j <;> rfl
    · refine callsOf_goOn (p := .unlocking c o) hc.symm ?_ ?_ j <;> rfl
  | unlocking c o =>
    have hc : (s.place k).inCall = some c := by rw [hk]; rfl
    refine hstays hc (callsOf_goOn (p := .returning c o) hc.symm ?_ ?_ j) <;> rfl
  | returning c o =>
    have hc : (s.place k).inCall = some c := by rw [hk]; rfl
    refine hstays hc (callsOf_finish (o := o) hc ?_ ?_ j) <;> rfl

/-- The calls of a thread are those that the schedule has given it, in its order. -/
theorem callsOf_run (M : Monitor σ ι ω l) (s : State κ σ ι ω l) (schedule : List (κ × ι)) (k : κ) :
    (run M.step s schedule).callsOf k = s.callsOf k ++ begun M k s schedule := by
  have hstep : ∀ (s : State κ σ ι ω l) (e : κ × ι),
      (M.step s e).callsOf k = s.callsOf k ++ begins k (id s) e := fun s e => callsOf_step M s e k
  exact run_log (fun _ _ => rfl) hstep s schedule

theorem callsOf_run_init (M : Monitor σ ι ω l) (s₀ : σ) (schedule : List (κ × ι)) (k : κ) :
    (run M.step (init s₀) schedule).callsOf k = begun M k (init s₀) schedule :=
  callsOf_run M (init s₀) schedule k

/-! ### No thread is kept waiting for good -/

/-- A thread that has its answer gives the mutex back and returns. -/
theorem run_of_unlocking (hk : s.place k = .unlocking i o) :
    run M.step s [(k, i), (k, i)] = { s.goto k .idle with
      mutex := none
      order := s.order ++ [(k, i, o)]
      returned := s.returned ++ [(k, i, o)] } := by
  simp [run, step, hk, State.goto]

/-- A thread at the object comes to the end of its turns. -/
theorem exists_run_unlocking {object : σ} (hends : M.Ends x s.object object o)
    (hk : s.place k = .inside i x) :
    ∃ more, run M.step s more = { s.goto k (.unlocking i o) with object := object } := by
  generalize hobject : s.object = object₀ at hends
  induction hends generalizing s with
  | done hturn =>
    subst hobject
    exact ⟨[(k, i)], by simp [run, step, hk, hturn]⟩
  | @more x x' _ object₁ _ _ hturn _ ih =>
    subst hobject
    obtain ⟨more, hmore⟩ := ih (s := { s.goto k (.inside i x') with object := object₁ })
      (by simp [State.goto]) rfl
    refine ⟨(k, i) :: more, ?_⟩
    have hstep : M.step s (k, i) = { s.goto k (.inside i x') with object := object₁ } := by
      simp [step, hk, hturn]
    show run M.step (M.step s (k, i)) more = _
    rw [hstep, hmore]
    simp [State.goto]

/-- A thread that has the mutex can leave, whatever the others do not do. -/
theorem Linear.exists_run_leave (h : Linear M exec s₀ s) (hk : (s.place k).Critical) :
    ∃ more, (run M.step s more).mutex = none ∧
      (run M.step s more).place = Function.update s.place k .idle ∧
      ∀ j, (run M.step s more).callsOf j = s.callsOf j := by
  have hknows := h.knows k
  cases hplace : s.place k with
  | idle | waiting | returning => rw [hplace] at hk; cases hk
  | unlocking i o =>
    refine ⟨[(k, i), (k, i)], ?_⟩
    rw [run_of_unlocking hplace]
    exact ⟨rfl, rfl, callsOf_finish (by rw [hplace]; rfl) rfl rfl⟩
  | inside i x =>
    rw [hplace] at hknows
    obtain ⟨more, hmore⟩ := exists_run_unlocking hknows.2 hplace
    refine ⟨more ++ [(k, i), (k, i)], ?_⟩
    rw [run_append, hmore, run_of_unlocking (Function.update_self ..)]
    have hidle := Function.update_idem (.unlocking i (exec (objectAfter exec s₀ s.calls) i).2)
      Place.idle s.place (a := k)
    exact ⟨rfl, hidle, callsOf_finish (by rw [hplace]; rfl) hidle rfl⟩

/-- The calls of a thread that is idle again are those it had, returned. -/
theorem Linear.exists_run_idle (h : Linear M exec s₀ s) (hM : M.Performs exec) (k : κ) :
    ∃ more, (run M.step s more).place k = .idle ∧
      (run M.step s more).callsOf k = s.callsOf k := by
  have hget : ∀ {s : State κ σ ι ω l} {i : ι}, Linear M exec s₀ s → s.place k = .waiting i →
      s.mutex = none → ∃ more, (run M.step s more).place k = .idle ∧
        (run M.step s more).callsOf k = s.callsOf k := by
    intro s i h hwait hfree
    have hin := h.lock hM hwait hfree
    obtain ⟨more, -, hidle, hcalls⟩ :=
      hin.exists_run_leave (k := k) (by simp [State.goto, Place.Critical])
    refine ⟨(k, i) :: more, ?_⟩
    have hstep : M.step s (k, i) = { s.goto k (.inside i (M.enter i)) with mutex := some k } := by
      simp [Monitor.step, hwait, hfree]
    show (run M.step (M.step s (k, i)) more).place k = .idle ∧
      (run M.step (M.step s (k, i)) more).callsOf k = _
    rw [hstep, hidle, Function.update_self, hcalls k]
    have hc : (s.place k).inCall = some i := by rw [hwait]; rfl
    refine ⟨rfl, callsOf_goOn (p := .inside i (M.enter i)) hc.symm ?_ ?_ k⟩ <;> rfl
  cases hplace : s.place k with
  | idle => exact ⟨[], hplace, rfl⟩
  | returning i o =>
    refine ⟨[(k, i)], by simp [run, Monitor.step, hplace, State.goto], ?_⟩
    have hc : (s.place k).inCall = some i := by rw [hplace]; rfl
    show (M.step s (k, i)).callsOf k = _
    rw [callsOf_step, begins_of_inCall hc, List.append_nil]
  | inside | unlocking =>
    obtain ⟨more, -, hidle, hcalls⟩ := h.exists_run_leave (k := k) (by rw [hplace]; trivial)
    exact ⟨more, by rw [hidle, Function.update_self], hcalls k⟩
  | waiting i =>
    cases hm : s.mutex with
    | none => exact hget h hplace hm
    | some j =>
      have hj : (s.place j).Critical := (h.guarded j).2 hm
      have hne : k ≠ j := by
        rintro rfl
        rw [hplace] at hj
        cases hj
      obtain ⟨more, hfree, hleft, hcalls⟩ := h.exists_run_leave hj
      have hlater : Linear M exec s₀ (run M.step s more) := run_inv (fun _ e h => h.step hM e) h more
      have hwait : (run M.step s more).place k = .waiting i := by
        rw [hleft, Function.update_of_ne hne, hplace]
      obtain ⟨more', hidle, hcalls'⟩ := hget hlater hwait hfree
      refine ⟨more ++ more', ?_⟩
      rw [run_append]
      exact ⟨hidle, hcalls'.trans (hcalls k)⟩

/-- From everywhere a thread can come to the end of its call: it has then returned from all that the
schedule has given it. -/
theorem exists_append_returned (hM : M.Performs exec) (s₀ : σ) (schedule : List (κ × ι)) (k : κ) :
    ∃ more, let s := run M.step (init s₀) (schedule ++ more)
      s.place k = .idle ∧ (inputsOf k s.returned).map Prod.fst = begun M k (init s₀) schedule := by
  obtain ⟨more, hidle, hcalls⟩ := (linear_run hM s₀ schedule).exists_run_idle hM k
  refine ⟨more, ?_⟩
  rw [callsOf_run_init, State.callsOf, hidle] at hcalls
  rw [run_append]
  exact ⟨hidle, by simpa [Place.inCall] using hcalls⟩

end Monitor
