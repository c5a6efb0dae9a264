import BlockchainMessaging.Lib.Monitor

/-!
# Two objects, each behind a mutex of its own

A thread carries out plans: calls made one after the other, some on the one object, some on the
other. Each object stays that of its own order of calls, no thread is at both at once, and of a call
that has been made all calls planned before it have been made too.
-/

namespace Monitor
open Machine Mutex

/-- `todo` is the rest of the plan each thread is at. `begun` and `done` are no part of the program:
they note what each thread has turned to, and the calls it has returned from. -/
structure PairState (κ γ σ₁ ι₁ ω₁ l₁ σ₂ ι₂ ω₂ l₂ : Type*) where
  fst : State κ σ₁ ι₁ ω₁ l₁
  snd : State κ σ₂ ι₂ ω₂ l₂
  todo : κ → List (ι₁ ⊕ ι₂)
  begun : κ → List γ
  done : κ → List (ι₁ ⊕ ι₂)

variable {κ γ σ ι ω l σ₁ ι₁ ω₁ l₁ σ₂ ι₂ ω₂ l₂ : Type*}

def pairInit (s₁ : σ₁) (s₂ : σ₂) : PairState κ γ σ₁ ι₁ ω₁ l₁ σ₂ ι₂ ω₂ l₂ :=
  { fst := init s₁, snd := init s₂, todo := fun _ => [], begun := fun _ => [], done := fun _ => [] }

section
variable (M₁ : Monitor σ₁ ι₁ ω₁ l₁) (M₂ : Monitor σ₂ ι₂ ω₂ l₂) (plan : γ → List (ι₁ ⊕ ι₂))
  [DecidableEq κ]

/-- The thread `k` goes on to the rest of its plan, if it is no more in the call `x`. -/
def PairState.goOn (s : PairState κ γ σ₁ ι₁ ω₁ l₁ σ₂ ι₂ ω₂ l₂) (k : κ) (x : ι₁ ⊕ ι₂)
    (rest : List (ι₁ ⊕ ι₂)) (returned : Bool) : PairState κ γ σ₁ ι₁ ω₁ l₁ σ₂ ι₂ ω₂ l₂ :=
  if returned then
    { s with
      todo := Function.update s.todo k rest
      done := Function.update s.done k (s.done k ++ [x]) }
  else s

/-- The next step of the thread `e.1`; it turns to `e.2`, if it has come to the end of a plan. -/
def pairStep (s : PairState κ γ σ₁ ι₁ ω₁ l₁ σ₂ ι₂ ω₂ l₂) (e : κ × γ) :
    PairState κ γ σ₁ ι₁ ω₁ l₁ σ₂ ι₂ ω₂ l₂ :=
  match s.todo e.1 with
  | [] =>
    { s with
      todo := Function.update s.todo e.1 (plan e.2)
      begun := Function.update s.begun e.1 (s.begun e.1 ++ [e.2]) }
  | .inl i :: rest =>
    let fst := M₁.step s.fst (e.1, i)
    { s with fst := fst }.goOn e.1 (.inl i) rest (fst.place e.1).inCall.isNone
  | .inr i :: rest =>
    let snd := M₂.step s.snd (e.1, i)
    { s with snd := snd }.goOn e.1 (.inr i) rest (snd.place e.1).inCall.isNone

end

/-! ### What a step does to a thread and to the others -/

section
variable {M : Monitor σ ι ω l} [DecidableEq κ] {s : State κ σ ι ω l} {j k : κ} {i : ι}

theorem place_step_of_ne (h : j ≠ k) : (M.step s (k, i)).place j = s.place j := by
  unfold step
  cases hk : s.place k with
  | idle | unlocking | returning => simp [State.goto, Function.update_of_ne h]
  | waiting => cases s.mutex <;> simp [State.goto, Function.update_of_ne h]
  | inside call x =>
    rcases hturn : M.turn x s.object with ⟨object, x' | o⟩ <;>
      simp [hturn, State.goto, Function.update_of_ne h]

/-- A thread stays in its call, or returns from it. -/
theorem step_own (hcall : ∀ c, (s.place k).inCall = some c → c = i) :
    ((M.step s (k, i)).returned = s.returned ∧ ((M.step s (k, i)).place k).inCall = some i) ∨
      ∃ o, (M.step s (k, i)).returned = s.returned ++ [(k, i, o)] ∧
        ((M.step s (k, i)).place k).inCall = none := by
  unfold step
  cases hk : s.place k with
  | idle => exact .inl ⟨rfl, by simp [State.goto, Place.inCall]⟩
  | returning c o =>
    obtain rfl := hcall c (by rw [hk]; rfl)
    exact .inr ⟨o, rfl, by simp [State.goto, Place.inCall]⟩
  | unlocking c o =>
    obtain rfl := hcall c (by rw [hk]; rfl)
    exact .inl ⟨rfl, by simp [State.goto, Place.inCall]⟩
  | waiting c =>
    obtain rfl := hcall c (by rw [hk]; rfl)
    cases s.mutex with
    | none => exact .inl ⟨rfl, by simp [State.goto, Place.inCall]⟩
    | some _ => exact .inl ⟨rfl, by simp [hk, Place.inCall]⟩
  | inside c x =>
    obtain rfl := hcall c (by rw [hk]; rfl)
    rcases hturn : M.turn x s.object with ⟨object, x' | o⟩ <;>
      exact .inl (by simp [hturn, State.goto, Place.inCall])

theorem inCall_of_critical {p : Place ι ω l} (h : p.Critical) : ∃ c, p.inCall = some c := by
  cases p with
  | inside c x => exact ⟨c, rfl⟩
  | unlocking c o => exact ⟨c, rfl⟩
  | idle | waiting | returning => exact h.elim

end

/-! ### One of the two objects -/

section
variable {α : Type*} [DecidableEq κ]

/-- `pick` finds the calls on this object among those that are planned. -/
structure Side (M : Monitor σ ι ω l) (exec : σ → ι → σ × ω) (s₀ : σ) (pick : α → Option ι)
    (s : State κ σ ι ω l) (todo done : κ → List α) : Prop where
  linear : Linear M exec s₀ s
  call : ∀ k i, (s.place k).inCall = some i → ∃ x rest, todo k = x :: rest ∧ pick x = some i
  made : ∀ k, (inputsOf k s.returned).map Prod.fst = (done k).filterMap pick

variable {M : Monitor σ ι ω l} {exec : σ → ι → σ × ω} {s₀ : σ} {pick : α → Option ι}
  {s : State κ σ ι ω l} {todo done : κ → List α} {k : κ} {x : α} {rest : List α} {i : ι} {o : ω}

namespace Side

theorem init (s₀ : σ) :
    Side M exec s₀ pick (Monitor.init s₀ : State κ σ ι ω l) (fun _ => []) (fun _ => []) where
  linear := Linear.init s₀
  call _ _ h := by cases h
  made _ := rfl

theorem turnTo (h : Side M exec s₀ pick s todo done) (hk : todo k = []) (plan : List α) :
    Side M exec s₀ pick s (Function.update todo k plan) done where
  linear := h.linear
  call j i hi := by
    obtain ⟨x, rest, hrest, hx⟩ := h.call j i hi
    have hne : j ≠ k := by
      rintro rfl
      rw [hk] at hrest
      cases hrest
    exact ⟨x, rest, by rwa [Function.update_of_ne hne], hx⟩
  made := h.made

/-- A call on the other object returns. -/
theorem pass (h : Side M exec s₀ pick s todo done) (hk : todo k = x :: rest) (hx : pick x = none) :
    Side M exec s₀ pick s (Function.update todo k rest)
      (Function.update done k (done k ++ [x])) where
  linear := h.linear
  call j i hi := by
    obtain ⟨y, rest', hrest, hy⟩ := h.call j i hi
    have hne : j ≠ k := by
      rintro rfl
      obtain ⟨rfl, -⟩ := List.cons.inj (hk.symm.trans hrest)
      rw [hx] at hy
      cases hy
    exact ⟨y, rest', by rwa [Function.update_of_ne hne], hy⟩
  made j := by
    rcases eq_or_ne j k with rfl | hne
    · simp [h.made, hx]
    · rw [Function.update_of_ne hne]
      exact h.made j

/-- A step of a call on this object, with which the call may return. -/
theorem step (h : Side M exec s₀ pick s todo done) (hM : M.Performs exec) (hk : todo k = x :: rest)
    (hx : pick x = some i) :
    let s' := M.step s (k, i)
    ((s'.place k).inCall.isNone = false ∧ Side M exec s₀ pick s' todo done) ∨
      ((s'.place k).inCall.isNone = true ∧ Side M exec s₀ pick s' (Function.update todo k rest)
        (Function.update done k (done k ++ [x]))) := by
  intro s'
  have hlinear : Linear M exec s₀ s' := h.linear.step hM _
  have hother : ∀ j ≠ k, s'.place j = s.place j := fun _ hne => place_step_of_ne hne
  have hcall : ∀ c, (s.place k).inCall = some c → c = i := by
    intro c hc
    obtain ⟨y, rest', hrest, hy⟩ := h.call k c hc
    obtain ⟨rfl, -⟩ := List.cons.inj (hk.symm.trans hrest)
    exact Option.some.inj (hy.symm.trans hx)
  rcases step_own (M := M) hcall with ⟨hret, hin⟩ | ⟨o, hret, hin⟩
  · refine .inl ⟨by rw [hin]; rfl, hlinear, fun j c hc => ?_, ?_⟩
    · rcases eq_or_ne j k with rfl | hne
      · obtain rfl := Option.some.inj (hin.symm.trans hc)
        exact ⟨x, rest, hk, hx⟩
      · exact h.call j c (by rwa [← hother j hne])
    · rw [hret]
      exact h.made
  · refine .inr ⟨by rw [hin]; rfl, hlinear, fun j c hc => ?_, fun j => ?_⟩
    · have hne : j ≠ k := by
        rintro rfl
        rw [hin] at hc
        cases hc
      rw [Function.update_of_ne hne]
      exact h.call j c (by rwa [← hother j hne])
    · rw [hret, inputsOf_concat]
      rcases eq_or_ne j k with rfl | hne
      · simp [h.made, hx]
      · simpa [Function.update_of_ne hne, hne.symm] using h.made j

/-- What is done is in the order. -/
theorem made_of_done (h : Side M exec s₀ pick s todo done) (hmem : x ∈ done k)
    (hx : pick x = some i) : ∃ o, (k, i, o) ∈ s.order := by
  have hret : i ∈ (inputsOf k s.returned).map Prod.fst := by
    rw [h.made]
    exact List.mem_filterMap.2 ⟨x, hmem, hx⟩
  obtain ⟨⟨c, o⟩, hc, rfl⟩ := List.mem_map.1 hret
  have hown : (c, o) ∈ inputsOf k s.order := by
    rw [h.linear.own k]
    exact List.mem_append_left _ hc
  exact ⟨o, mem_inputsOf.1 hown⟩

/-- What is in the order was planned, and what was planned before it is done. -/
theorem planned (h : Side M exec s₀ pick s todo done) (hmem : (k, i, o) ∈ s.order) :
    ∃ a x b, done k ++ todo k = a ++ x :: b ∧ pick x = some i ∧ a ⊆ done k := by
  have hown := mem_inputsOf.2 hmem
  rw [h.linear.own k] at hown
  rcases List.mem_append.1 hown with hret | hdue
  · have hdone : i ∈ (done k).filterMap pick := by
      rw [← h.made]
      exact List.mem_map_of_mem hret
    obtain ⟨x, hx, hpick⟩ := List.mem_filterMap.1 hdone
    obtain ⟨a, b, hab⟩ := List.append_of_mem hx
    exact ⟨a, x, b ++ todo k, by simp [hab], hpick, by simp [hab]⟩
  · cases hplace : s.place k with
    | returning c o' =>
      rw [hplace] at hdue
      obtain ⟨rfl, -⟩ := Prod.mk.inj (List.mem_singleton.1 hdue)
      obtain ⟨x, rest, hrest, hx⟩ := h.call k i (by rw [hplace]; rfl)
      exact ⟨done k, x, rest, by rw [hrest], hx, List.Subset.refl _⟩
    | idle | waiting | inside | unlocking => rw [hplace] at hdue; cases hdue

end Side
end

/-! ### The plans -/

section
variable [DecidableEq κ] (M₁ : Monitor σ₁ ι₁ ω₁ l₁) (M₂ : Monitor σ₂ ι₂ ω₂ l₂)
  (plan : γ → List (ι₁ ⊕ ι₂))

structure Planned (exec₁ : σ₁ → ι₁ → σ₁ × ω₁) (exec₂ : σ₂ → ι₂ → σ₂ × ω₂) (s₁ : σ₁) (s₂ : σ₂)
    (s : PairState κ γ σ₁ ι₁ ω₁ l₁ σ₂ ι₂ ω₂ l₂) : Prop where
  fst : Side M₁ exec₁ s₁ Sum.getLeft? s.fst s.todo s.done
  snd : Side M₂ exec₂ s₂ Sum.getRight? s.snd s.todo s.done
  plans : ∀ k, (s.begun k).flatMap plan = s.done k ++ s.todo k

variable {M₁ M₂ plan} {exec₁ : σ₁ → ι₁ → σ₁ × ω₁} {exec₂ : σ₂ → ι₂ → σ₂ × ω₂} {s₁ : σ₁} {s₂ : σ₂}
  {s : PairState κ γ σ₁ ι₁ ω₁ l₁ σ₂ ι₂ ω₂ l₂} {k : κ} {i₁ : ι₁} {i₂ : ι₂}

namespace Planned

theorem init (s₁ : σ₁) (s₂ : σ₂) :
    Planned M₁ M₂ plan exec₁ exec₂ s₁ s₂
      (pairInit s₁ s₂ : PairState κ γ σ₁ ι₁ ω₁ l₁ σ₂ ι₂ ω₂ l₂) where
  fst := Side.init s₁
  snd := Side.init s₂
  plans _ := rfl

theorem plans_goOn (h : Planned M₁ M₂ plan exec₁ exec₂ s₁ s₂ s) {x : ι₁ ⊕ ι₂}
    {rest : List (ι₁ ⊕ ι₂)} (hk : s.todo k = x :: rest) (j : κ) :
    (s.begun j).flatMap plan =
      Function.update s.done k (s.done k ++ [x]) j ++ Function.update s.todo k rest j := by
  rcases eq_or_ne j k with rfl | hne
  · simp [h.plans, hk]
  · simpa [Function.update_of_ne hne] using h.plans j

theorem step (h : Planned M₁ M₂ plan exec₁ exec₂ s₁ s₂ s) (hM₁ : M₁.Performs exec₁)
    (hM₂ : M₂.Performs exec₂) (e : κ × γ) :
    Planned M₁ M₂ plan exec₁ exec₂ s₁ s₂ (pairStep M₁ M₂ plan s e) := by
  unfold pairStep
  rcases hk : s.todo e.1 with _ | ⟨i | i, rest⟩
  · refine ⟨h.fst.turnTo hk _, h.snd.turnTo hk _, fun j => ?_⟩
    rcases eq_or_ne j e.1 with rfl | hne
    · simp [h.plans, hk]
    · simpa [Function.update_of_ne hne] using h.plans j
  · rcases h.fst.step hM₁ hk rfl with ⟨hin, hfst⟩ | ⟨hret, hfst⟩
    · simp only [PairState.goOn, hin, Bool.false_eq_true, if_false]
      exact ⟨hfst, h.snd, h.plans⟩
    · simp only [PairState.goOn, hret, if_true]
      exact ⟨hfst, h.snd.pass hk rfl, h.plans_goOn hk⟩
  · rcases h.snd.step hM₂ hk rfl with ⟨hin, hsnd⟩ | ⟨hret, hsnd⟩
    · simp only [PairState.goOn, hin, Bool.false_eq_true, if_false]
      exact ⟨h.fst, hsnd, h.plans⟩
    · simp only [PairState.goOn, hret, if_true]
      exact ⟨h.fst.pass hk rfl, hsnd, h.plans_goOn hk⟩

theorem not_both_critical (h : Planned M₁ M₂ plan exec₁ exec₂ s₁ s₂ s) (k : κ)
    (h₁ : (s.fst.place k).Critical) : ¬ (s.snd.place k).Critical := by
  intro h₂
  obtain ⟨c, hc⟩ := inCall_of_critical h₁
  obtain ⟨d, hd⟩ := inCall_of_critical h₂
  obtain ⟨x, _, hx, hfst⟩ := h.fst.call k c hc
  obtain ⟨y, _, hy, hsnd⟩ := h.snd.call k d hd
  obtain ⟨rfl, -⟩ := List.cons.inj (hx.symm.trans hy)
  cases x with
  | inl => cases hsnd
  | inr => cases hfst

theorem begun_of_fst (h : Planned M₁ M₂ plan exec₁ exec₂ s₁ s₂ s) {o : ω₁}
    (hmem : (k, i₁, o) ∈ s.fst.order) : .inl i₁ ∈ (s.begun k).flatMap plan := by
  obtain ⟨a, x, b, hab, hx, -⟩ := h.fst.planned hmem
  obtain rfl := Sum.getLeft?_eq_some_iff.1 hx
  rw [h.plans, hab]
  simp

/-- When a call on the second object has been made, so have the calls on the first that were planned
before it. -/
theorem precedes (h : Planned M₁ M₂ plan exec₁ exec₂ s₁ s₂ s) {o : ω₂}
    (hmem : (k, i₂, o) ∈ s.snd.order) :
    ∃ a b, (s.begun k).flatMap plan = a ++ .inr i₂ :: b ∧
      ∀ i₁, .inl i₁ ∈ a → ∃ o₁, (k, i₁, o₁) ∈ s.fst.order := by
  obtain ⟨a, x, b, hab, hx, ha⟩ := h.snd.planned hmem
  obtain rfl := Sum.getRight?_eq_some_iff.1 hx
  exact ⟨a, b, (h.plans k).trans hab, fun i₁ hi => h.fst.made_of_done (ha hi) rfl⟩

end Planned

theorem planned_run (hM₁ : M₁.Performs exec₁) (hM₂ : M₂.Performs exec₂) (s₁ : σ₁) (s₂ : σ₂)
    (schedule : List (κ × γ)) :
    Planned M₁ M₂ plan exec₁ exec₂ s₁ s₂
      (run (pairStep M₁ M₂ plan) (pairInit s₁ s₂) schedule) :=
  run_inv (fun _ e h => h.step hM₁ hM₂ e) (Planned.init s₁ s₂) schedule

/-- A thread turns to what the schedule has for it. -/
theorem begun_run (M₁ : Monitor σ₁ ι₁ ω₁ l₁) (M₂ : Monitor σ₂ ι₂ ω₂ l₂)
    (plan : γ → List (ι₁ ⊕ ι₂)) (s₁ : σ₁) (s₂ : σ₂) (schedule : List (κ × γ)) (k : κ) :
    ∀ g ∈ (run (pairStep M₁ M₂ plan) (pairInit s₁ s₂) schedule).begun k, (k, g) ∈ schedule := by
  refine run_inv_history (J := fun is (s : PairState κ γ σ₁ ι₁ ω₁ l₁ σ₂ ι₂ ω₂ l₂) =>
      ∀ g ∈ s.begun k, (k, g) ∈ is) (fun g hg => by cases hg) (fun is e s h => ?_) schedule
  have hkept : ∀ g ∈ s.begun k, (k, g) ∈ is ++ [e] :=
    fun g hg => List.mem_append_left _ (h g hg)
  unfold pairStep
  rcases s.todo e.1 with _ | ⟨i | i, rest⟩
  · rcases eq_or_ne k e.1 with rfl | hne
    · intro g hg
      simp only [Function.update_self] at hg
      rcases List.mem_append.1 hg with hg | hg
      · exact hkept g hg
      · obtain rfl := List.mem_singleton.1 hg
        exact List.mem_append_right _ (List.mem_singleton_self _)
    · simpa [Function.update_of_ne hne] using hkept
  · simp only [PairState.goOn]
    split <;> exact hkept
  · simp only [PairState.goOn]
    split <;> exact hkept

end
end Monitor
