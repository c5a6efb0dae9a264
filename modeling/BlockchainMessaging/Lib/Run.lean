import Mathlib.Algebra.Group.Basic
import Mathlib.Data.List.Chain
import Mathlib.Data.List.Basic

/-!
# Runs of a deterministic machine

`run step s is` feeds the inputs `is` to the machine `step` from the state `s`. `Along step P s is`
says that every input of the run satisfies `P` at the state it is fed to. The induction over a run
is done here once: an invariant is preserved by a run as soon as it is preserved by a step, on
inputs that satisfy `P`.

`Linked prev hash l` is the shape of a history in which every element names the one before it.
-/

namespace Machine
variable {σ ι : Type*} (step : σ → ι → σ)

def run (s : σ) (is : List ι) : σ :=
  is.foldl step s

/-- Every input of the run satisfies `P` at the state it meets. -/
def Along (P : σ → ι → Prop) : σ → List ι → Prop
  | _, [] => True
  | s, i :: is => P s i ∧ Along P (step s i) is

variable {step} {P : σ → ι → Prop} {I : σ → Prop}

theorem run_concat (s : σ) (is : List ι) (i : ι) :
    run step s (is ++ [i]) = step (run step s is) i :=
  List.foldl_concat ..

theorem run_append (s : σ) (is js : List ι) :
    run step s (is ++ js) = run step (run step s is) js :=
  List.foldl_append ..

/-- An invariant that relates the state to the inputs read so far. -/
theorem run_inv_history {J : List ι → σ → Prop} {s : σ} (hs : J [] s)
    (hstep : ∀ is i s, J is s → J (is ++ [i]) (step s i)) (is : List ι) : J is (run step s is) := by
  induction is using List.reverseRecOn with
  | nil => exact hs
  | append_singleton is i ih =>
    rw [run_concat]
    exact hstep is i _ ih

theorem run_inv_along (hstep : ∀ s i, I s → P s i → I (step s i)) {s : σ} {is : List ι}
    (hs : I s) (ha : Along step P s is) : I (run step s is) := by
  induction is generalizing s with
  | nil => exact hs
  | cons i is ih => exact ih (hstep s i hs ha.1) ha.2

theorem Along.take {s : σ} {is : List ι} (h : Along step P s is) (n : ℕ) :
    Along step P s (is.take n) := by
  induction is generalizing s n with
  | nil => rw [List.take_nil]; trivial
  | cons i is ih =>
    cases n with
    | zero => trivial
    | succ n => exact ⟨h.1, ih h.2 n⟩

theorem along_of_forall_mem {is : List ι} (h : ∀ i ∈ is, ∀ s, P s i) (s : σ) :
    Along step P s is := by
  induction is generalizing s with
  | nil => trivial
  | cons i is ih =>
    exact ⟨h i List.mem_cons_self s, ih (fun j hj => h j (List.mem_cons_of_mem i hj)) _⟩

theorem along_of_forall (h : ∀ s i, P s i) (s : σ) (is : List ι) : Along step P s is :=
  along_of_forall_mem (fun i _ s => h s i) s

theorem run_inv (hstep : ∀ s i, I s → I (step s i)) {s : σ} (hs : I s) (is : List ι) :
    I (run step s is) :=
  run_inv_along (P := fun _ _ => True) (fun s i h _ => hstep s i h) hs
    (along_of_forall (fun _ _ => trivial) s is)

theorem run_eq {τ : Type*} (f : σ → τ) (hstep : ∀ s i, f (step s i) = f s) (s : σ) (is : List ι) :
    f (run step s is) = f s :=
  run_inv (I := fun s' => f s' = f s) (fun s' i h => (hstep s' i).trans h) rfl is

/-- Two machines that read inputs which `A` relates, and keep their states related by `R`. -/
theorem run_rel {τ κ : Type*} {step' : τ → κ → τ} {R : σ → τ → Prop} {A : ι → κ → Prop}
    (hstep : ∀ s t i j, R s t → A i j → R (step s i) (step' t j)) {is : List ι} {js : List κ}
    (hinputs : List.Forall₂ A is js) {s : σ} {t : τ} (h : R s t) :
    R (run step s is) (run step' t js) := by
  induction hinputs generalizing s t with
  | nil => exact h
  | cons hij _ ih => exact ih (hstep s t _ _ h hij)

/-- What the inputs of a run put out, each at the state it is fed to. -/
def outputs {ω : Type*} (step : σ → ι → σ) (out : σ → ι → List ω) : σ → List ι → List ω
  | _, [] => []
  | s, i :: is => out s i ++ outputs step out (step s i) is

theorem mem_outputs {ω : Type*} {out : σ → ι → List ω} {x : ω} {s : σ} {is : List ι} :
    x ∈ outputs step out s is ↔ ∃ n i, is[n]? = some i ∧ x ∈ out (run step s (is.take n)) i := by
  induction is generalizing s with
  | nil => simp [outputs]
  | cons i is ih =>
    rw [outputs, List.mem_append, ih]
    constructor
    · rintro (h | ⟨n, j, hj, h⟩)
      exacts [⟨0, i, rfl, h⟩, ⟨n + 1, j, hj, h⟩]
    · rintro ⟨n, j, hj, h⟩
      cases n with
      | zero =>
        obtain rfl := Option.some.inj hj
        exact .inl h
      | succ n => exact .inr ⟨n, j, hj, h⟩

theorem outputs_rel {τ κ ω : Type*} {step' : τ → κ → τ} {R : σ → τ → Prop} {A : ι → κ → Prop}
    {out : σ → ι → List ω} {out' : τ → κ → List ω}
    (hstep : ∀ s t i j, R s t → A i j → R (step s i) (step' t j))
    (hout : ∀ s t i j, R s t → A i j → out s i = out' t j) {is : List ι} {js : List κ}
    (hinputs : List.Forall₂ A is js) {s : σ} {t : τ} (h : R s t) :
    outputs step out s is = outputs step' out' t js := by
  induction hinputs generalizing s t with
  | nil => rfl
  | cons hij _ ih => rw [outputs, outputs, hout s t _ _ h hij, ih (hstep s t _ _ h hij)]

theorem outputs_concat {ω : Type*} (step : σ → ι → σ) (out : σ → ι → List ω) (s : σ) (is : List ι)
    (i : ι) : outputs step out s (is ++ [i]) = outputs step out s is ++ out (run step s is) i := by
  induction is generalizing s with
  | nil => simp [outputs, run]
  | cons j is ih =>
    show out s j ++ outputs step out (step s j) (is ++ [i]) = _
    rw [ih, outputs, List.append_assoc]
    rfl

/-- A list that every step extends by what a machine inside puts out. -/
theorem run_log {τ ω : Type*} {step' : τ → ι → τ} {out : τ → ι → List ω} {C : σ → List ω} {f : σ → τ}
    (hf : ∀ s i, f (step s i) = step' (f s) i) (hC : ∀ s i, C (step s i) = C s ++ out (f s) i) (s : σ)
    (is : List ι) : C (run step s is) = C s ++ outputs step' out (f s) is := by
  induction is generalizing s with
  | nil => exact (List.append_nil _).symm
  | cons i is ih =>
    have htail : C (run step s (i :: is)) = _ := ih (step s i)
    rw [htail, hC, hf, outputs, List.append_assoc]

/-- The sum of `f` over the inputs of the run, each at the state it is fed to. -/
def total {M : Type*} [AddCommMonoid M] (step : σ → ι → σ) (f : σ → ι → M) : σ → List ι → M
  | _, [] => 0
  | s, i :: is => f s i + total step f (step s i) is

/-- What a step adds and takes away accounts for what a run leaves. -/
theorem run_conserved {M : Type*} [AddCommMonoid M] {C : σ → M} {G L : σ → ι → M}
    (hstep : ∀ s i, C (step s i) + L s i = C s + G s i) (s : σ) (is : List ι) :
    C (run step s is) + total step L s is = C s + total step G s is := by
  induction is generalizing s with
  | nil => rfl
  | cons i is ih =>
    have h := ih (step s i)
    calc C (run step (step s i) is) + (L s i + total step L (step s i) is)
        = C (run step (step s i) is) + total step L (step s i) is + L s i := by
          rw [add_assoc, add_comm (L s i)]
      _ = C (step s i) + L s i + total step G (step s i) is := by
          rw [h, add_right_comm]
      _ = C s + (G s i + total step G (step s i) is) := by
          rw [hstep, add_assoc]

/-- In a run whose inputs satisfy `Q`, and which keeps the invariant `J`, a property that a step can
lose but never regain holds at the end exactly when it holds at first and every step keeps it. -/
theorem run_iff_along_of {J : σ → Prop} {Q : σ → ι → Prop}
    (hinv : ∀ s i, J s → Q s i → J (step s i))
    (hstep : ∀ s i, J s → Q s i → (I (step s i) ↔ I s ∧ P s i)) {s : σ} {is : List ι} (hJ : J s)
    (hQ : Along step Q s is) : I (run step s is) ↔ I s ∧ Along step P s is := by
  induction is generalizing s with
  | nil => exact ⟨fun h => ⟨h, trivial⟩, fun h => h.1⟩
  | cons i is ih =>
    calc I (run step (step s i) is)
        ↔ I (step s i) ∧ Along step P (step s i) is := ih (hinv s i hJ hQ.1) hQ.2
      _ ↔ (I s ∧ P s i) ∧ Along step P (step s i) is := by rw [hstep s i hJ hQ.1]
      _ ↔ I s ∧ Along step P s (i :: is) := and_assoc

theorem run_iff_along (hback : ∀ s i, I (step s i) → I s)
    (hstep : ∀ s i, I s → (I (step s i) ↔ P s i)) {s : σ} (hs : I s) (is : List ι) :
    I (run step s is) ↔ Along step P s is := by
  have hiff := run_iff_along_of (J := fun _ => True) (Q := fun _ _ => True) (I := I) (P := P)
    (fun _ _ _ _ => trivial)
    (fun s i _ _ => ⟨fun h => ⟨hback s i h, (hstep s i (hback s i h)).1 h⟩,
      fun h => (hstep s i h.1).2 h.2⟩) trivial (along_of_forall (fun _ _ => trivial) s is)
  rw [hiff, and_iff_right hs]

/-- Where the invariant `I`, which implies `J`, is kept by the steps that satisfy `P`, and the others
break `J`, the states of a run all satisfy `J` exactly when `P` holds along it. -/
theorem forall_run_take_iff_along_of {J : σ → Prop} {Q : ι → Prop} (hweak : ∀ s, I s → J s)
    (hback : ∀ s i, Q i → I s → J (step s i) → P s i)
    (hstep : ∀ s i, Q i → I s → P s i → I (step s i)) {s : σ} (hs : I s) {is : List ι}
    (hQ : ∀ i ∈ is, Q i) : (∀ n, J (run step s (is.take n))) ↔ Along step P s is := by
  induction is generalizing s with
  | nil => exact iff_of_true (fun n => by rw [List.take_nil]; exact hweak s hs) trivial
  | cons i is ih =>
    have hi : Q i := hQ i List.mem_cons_self
    have hrest : ∀ j ∈ is, Q j := fun j hj => hQ j (List.mem_cons_of_mem i hj)
    constructor
    · intro h
      have hP : P s i := hback s i hi hs (h 1)
      exact ⟨hP, (ih (hstep s i hi hs hP) hrest).1 fun n => h (n + 1)⟩
    · rintro ⟨hP, ha⟩ n
      cases n with
      | zero => exact hweak s hs
      | succ n => exact (ih (hstep s i hi hs hP) hrest).2 ha n

theorem forall_run_take_iff_along {J : σ → Prop} (hweak : ∀ s, I s → J s)
    (hback : ∀ s i, I s → J (step s i) → P s i) (hstep : ∀ s i, I s → P s i → I (step s i)) {s : σ}
    (hs : I s) (is : List ι) : (∀ n, J (run step s (is.take n))) ↔ Along step P s is :=
  forall_run_take_iff_along_of (Q := fun _ => True) hweak (fun s i _ => hback s i)
    (fun s i _ => hstep s i) hs fun _ _ => trivial

end Machine

namespace History
variable {β η : Type*} (prev hash : β → η)

/-- Every element of the history carries the hash of the one before it. -/
def Linked (l : List β) : Prop :=
  l.IsChain fun a b => prev b = hash a

variable {prev hash} {l : List β}

theorem Linked.singleton (b : β) : Linked prev hash [b] :=
  List.isChain_singleton b

theorem Linked.snoc (h : Linked prev hash l) {b : β} (hb : ∀ a ∈ l.getLast?, prev b = hash a) :
    Linked prev hash (l ++ [b]) :=
  List.isChain_append.2 ⟨h, List.isChain_singleton b, fun a ha c hc => by
    obtain rfl : b = c := by simpa using hc
    exact hb a ha⟩

theorem Linked.getElem (h : Linked prev hash l) (i : ℕ) (hi : i + 1 < l.length) :
    prev l[i + 1] = hash l[i] :=
  List.isChain_iff_getElem.1 h i hi

end History
