import BlockchainMessaging.Lib.Run
import Mathlib.Data.List.Infix

/-!
# A log and its replicas

A log grows by elements that fit what it holds already. A replica is offered elements of the log in
any order, some of them again and again and others never, and takes one when it is willing and the
element fits. If every element fits in one place of the log only, what a replica holds is always a
beginning of the log, and it holds at least what it was offered in order.
-/

namespace Replica
open Machine
variable {β : Type*} (Fits : List β → β → Prop)

section
variable [DecidableRel Fits]

/-- An element is offered; `e.2` says whether the replica is willing. -/
def take (l : List β) (e : β × Bool) : List β :=
  if e.2 = true ∧ Fits l e.1 then l ++ [e.1] else l

end

/-- From the seed on, every element of the log fits what precedes it, and fits nowhere else. -/
structure Leads (seed log : List β) : Prop where
  fits : ∀ l b, seed <+: l → l ++ [b] <+: log → Fits l b
  only : ∀ l b, seed <+: l → l <+: log → b ∈ log → Fits l b → l ++ [b] <+: log

variable {Fits} [DecidableRel Fits] {seed log l m : List β} {e : β × Bool} {es : List (β × Bool)}

theorem take_of_fits {b : β} (h : Fits l b) : take Fits l (b, true) = l ++ [b] :=
  if_pos ⟨rfl, h⟩

theorem take_cases (Fits : List β → β → Prop) [DecidableRel Fits] (l : List β) (e : β × Bool) :
    take Fits l e = l ∨ Fits l e.1 ∧ take Fits l e = l ++ [e.1] := by
  unfold take
  split
  · rename_i h
    exact .inr ⟨h.2, rfl⟩
  · exact .inl rfl

theorem prefix_take (l : List β) (e : β × Bool) : l <+: take Fits l e := by
  rcases take_cases Fits l e with h | ⟨-, h⟩ <;> rw [h]
  exact List.prefix_append l [e.1]

theorem prefix_run (l : List β) (es : List (β × Bool)) : l <+: run (take Fits) l es :=
  run_inv (I := fun m => l <+: m) (fun m e h => h.trans (prefix_take m e)) List.prefix_rfl es

/-! ### Safety -/

theorem Leads.take_prefix (h : Leads Fits seed log) (hseed : seed <+: l) (hl : l <+: log)
    (he : e.1 ∈ log) : take Fits l e <+: log := by
  rcases take_cases Fits l e with heq | ⟨hfits, heq⟩ <;> rw [heq]
  exacts [hl, h.only l e.1 hseed hl he hfits]

theorem Leads.run_prefix (h : Leads Fits seed log) (hseed : seed <+: log)
    (hes : ∀ e ∈ es, e.1 ∈ log) : run (take Fits) seed es <+: log := by
  have hinv : seed <+: run (take Fits) seed es ∧ run (take Fits) seed es <+: log :=
    run_inv_along (I := fun l => seed <+: l ∧ l <+: log)
      (fun l e hl he => ⟨hl.1.trans (prefix_take l e), h.take_prefix hl.1 hl.2 he⟩)
      ⟨List.prefix_rfl, hseed⟩ (along_of_forall_mem (fun e he _ => hes e he) seed)
  exact hinv.2

/-! ### Liveness -/

/-- What is offered in order to a willing replica is taken, whatever else is offered in between. -/
theorem Leads.append_prefix_run (h : Leads Fits seed log) (hseed : seed <+: l)
    (hes : ∀ e ∈ es, e.1 ∈ log) (hm : l ++ m <+: log)
    (hsub : (m.map fun b => (b, true)).Sublist es) : l ++ m <+: run (take Fits) l es := by
  induction es generalizing l m with
  | nil =>
    obtain rfl : m = [] := by simpa using hsub
    rw [List.append_nil]
    exact List.prefix_rfl
  | cons e es ih =>
    cases m with
    | nil =>
      rw [List.append_nil]
      exact prefix_run l (e :: es)
    | cons b m =>
      have hes' : ∀ e ∈ es, e.1 ∈ log := fun e' he' => hes e' (List.mem_cons_of_mem e he')
      have hassoc : l ++ b :: m = (l ++ [b]) ++ m := by simp
      have hnext : l ++ [b] <+: log := by
        rw [hassoc] at hm
        exact (List.prefix_append _ m).trans hm
      have hrest : (m.map fun b => (b, true)).Sublist es := by
        cases hsub with
        | cons _ hsub => exact (List.sublist_cons_self _ _).trans hsub
        | cons_cons _ hsub => exact hsub
      show l ++ b :: m <+: run (take Fits) (take Fits l e) es
      rcases take_cases Fits l e with heq | ⟨hfits, heq⟩
      · -- the element offered is left, so it is not the one that comes next
        cases hsub with
        | cons _ hsub =>
          rw [heq]
          exact ih hseed hes' hm hsub
        | cons_cons _ hsub =>
          rw [take_of_fits (h.fits l b hseed hnext)] at heq
          simp at heq
      · -- what fits here is the next element of the log
        have htaken : l ++ [e.1] <+: log :=
          h.only l e.1 hseed ((List.prefix_append l _).trans hm) (hes e List.mem_cons_self) hfits
        have hsame : l ++ [e.1] = l ++ [b] :=
          (List.prefix_of_prefix_length_le htaken hnext (by simp)).eq_of_length (by simp)
        rw [heq, hsame, hassoc]
        rw [hassoc] at hm
        exact ih (hseed.trans (List.prefix_append l [b])) hes' hm hrest

/-! ### A log that is itself the result of a run -/

theorem fits_of_prefix_run (es : List (β × Bool)) {b : β} (hl : seed <+: l)
    (hb : l ++ [b] <+: run (take Fits) seed es) : Fits l b := by
  induction es using List.reverseRecOn with
  | nil =>
    have hlen := hb.length_le
    have hseed := hl.length_le
    rw [List.length_append, List.length_singleton] at hlen
    have hrun : (run (take Fits) seed []).length = seed.length := rfl
    omega
  | append_singleton es e ih =>
    rw [run_concat] at hb
    rcases take_cases Fits (run (take Fits) seed es) e with heq | ⟨hfits, heq⟩ <;> rw [heq] at hb
    · exact ih hb
    · rcases List.prefix_concat_iff.1 hb with hsame | hb
      · obtain ⟨rfl, hlast⟩ := List.append_inj' hsame rfl
        rwa [List.singleton_inj.1 hlast]
      · exact ih hb

/-- The run has gone through every beginning of what it ends with. -/
theorem exists_run_take_of_prefix (hl : seed <+: l) (h : l <+: run (take Fits) seed es) :
    ∃ n, l = run (take Fits) seed (es.take n) := by
  induction es using List.reverseRecOn with
  | nil => exact ⟨0, h.eq_of_length_le hl.length_le⟩
  | append_singleton es e ih =>
    have hrun : run (take Fits) seed (es ++ [e]) = take Fits (run (take Fits) seed es) e :=
      run_concat ..
    have hback : l <+: run (take Fits) seed es →
        ∃ n, l = run (take Fits) seed ((es ++ [e]).take n) := by
      intro h
      obtain ⟨n, hn⟩ := ih h
      refine ⟨min n es.length, ?_⟩
      rw [List.take_append_of_le_length (min_le_right _ _), hn]
      congr 1
      rw [← List.take_take, List.take_length]
    rcases take_cases Fits (run (take Fits) seed es) e with heq | ⟨-, heq⟩ <;> rw [hrun, heq] at h
    · exact hback h
    · rcases List.prefix_concat_iff.1 h with hsame | h
      · refine ⟨(es ++ [e]).length, ?_⟩
        rw [List.take_length, hrun, heq]
        exact hsame
      · exact hback h

end Replica
