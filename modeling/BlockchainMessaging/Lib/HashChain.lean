import BlockchainMessaging.Lib.Run
import Mathlib.Data.List.Forall2

/-!
# Two histories with one tip

A history is rooted when its first element names a value that is nobody's hash. What the last element
carries then fixes the whole history, as far as hashes fix the elements: going back from two equal
tips, the elements stand in `R` until a pair comes whose hashes agree although `R` fails.
-/

namespace History
variable {β η : Type*} (prev hash : β → η) (root : η)

/-- What the next element of the history has to name. -/
def tip (l : List β) : η :=
  (l.getLast?.map hash).getD root

structure Rooted (l : List β) : Prop where
  head : ∀ b ∈ l.head?, prev b = root
  linked : Linked prev hash l
  ne_root : ∀ b ∈ l, hash b ≠ root

/-- The histories agree from a pair on that has one hash and is not in `R`. -/
def SplitAt (R : β → β → Prop) (l m : List β) : Prop :=
  ∃ l₁ b l₂ m₁ c m₂, l = l₁ ++ b :: l₂ ∧ m = m₁ ++ c :: m₂ ∧ List.Forall₂ R l₂ m₂ ∧
    hash b = hash c ∧ ¬ R b c

variable {prev hash root} {R : β → β → Prop} {l m : List β} {b c : β}

@[simp] theorem tip_nil : tip hash root [] = root := rfl

@[simp] theorem tip_concat : tip hash root (l ++ [b]) = hash b := by
  simp [tip]

theorem Rooted.of_append (h : Rooted prev hash root (l ++ m)) : Rooted prev hash root l where
  head a ha := by
    refine h.head a ?_
    rw [List.head?_append, Option.mem_def.1 ha]
    rfl
  linked := h.linked.left_of_append
  ne_root a ha := h.ne_root a (List.mem_append_left _ ha)

theorem Rooted.prev_last (h : Rooted prev hash root (l ++ [b])) : prev b = tip hash root l := by
  rcases List.eq_nil_or_concat' l with rfl | ⟨l, a, rfl⟩
  · exact h.head b rfl
  · rw [tip_concat]
    have hlinked := (List.isChain_append.1 h.linked).2.2
    exact hlinked a (by simp) b rfl

theorem Rooted.tip_eq_root_iff (h : Rooted prev hash root l) : tip hash root l = root ↔ l = [] := by
  rcases List.eq_nil_or_concat' l with rfl | ⟨l, a, rfl⟩
  · simp
  · have hne := h.ne_root a (by simp)
    simp [hne]

theorem SplitAt.concat (h : SplitAt hash R l m) (hbc : R b c) :
    SplitAt hash R (l ++ [b]) (m ++ [c]) := by
  obtain ⟨l₁, b', l₂, m₁, c', m₂, rfl, rfl, hsuf, hhash, hR⟩ := h
  refine ⟨l₁, b', l₂ ++ [b], m₁, c', m₂ ++ [c], by simp, by simp, ?_, hhash, hR⟩
  exact List.rel_append hsuf (List.Forall₂.cons hbc .nil)

/-- Two rooted histories with one tip agree from end to end, or from a split on. -/
theorem Rooted.agree_or_split (hR : ∀ b c, R b c → prev b = prev c)
    (hl : Rooted prev hash root l) (hm : Rooted prev hash root m)
    (htip : tip hash root l = tip hash root m) : List.Forall₂ R l m ∨ SplitAt hash R l m := by
  induction l using List.reverseRecOn generalizing m with
  | nil =>
    have hnil : m = [] := hm.tip_eq_root_iff.1 htip.symm
    subst hnil
    exact .inl .nil
  | append_singleton l b ih =>
    rcases List.eq_nil_or_concat' m with rfl | ⟨m, c, rfl⟩
    · exact absurd (hl.tip_eq_root_iff.1 htip) (by simp)
    · have hhash : hash b = hash c := by simpa using htip
      by_cases hbc : R b c
      · have hback : tip hash root l = tip hash root m := by
          rw [← hl.prev_last, ← hm.prev_last, hR b c hbc]
        rcases ih hl.of_append hm.of_append hback with hall | hsplit
        · exact .inl (List.rel_append hall (List.Forall₂.cons hbc .nil))
        · exact .inr (hsplit.concat hbc)
      · exact .inr ⟨l, b, [], m, c, [], rfl, rfl, .nil, hhash, hbc⟩

/-! ### Where an element goes -/

/-- If no hash occurs twice, a beginning of the history is known by its tip. -/
theorem Rooted.eq_of_tip_eq {log : List β} (h : Rooted prev hash root log)
    (hnodup : (log.map hash).Nodup) (hl : l <+: log) (hm : m <+: log)
    (htip : tip hash root l = tip hash root m) : l = m := by
  have hrooted : ∀ {l}, l <+: log → Rooted prev hash root l := by
    rintro l ⟨t, rfl⟩
    exact h.of_append
  rcases List.eq_nil_or_concat' l with rfl | ⟨l, b, rfl⟩
  · exact ((hrooted hm).tip_eq_root_iff.1 htip.symm).symm
  · rcases List.eq_nil_or_concat' m with rfl | ⟨m, c, rfl⟩
    · exact absurd ((hrooted hl).tip_eq_root_iff.1 htip) (by simp)
    · have hhash : hash b = hash c := by simpa using htip
      obtain ⟨t, ht⟩ := hl
      obtain ⟨u, hu⟩ := hm
      have hb : log[l.length]? = some b := by simp [← ht]
      have hc : log[m.length]? = some c := by simp [← hu]
      have hlen : l.length = m.length := by
        have hlt : l.length < (log.map hash).length := by simp [← ht]
        refine (List.getElem?_inj hlt hnodup).1 ?_
        rw [List.getElem?_map, List.getElem?_map, hb, hc, Option.map_some, Option.map_some, hhash]
      exact (List.append_inj (ht.trans hu.symm) (by simp [hlen])).1

/-- An element goes behind one beginning of the history only, the one that precedes it. -/
theorem Rooted.prefix_concat {log : List β} (h : Rooted prev hash root log)
    (hnodup : (log.map hash).Nodup) (hl : l <+: log) (hb : b ∈ log)
    (hprev : prev b = tip hash root l) : l ++ [b] <+: log := by
  obtain ⟨s, t, hlog⟩ := List.append_of_mem hb
  have hs : s ++ [b] <+: log := ⟨t, by simp [hlog]⟩
  have hrooted : Rooted prev hash root (s ++ [b]) := by
    rw [← hs.choose_spec] at h
    exact h.of_append
  have hsame : l = s :=
    h.eq_of_tip_eq hnodup hl ((List.prefix_append s [b]).trans hs) (hprev.symm.trans hrooted.prev_last)
  rwa [hsame]

end History
