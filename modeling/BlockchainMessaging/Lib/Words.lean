import Mathlib.Data.List.Infix

/-!
# The words of a text

`words sep s` are the longest runs without separators, from left to right. A text without separators
that occurs anywhere in `s` occurs in one of its words.
-/

namespace Words
variable {α : Type*} (sep : α → Bool)

def words (s : List α) : List (List α) :=
  (s.splitOnP sep).filter fun word => !word.isEmpty

variable {sep}

/-- Text without separators lengthens the first piece. -/
theorem exists_splitOnP_append {w : List α} (hw : ∀ c ∈ w, sep c = false) (s : List α) :
    ∃ piece pieces, s.splitOnP sep = piece :: pieces ∧
      (w ++ s).splitOnP sep = (w ++ piece) :: pieces := by
  induction w with
  | nil =>
    obtain ⟨piece, pieces, h⟩ := List.exists_cons_of_ne_nil (List.splitOnP_ne_nil sep s)
    exact ⟨piece, pieces, h, h⟩
  | cons c w ih =>
    obtain ⟨piece, pieces, h, hw'⟩ := ih fun d hd => hw d (List.mem_cons_of_mem c hd)
    refine ⟨piece, pieces, h, ?_⟩
    rw [List.cons_append, List.splitOnP_cons_eq_if_modifyHead, hw c List.mem_cons_self, hw']
    rfl

/-- Whatever text comes before, the pieces remain, the first one perhaps lengthened. -/
theorem exists_piece_append (t : List α) {s piece : List α} (h : piece ∈ s.splitOnP sep) :
    ∃ piece' ∈ (t ++ s).splitOnP sep, piece <:+: piece' := by
  induction t with
  | nil => exact ⟨piece, h, List.infix_rfl⟩
  | cons c t ih =>
    obtain ⟨piece', hmem, hinfix⟩ := ih
    rw [List.cons_append, List.splitOnP_cons_eq_if_modifyHead]
    split_ifs with hc
    · exact ⟨piece', List.mem_cons_of_mem _ hmem, hinfix⟩
    · obtain ⟨first, pieces, heq⟩ := List.exists_cons_of_ne_nil (List.splitOnP_ne_nil sep (t ++ s))
      rw [heq] at hmem ⊢
      rcases List.mem_cons.1 hmem with rfl | hmem
      · exact ⟨c :: piece', List.mem_cons_self, hinfix.trans (List.suffix_cons c piece').isInfix⟩
      · exact ⟨piece', List.mem_cons_of_mem _ hmem, hinfix⟩

theorem exists_word_of_infix {w s : List α} (hne : w ≠ []) (hw : ∀ c ∈ w, sep c = false)
    (h : w <:+: s) : ∃ word ∈ words sep s, w <:+: word := by
  obtain ⟨t, u, rfl⟩ := h
  obtain ⟨piece, pieces, -, heq⟩ := exists_splitOnP_append hw u
  have hmem : w ++ piece ∈ (w ++ u).splitOnP sep := heq ▸ List.mem_cons_self
  obtain ⟨word, hword, hinfix⟩ := exists_piece_append t hmem
  have hsub : w <:+: word := (List.prefix_append w piece).isInfix.trans hinfix
  refine ⟨word, List.mem_filter.2 ⟨?_, ?_⟩, hsub⟩
  · rwa [List.append_assoc]
  · have hword : word ≠ [] := by
      rintro rfl
      exact hne (List.infix_nil.1 hsub)
    simpa using hword

end Words
