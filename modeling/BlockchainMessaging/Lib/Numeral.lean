import Mathlib.Data.Nat.Digits.Lemmas
import Mathlib.Tactic.Ring

/-!
# Positional numerals over an arbitrary alphabet

`Alphabet α`: `base` symbols of type `α`, one for each digit. `A.numeral n` is the usual numeral of
`n`, most significant symbol first, a single zero symbol for `0`; `A.read` reads it back.
`A.padded w n` has zero symbols in front of it, up to the width `w`.
-/

/-- The symbols of a positional notation: `value` recovers every digit below `base` from its symbol. -/
structure Alphabet (α : Type*) where
  base : ℕ
  digit : ℕ → α
  value : α → ℕ
  one_lt : 1 < base
  value_digit : ∀ d, d < base → value (digit d) = d

namespace Alphabet
variable {α : Type*} (A : Alphabet α)

/-- The digits of `n`, most significant first. -/
def digits (n : ℕ) : List ℕ :=
  if n = 0 then [0] else (Nat.digits A.base n).reverse

def numeral (n : ℕ) : List α :=
  (A.digits n).map A.digit

/-- The number a text reads as. -/
def read (text : List α) : ℕ :=
  Nat.ofDigits A.base (text.map A.value).reverse

theorem lt_base_of_mem_digits {n d : ℕ} (h : d ∈ A.digits n) : d < A.base := by
  unfold digits at h
  split at h
  · rw [List.mem_singleton.1 h]
    exact Nat.lt_of_succ_lt A.one_lt
  · exact Nat.digits_lt_base A.one_lt (List.mem_reverse.1 h)

theorem ofDigits_digits (n : ℕ) : Nat.ofDigits A.base (A.digits n).reverse = n := by
  unfold digits
  split
  · subst n; simp
  · rw [List.reverse_reverse, Nat.ofDigits_digits]

theorem read_numeral (n : ℕ) : A.read (A.numeral n) = n := by
  have hv : ((A.digits n).map A.digit).map A.value = A.digits n := by
    rw [List.map_map]
    refine (List.map_congr_left fun d hd => ?_).trans (List.map_id _)
    exact A.value_digit d (A.lt_base_of_mem_digits hd)
  rw [read, numeral, hv, ofDigits_digits]

theorem numeral_injective : Function.Injective A.numeral :=
  Function.LeftInverse.injective A.read_numeral

theorem exists_digit_of_mem_numeral {n : ℕ} {c : α} (h : c ∈ A.numeral n) :
    ∃ d, d < A.base ∧ A.digit d = c := by
  obtain ⟨d, hd, rfl⟩ := List.mem_map.1 h
  exact ⟨d, A.lt_base_of_mem_digits hd, rfl⟩

/-! ### Widths -/

theorem length_numeral_pos (n : ℕ) : 0 < (A.numeral n).length := by
  unfold numeral digits
  rw [List.length_map]
  split
  · exact Nat.succ_pos 0
  · rename_i hn
    rw [List.length_reverse, List.length_pos_iff]
    exact Nat.digits_ne_nil_iff_ne_zero.2 hn

theorem length_numeral_le_iff {n w : ℕ} (hw : 0 < w) :
    (A.numeral n).length ≤ w ↔ n < A.base ^ w := by
  unfold numeral digits
  rw [List.length_map]
  split
  · have hpos : 0 < A.base ^ w := Nat.pow_pos (Nat.lt_of_succ_lt A.one_lt)
    subst n
    exact ⟨fun _ => hpos, fun _ => hw⟩
  · rw [List.length_reverse]
    exact Nat.digits_length_le_iff A.one_lt n

/-! ### Texts of one width -/

/-- Every character is the symbol of a digit. -/
def IsText (s : List α) : Prop :=
  ∀ c ∈ s, ∃ d, d < A.base ∧ A.digit d = c

/-- What a stream writes with width `w` and the zero symbol as fill character. -/
def padded (w n : ℕ) : List α :=
  List.replicate (w - (A.numeral n).length) (A.digit 0) ++ A.numeral n

variable {A} {s t : List α}

theorem isText_numeral (n : ℕ) : A.IsText (A.numeral n) :=
  fun _ h => A.exists_digit_of_mem_numeral h

theorem base_pos : 0 < A.base :=
  Nat.lt_of_succ_lt A.one_lt

theorem isText_padded (w n : ℕ) : A.IsText (A.padded w n) := by
  intro c hc
  rcases List.mem_append.1 hc with hc | hc
  · exact ⟨0, A.base_pos, (List.mem_replicate.1 hc).2.symm⟩
  · exact isText_numeral n c hc

theorem length_padded {w n : ℕ} (hw : 0 < w) (h : n < A.base ^ w) : (A.padded w n).length = w := by
  have hle := (A.length_numeral_le_iff hw).2 h
  rw [padded, List.length_append, List.length_replicate]
  omega

theorem IsText.value_lt (hs : A.IsText s) : ∀ d ∈ (s.map A.value).reverse, d < A.base := by
  intro d hd
  obtain ⟨c, hc, rfl⟩ := List.mem_map.1 (List.mem_reverse.1 hd)
  obtain ⟨e, he, rfl⟩ := hs c hc
  rwa [A.value_digit e he]

theorem IsText.map_digit_value (hs : A.IsText s) : (s.map A.value).map A.digit = s := by
  rw [List.map_map]
  refine (List.map_congr_left fun c hc => ?_).trans (List.map_id s)
  obtain ⟨d, hd, rfl⟩ := hs c hc
  exact congrArg A.digit (A.value_digit d hd)

theorem IsText.read_lt (hs : A.IsText s) : A.read s < A.base ^ s.length := by
  have hlt := Nat.ofDigits_lt_base_pow_length A.one_lt hs.value_lt
  rwa [List.length_reverse, List.length_map] at hlt

theorem read_append (s t : List α) : A.read (s ++ t) = A.read s * A.base ^ t.length + A.read t := by
  rw [read, read, read, List.map_append, List.reverse_append, Nat.ofDigits_append,
    List.length_reverse, List.length_map]
  ring

theorem read_replicate_zero (k : ℕ) : A.read (List.replicate k (A.digit 0)) = 0 := by
  induction k with
  | zero => rfl
  | succ k ih =>
    have hzero : A.read [A.digit 0] = 0 := by
      rw [read, List.map_singleton, A.value_digit 0 A.base_pos]
      rfl
    rw [List.replicate_succ', read_append, ih, hzero, Nat.zero_mul]

theorem read_padded (w n : ℕ) : A.read (A.padded w n) = n := by
  rw [padded, read_append, read_replicate_zero, A.read_numeral, Nat.zero_mul, Nat.zero_add]

theorem IsText.eq_of_read_eq (hs : A.IsText s) (ht : A.IsText t) (hlen : s.length = t.length)
    (h : A.read s = A.read t) : s = t := by
  have hvalues : (s.map A.value).reverse = (t.map A.value).reverse :=
    Nat.ofDigits_inj_of_len_eq A.one_lt
      (by rw [List.length_reverse, List.length_reverse, List.length_map, List.length_map, hlen])
      hs.value_lt ht.value_lt h
  rw [← hs.map_digit_value, ← ht.map_digit_value, List.reverse_injective hvalues]

/-- A text is the padded numeral of the number it reads as. -/
theorem IsText.eq_padded (hs : A.IsText s) (hpos : 0 < s.length) :
    s = A.padded s.length (A.read s) := by
  refine hs.eq_of_read_eq (isText_padded _ _) ?_ ?_
  · rw [length_padded hpos hs.read_lt]
  · rw [read_padded]

end Alphabet
