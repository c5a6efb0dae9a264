import BlockchainMessaging.Lib.Numeral
import Mathlib.Algebra.BigOperators.Group.List.Basic
import Mathlib.Tactic.Ring

/-!
# Byte strings and what a `stringstream` writes

A `std::string` is a sequence of bytes. `decimal` and `decimalInt` are the texts `operator<<` writes
for an unsigned and for a signed integer.
-/

namespace BlockchainMessaging

abbrev Bytes := List UInt8

/-- The bytes of an ASCII literal. -/
def ascii (s : String) : Bytes :=
  s.toList.map fun c => c.toNat.toUInt8

def decimalDigits : Alphabet UInt8 where
  base := 10
  digit d := (48 + d).toUInt8
  value c := c.toNat - 48
  one_lt := by decide
  value_digit := by decide

def decimal (n : ℕ) : Bytes :=
  decimalDigits.numeral n

def decimalInt : ℤ → Bytes
  | .ofNat n => decimal n
  | .negSucc n => ascii "-" ++ decimal (n + 1)

def hexDigits : Alphabet UInt8 where
  base := 16
  digit d := if d < 10 then (48 + d).toUInt8 else (87 + d).toUInt8
  value c := if c < 58 then c.toNat - 48 else c.toNat - 87
  one_lt := by decide
  value_digit := by decide

/-- A hexadecimal string of 64 characters, the form in which the repository keeps hashes. -/
def IsHexHash (s : Bytes) : Prop :=
  s.length = 64 ∧ ∀ c ∈ s, ∃ d, d < 16 ∧ hexDigits.digit d = c

theorem decimal_injective : Function.Injective decimal :=
  decimalDigits.numeral_injective

theorem minus_notMem_decimal (n : ℕ) : (45 : UInt8) ∉ decimal n := by
  intro h
  obtain ⟨d, hd, h⟩ := decimalDigits.exists_digit_of_mem_numeral h
  revert d
  decide

theorem decimalInt_injective : Function.Injective decimalInt := by
  have key : ∀ m n : ℕ, decimalInt (.ofNat m) ≠ decimalInt (.negSucc n) := fun m n h => by
    refine minus_notMem_decimal m ?_
    rw [show decimal m = _ from h]
    exact List.mem_cons_self
  intro m n h
  cases m with
  | ofNat m =>
    cases n with
    | ofNat n => rw [decimal_injective (show decimal m = decimal n from h)]
    | negSucc n => exact absurd h (key m n)
  | negSucc m =>
    cases n with
    | ofNat n => exact absurd h.symm (key n m)
    | negSucc n =>
      have := decimal_injective (List.append_cancel_left h)
      rw [Nat.succ.inj this]

/-! ### Texts of one width side by side -/

section
variable {l m : List Bytes} {k : ℕ}

theorem length_flatten_of_forall (hl : ∀ s ∈ l, s.length = k) :
    l.flatten.length = l.length * k := by
  induction l with
  | nil => simp
  | cons s l ih =>
    rw [List.flatten_cons, List.length_append, hl s List.mem_cons_self,
      ih fun t ht => hl t (List.mem_cons_of_mem s ht), List.length_cons]
    ring

theorem eq_of_flatten_eq (hl : ∀ s ∈ l, s.length = k) (hm : ∀ s ∈ m, s.length = k)
    (hlen : l.length = m.length) (h : l.flatten = m.flatten) : l = m := by
  have hwidth : ∀ l : List Bytes, (∀ s ∈ l, s.length = k) →
      l.map List.length = List.replicate l.length k := by
    intro l hl
    rw [← List.map_const']
    exact List.map_congr_left hl
  exact List.eq_iff_flatten_eq.2 ⟨h, by rw [hwidth l hl, hwidth m hm, hlen]⟩

end

section
variable {α : Type*} {f : α → Bytes} {k : ℕ}

theorem forall_mem_map_length (hf : ∀ a, (f a).length = k) (l : List α) :
    ∀ s ∈ l.map f, s.length = k := by
  intro s hs
  obtain ⟨a, -, rfl⟩ := List.mem_map.1 hs
  exact hf a

theorem length_flatten_map (hf : ∀ a, (f a).length = k) (l : List α) :
    (l.map f).flatten.length = l.length * k := by
  rw [length_flatten_of_forall (forall_mem_map_length hf l), List.length_map]

theorem map_eq_of_flatten_eq (hf : ∀ a, (f a).length = k) {l m : List α}
    (hlen : l.length = m.length) (h : (l.map f).flatten = (m.map f).flatten) :
    l.map f = m.map f :=
  eq_of_flatten_eq (forall_mem_map_length hf l) (forall_mem_map_length hf m)
    (by rw [List.length_map, List.length_map, hlen]) h

end

end BlockchainMessaging
