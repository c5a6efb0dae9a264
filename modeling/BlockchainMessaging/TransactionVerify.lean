import BlockchainMessaging.Blockchain
import BlockchainMessaging.Lib.Sums

/-!
# What a verified transaction pays out

`verify` compares the sum over the inputs with the sum over the outputs, and looks at one input at a
time otherwise. So an output of negative amount makes room for a larger one, and a previous output
is counted as often as inputs name it.
-/

namespace BlockchainMessaging
namespace Transaction

variable {P : Parts} {doubleHash : Bytes → Bytes} {E : Encryption} {tx : Transaction}

theorem getTotalInput_eq_sum (tx : Transaction) :
    tx.getTotalInput = (tx.inputs.map TransactionInput.amount).sum := by
  rw [List.sum_eq_foldl, List.foldl_map, getTotalInput]

theorem getTotalOutput_eq_sum (tx : Transaction) :
    tx.getTotalOutput = (tx.outputs.map TransactionOutput.amount).sum := by
  rw [List.sum_eq_foldl, List.foldl_map, getTotalOutput]

theorem verify_iff :
    tx.verify P doubleHash E = true ↔
      tx.inputs ≠ [] ∧ tx.outputs ≠ [] ∧ tx.getTotalOutput ≤ tx.getTotalInput ∧
        (∀ input ∈ tx.inputs, P.inputVerify input = true) ∧
        ∀ input ∈ tx.inputs,
          E.verify (tx.calculateHash P doubleHash) input.signature input.publicKey = true := by
  unfold verify
  split_ifs with hempty htotal hparts
  · simp only [Bool.or_eq_true, List.isEmpty_iff] at hempty
    simp only [false_iff]
    rintro ⟨hin, hout, -⟩
    exact hempty.elim hin hout
  · simp only [false_iff]
    rintro ⟨-, -, hle, -⟩
    exact absurd htotal (not_lt.2 hle)
  · simp only [Bool.not_eq_true', List.all_eq_false, Bool.not_eq_true] at hparts
    obtain ⟨input, hmem, hinput⟩ := hparts
    simp only [false_iff]
    rintro ⟨-, -, -, hall, -⟩
    rw [hall input hmem] at hinput
    cases hinput
  · simp only [Bool.or_eq_true, List.isEmpty_iff, not_or] at hempty
    simp only [Bool.not_eq_true', Bool.not_eq_false, List.all_eq_true] at hparts
    rw [List.all_eq_true]
    exact ⟨fun h => ⟨hempty.1, hempty.2, not_lt.1 htotal, hparts, h⟩, fun h => h.2.2.2.2⟩

/-! ### Outputs -/

/-- No output, and no part of the outputs, exceeds what the inputs bring. -/
def Bounded (tx : Transaction) : Prop :=
  (∀ output ∈ tx.outputs, output.amount ≤ tx.getTotalInput) ∧
    ∀ part : List TransactionOutput, part.Sublist tx.outputs →
      (part.map TransactionOutput.amount).sum ≤ tx.getTotalInput

def payout (tx : Transaction) : Amount :=
  Sums.gain (tx.outputs.map TransactionOutput.amount)

theorem bounded_iff : tx.Bounded ↔ tx.payout ≤ tx.getTotalInput := by
  rw [payout, ← Sums.forall_sublist_sum_le_iff]
  constructor
  · rintro ⟨-, hparts⟩ amounts hsub
    obtain ⟨part, hpart, rfl⟩ := List.sublist_map_iff.1 hsub
    exact hparts part hpart
  · intro h
    refine ⟨fun output hmem => ?_, fun part hpart => h _ (hpart.map _)⟩
    have := h [output.amount] (List.singleton_sublist.2 (List.mem_map_of_mem hmem))
    rwa [List.sum_singleton] at this

theorem payout_of_nonneg (h : ∀ output ∈ tx.outputs, 0 ≤ output.amount) :
    tx.payout = tx.getTotalOutput := by
  rw [payout, getTotalOutput_eq_sum, Sums.gain_of_nonneg]
  intro amount hmem
  obtain ⟨output, houtput, rfl⟩ := List.mem_map.1 hmem
  exact h output houtput

end Transaction

/-- The outputs of a verified transaction are bounded by its inputs exactly when the outputs of
positive amount are, so whenever no output is negative. -/
theorem verify_bounded_iff (P : Parts) (doubleHash : Bytes → Bytes) (E : Encryption)
    (tx : Transaction) (hv : tx.verify P doubleHash E = true) :
    (tx.Bounded ↔ tx.payout ≤ tx.getTotalInput) ∧
      ((∀ output ∈ tx.outputs, 0 ≤ output.amount) → tx.Bounded) := by
  refine ⟨Transaction.bounded_iff, fun hpos => ?_⟩
  rw [Transaction.bounded_iff, Transaction.payout_of_nonneg hpos]
  exact (Transaction.verify_iff.1 hv).2.2.1

section
open Sample

/-- A transaction that `alice` signs, with an input for each pair of an output of one earlier
transaction and its amount, and an output to `bob` for each amount. -/
def Sample.spending (inputs : List (UInt32 × Amount)) (outputs : List Amount) : Transaction :=
  let tx : Transaction :=
    { Transaction.ofType parts id .financial 1700000000 0 with
      inputs := inputs.map fun i =>
        { previousTxHash := List.replicate 64 48, outputIndex := i.1, signature := [],
          publicKey := [], amount := i.2 }
      outputs := outputs.map fun amount =>
        { recipient := ascii "bob", amount := amount, scriptPubKey := [], isSpent := false } }
  (tx.sign parts id encryption (ascii "alice")).2

/-- An input of 5 pays outputs of 100 and of -95. -/
theorem negative_output_verifies :
    ¬ ∀ (P : Parts) (doubleHash : Bytes → Bytes) (E : Encryption) (tx : Transaction),
      tx.verify P doubleHash E = true → tx.Bounded := by
  intro h
  have := h parts id encryption (spending [(0, 5)] [100, -95]) (by decide +kernel)
  rw [Transaction.bounded_iff] at this
  revert this
  decide +kernel

theorem verify_bounded_iff_spending : (spending [(0, 5)] [2, 3]).Bounded :=
  (verify_bounded_iff parts id encryption (spending [(0, 5)] [2, 3]) (by decide +kernel)).2
    (by decide +kernel)

end

/-! ### Inputs -/

structure PreviousOutput where
  txHash : Bytes
  index : UInt32
deriving DecidableEq

def TransactionInput.previousOutput (input : TransactionInput) : PreviousOutput :=
  ⟨input.previousTxHash, input.outputIndex⟩

/-- The previous outputs hold `value`, and none holds a negative amount. -/
def SpendsValues (value : PreviousOutput → Amount) (inputs : List TransactionInput) : Prop :=
  ∀ input ∈ inputs, input.amount = value input.previousOutput ∧ 0 ≤ input.amount

/-- The total amount of the distinct previous outputs that the inputs refer to. -/
def spentOnce (value : PreviousOutput → Amount) (inputs : List TransactionInput) : Amount :=
  ∑ p ∈ (inputs.map TransactionInput.previousOutput).toFinset, value p

/-- The same, with every previous output as often as inputs refer to it. -/
def spentRepeatedly (value : PreviousOutput → Amount) (inputs : List TransactionInput) : Amount :=
  ∑ p ∈ (inputs.map TransactionInput.previousOutput).toFinset,
    (inputs.map TransactionInput.previousOutput).count p • value p

namespace SpendsValues
variable {value : PreviousOutput → Amount} {inputs : List TransactionInput}

theorem map_amount (h : SpendsValues value inputs) :
    inputs.map TransactionInput.amount =
      (inputs.map TransactionInput.previousOutput).map value := by
  rw [List.map_map]
  exact List.map_congr_left fun input hmem => (h input hmem).1

theorem sum_eq_spentRepeatedly (h : SpendsValues value inputs) :
    (inputs.map TransactionInput.amount).sum = spentRepeatedly value inputs := by
  rw [h.map_amount, Finset.sum_list_map_count]
  rfl

theorem sum_le_spentOnce_iff (h : SpendsValues value inputs) :
    (inputs.map TransactionInput.amount).sum ≤ spentOnce value inputs ↔
      ∀ p ∈ inputs.map TransactionInput.previousOutput,
        1 < (inputs.map TransactionInput.previousOutput).count p → value p = 0 := by
  rw [h.map_amount]
  refine Sums.sum_count_le_iff fun p hp => ?_
  obtain ⟨input, hmem, rfl⟩ := List.mem_map.1 hp
  obtain ⟨hvalue, hnonneg⟩ := h input hmem
  rwa [← hvalue]

end SpendsValues

/-- With checks that accept everything, the inputs can pay out all they are counted for. -/
theorem exists_verify_of_ne_nil {inputs : List TransactionInput} (h : inputs ≠ []) :
    ∃ (P : Parts) (doubleHash : Bytes → Bytes) (E : Encryption) (tx : Transaction),
      tx.inputs = inputs ∧ tx.verify P doubleHash E = true ∧
        tx.getTotalOutput = (inputs.map TransactionInput.amount).sum := by
  let P : Parts := ⟨fun _ => [], fun _ => [], fun _ => true⟩
  let E : Encryption := ⟨fun _ _ => none, fun _ _ => none, fun _ => none, fun _ _ _ => true⟩
  let output : TransactionOutput := ⟨[], (inputs.map TransactionInput.amount).sum, [], false⟩
  let tx : Transaction :=
    { Transaction.ofType P id .financial 0 0 with inputs := inputs, outputs := [output] }
  have htotal : tx.getTotalOutput = (inputs.map TransactionInput.amount).sum := by
    rw [Transaction.getTotalOutput_eq_sum]
    exact List.sum_singleton
  refine ⟨P, id, E, tx, rfl, Transaction.verify_iff.2 ⟨h, List.cons_ne_nil _ _, ?_, ?_, ?_⟩, htotal⟩
  · rw [htotal, Transaction.getTotalInput_eq_sum]
  · exact fun _ _ => rfl
  · exact fun _ _ => rfl

/-- A verified transaction pays out at most what its inputs refer to, each previous output taken as
often as inputs refer to it. Taken once they suffice for every verified transaction with these
inputs exactly when no previous output of non-zero amount is referred to twice. -/
theorem verify_spends_iff (value : PreviousOutput → Amount) (inputs : List TransactionInput)
    (hvalue : SpendsValues value inputs) :
    (∀ (P : Parts) (doubleHash : Bytes → Bytes) (E : Encryption) (tx : Transaction),
      tx.inputs = inputs → tx.verify P doubleHash E = true →
        tx.getTotalOutput ≤ spentRepeatedly value inputs) ∧
    ((∀ (P : Parts) (doubleHash : Bytes → Bytes) (E : Encryption) (tx : Transaction),
      tx.inputs = inputs → tx.verify P doubleHash E = true →
        tx.getTotalOutput ≤ spentOnce value inputs) ↔
      ∀ p ∈ inputs.map TransactionInput.previousOutput,
        1 < (inputs.map TransactionInput.previousOutput).count p → value p = 0) := by
  have hbound : ∀ (P : Parts) (doubleHash : Bytes → Bytes) (E : Encryption) (tx : Transaction),
      tx.inputs = inputs → tx.verify P doubleHash E = true →
        tx.getTotalOutput ≤ (inputs.map TransactionInput.amount).sum := by
    rintro P doubleHash E tx rfl hv
    rw [← Transaction.getTotalInput_eq_sum]
    exact (Transaction.verify_iff.1 hv).2.2.1
  refine ⟨fun P doubleHash E tx hin hv => ?_, ?_⟩
  · rw [← hvalue.sum_eq_spentRepeatedly]
    exact hbound P doubleHash E tx hin hv
  · rw [← hvalue.sum_le_spentOnce_iff]
    constructor
    · intro h
      rcases eq_or_ne inputs [] with rfl | hne
      · exact le_refl _
      · obtain ⟨P, doubleHash, E, tx, hin, hv, htotal⟩ := exists_verify_of_ne_nil hne
        rw [← htotal]
        exact h P doubleHash E tx hin hv
    · exact fun h P doubleHash E tx hin hv => (hbound P doubleHash E tx hin hv).trans h

section
open Sample

def Sample.fives (p : PreviousOutput) : Amount :=
  if p.index < 2 then 5 else 0

/-- Two inputs name one output of 5, the transaction pays 10. -/
theorem output_spent_twice :
    ¬ ∀ (value : PreviousOutput → Amount) (P : Parts) (doubleHash : Bytes → Bytes) (E : Encryption)
      (tx : Transaction), SpendsValues value tx.inputs → tx.verify P doubleHash E = true →
        tx.getTotalOutput ≤ spentOnce value tx.inputs := by
  intro h
  have := h fives parts id encryption (spending [(0, 5), (0, 5)] [10])
    (by unfold SpendsValues; decide +kernel) (by decide +kernel)
  revert this
  decide +kernel

theorem verify_spends_iff_spending :
    (spending [(0, 5), (1, 5)] [10]).getTotalOutput ≤
      spentOnce fives (spending [(0, 5), (1, 5)] [10]).inputs := by
  refine (verify_spends_iff fives _ ?_).2.2 ?_ parts id encryption _ rfl (by decide +kernel)
  · unfold SpendsValues
    decide +kernel
  · decide +kernel

end

end BlockchainMessaging
