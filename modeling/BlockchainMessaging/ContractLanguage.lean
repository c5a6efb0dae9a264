import BlockchainMessaging.SmartContractEngine
import BlockchainMessaging.Lib.Words

/-!
# The bytecode that `validateContract` accepts

Bytecode has to contain `CONSTRUCTOR`, and its words have to be in the table of `validateOpcodes`,
which does not have `CONSTRUCTOR` and no opcode that contains it. An occurrence of `CONSTRUCTOR` has
no white space, so it lies in one word: the two conditions exclude each other.
-/

namespace BlockchainMessaging
open Words

/-- `std::isspace`. -/
def isSpace (c : UInt8) : Bool :=
  c = 32 || (9 ≤ c && c ≤ 13)

namespace SmartContractEngine

/-- `CONSTRUCTOR` and the opcodes, separated by single spaces. -/
def program (ops : List Bytes) : Bytes :=
  (ascii " ").intercalate (ascii "CONSTRUCTOR" :: ops)

/-- The bytecode that should be accepted. -/
def IsProgram (bytecode : Bytes) : Prop :=
  ∃ ops, (∀ op ∈ ops, op ∈ validOpcodes) ∧ bytecode = program ops

/-- The bytecode that should be rejected. -/
def IsIllFormed (bytecode : Bytes) : Prop :=
  ¬ ascii "CONSTRUCTOR" <:+: bytecode ∨
    ∃ op ∈ words isSpace bytecode, op ≠ ascii "CONSTRUCTOR" ∧ op ∉ validOpcodes

example : words isSpace (ascii "CONSTRUCTOR PUSH\n ADD") =
    [ascii "CONSTRUCTOR", ascii "PUSH", ascii "ADD"] := by decide +kernel

variable {C : ContractEnv} {bytecode : Bytes}

theorem constructor_not_infix {op : Bytes} (h : op ∈ validOpcodes) :
    ¬ ascii "CONSTRUCTOR" <:+: op := by
  revert op
  decide +kernel

theorem validateOpcodes_eq_false (hC : C.parseOpcodes = words isSpace)
    (h : ascii "CONSTRUCTOR" <:+: bytecode) : validateOpcodes C bytecode = false := by
  have hsep : ∀ c ∈ ascii "CONSTRUCTOR", isSpace c = false := by decide +kernel
  obtain ⟨word, hword, hinfix⟩ := exists_word_of_infix (by decide) hsep h
  rw [← Bool.not_eq_true]
  intro hall
  rw [validateOpcodes, hC, List.all_eq_true] at hall
  exact constructor_not_infix (of_decide_eq_true (hall word hword)) hinfix

theorem validateContract_eq_false (hC : C.parseOpcodes = words isSpace) (bytecode : Bytes) :
    validateContract C bytecode = false := by
  unfold validateContract
  split_ifs with hempty
  · rfl
  · by_cases h : ascii "CONSTRUCTOR" <:+: bytecode
    · rw [validateOpcodes_eq_false hC h, Bool.and_false]
    · rw [decide_eq_false h, Bool.false_and]

theorem deployContract_eq_error {C : ContractEnv} (h : validateContract C bytecode = false)
    (owner : Bytes) (e : SmartContractEngine) :
    e.deployContract C bytecode owner = (.error "Invalid contract bytecode", e) := by
  rw [deployContract, h]
  rfl

end SmartContractEngine

/-- No bytecode is accepted. So the language is respected exactly on the bytecode that is not a
program. -/
theorem contract_language_iff (C : ContractEnv) (hC : C.parseOpcodes = words isSpace)
    (bytecode owner : Bytes) (e : SmartContractEngine) :
    e.deployContract C bytecode owner = (.error "Invalid contract bytecode", e) ∧
    ((SmartContractEngine.IsProgram bytecode →
        SmartContractEngine.validateContract C bytecode = true ∧
          ∃ address, (e.deployContract C bytecode owner).1 = .ok address) ∧
      (SmartContractEngine.IsIllFormed bytecode →
        SmartContractEngine.validateContract C bytecode = false) ↔
      ¬ SmartContractEngine.IsProgram bytecode) := by
  have hrejected := SmartContractEngine.validateContract_eq_false hC bytecode
  refine ⟨SmartContractEngine.deployContract_eq_error hrejected owner e, ?_, ?_⟩
  · rintro ⟨haccept, -⟩ hprogram
    rw [hrejected] at haccept
    exact absurd (haccept hprogram).1 Bool.false_ne_true
  · exact fun hnot => ⟨fun hprogram => absurd hprogram hnot, fun _ => hrejected⟩

section
open Sample

def Sample.splittingEnv : ContractEnv :=
  { contractEnv with parseOpcodes := words isSpace }

theorem program_rejected :
    ¬ ∀ (C : ContractEnv), C.parseOpcodes = words isSpace →
      ∀ ops : List Bytes, (∀ op ∈ ops, op ∈ SmartContractEngine.validOpcodes) →
        SmartContractEngine.validateContract C (SmartContractEngine.program ops) = true := by
  intro h
  have hvalid := h splittingEnv rfl [ascii "PUSH", ascii "ADD"] (by decide +kernel)
  revert hvalid
  decide +kernel

theorem contract_language_iff_push :
    SmartContractEngine.init.deployContract splittingEnv (ascii "PUSH ADD") (ascii "alice") =
      (.error "Invalid contract bytecode", SmartContractEngine.init) :=
  (contract_language_iff splittingEnv rfl (ascii "PUSH ADD") (ascii "alice") .init).1

end
end BlockchainMessaging
