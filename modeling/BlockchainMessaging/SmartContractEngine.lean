import BlockchainMessaging.Text
import Mathlib.Data.Finmap

/-!
# The contract engine (`core/smart_contract_engine.hpp`, `core/smart_contract_engine.cpp`)

`isContractActive` has no body; it is read as: the address is present with `isActive` set. The map
`standardFunctions` is the one the constructor fills, no code changes it.
-/

namespace BlockchainMessaging

/-- What the engine uses and the repository does not fix: `SHA256::hash`, and `parseOpcodes` and
`validateMethodCall`, which have no body. -/
structure ContractEnv where
  sha256 : Bytes → Bytes
  parseOpcodes : Bytes → List Bytes
  validateMethodCall : Bytes → List Bytes → Bool

abbrev Storage := Finmap fun _ : Bytes => Bytes

structure ContractState where
  bytecode : Bytes
  storage : Storage
  owner : Bytes
  isActive : Bool

structure SmartContractEngine where
  contracts : Finmap fun _ : Bytes => ContractState

/-! ### The virtual machine -/

structure VM where
  stack : List Bytes
  storage : Storage

namespace VM

def execOp (vm : VM) (op : Bytes) : VM :=
  if op.take 4 = ascii "PUSH" then { vm with stack := vm.stack ++ [op.drop 4] }
  else vm  -- the branches for `ADD`, `STORE` and `LOAD` are empty

/-- The body of `parseBytecode` is a comment between the declaration of `ops` and its return. -/
def parseBytecode (_bytecode : Bytes) : List Bytes :=
  []

def execute (vm : VM) (bytecode : Bytes) : VM :=
  (parseBytecode bytecode).foldl execOp vm

theorem storage_execute (vm : VM) (bytecode : Bytes) :
    (vm.execute bytecode).storage = vm.storage := by
  unfold execute
  induction parseBytecode bytecode generalizing vm with
  | nil => rfl
  | cons op ops ih =>
    rw [List.foldl_cons, ih, execOp]
    split <;> rfl

end VM

namespace SmartContractEngine

def init : SmartContractEngine :=
  ⟨∅⟩

/-- What `contracts[contractAddress]` creates when the address is absent. -/
def freshState : ContractState :=
  { bytecode := [], storage := ∅, owner := [], isActive := false }

def isContractActive (e : SmartContractEngine) (contractAddress : Bytes) : Bool :=
  match e.contracts.lookup contractAddress with
  | some state => state.isActive
  | none => false

/-! ### Deployment -/

def validOpcodes : List Bytes :=
  ["PUSH", "POP", "ADD", "SUB", "MUL", "DIV", "STORE", "LOAD", "CALL", "RETURN"].map ascii

def validateOpcodes (C : ContractEnv) (bytecode : Bytes) : Bool :=
  (C.parseOpcodes bytecode).all fun op => op ∈ validOpcodes

def validateContract (C : ContractEnv) (bytecode : Bytes) : Bool :=
  if bytecode.isEmpty then false
  else decide (ascii "CONSTRUCTOR" <:+: bytecode) && validateOpcodes C bytecode

def addressText (bytecode owner : Bytes) : Bytes :=
  bytecode ++ owner

def contractAddress (C : ContractEnv) (bytecode owner : Bytes) : Bytes :=
  ascii "M" ++ (C.sha256 (addressText bytecode owner)).take 30

/-- `.error` is the `std::runtime_error` thrown, next to the state it leaves. -/
def deployContract (C : ContractEnv) (bytecode owner : Bytes) (e : SmartContractEngine) :
    Except String Bytes × SmartContractEngine :=
  if !validateContract C bytecode then (.error "Invalid contract bytecode", e)
  else
    let address := contractAddress C bytecode owner
    let state : ContractState :=
      { bytecode := bytecode, storage := ∅, owner := owner, isActive := true }
    (.ok address, ⟨e.contracts.insert address state⟩)

/-! ### Execution -/

/-- The standard functions look at the number of their parameters, and throw when it is wrong. -/
def standardFunction (method : Bytes) : Option (List Bytes → Except String Unit) :=
  if method = ascii "transfer" then
    some fun params =>
      if params.length ≠ 3 then .error "Invalid parameters for transfer" else .ok ()
  else if method = ascii "balanceOf" then
    some fun params =>
      if params.length ≠ 1 then .error "Invalid parameters for balanceOf" else .ok ()
  else if method = ascii "approve" then
    some fun params =>
      if params.length ≠ 3 then .error "Invalid parameters for approve" else .ok ()
  else none

/-- The state after the call; neither the method, its parameters nor the caller are used. -/
def executeCustomMethod (state : ContractState) (_method : Bytes) (_params : List Bytes)
    (_caller : Bytes) : ContractState :=
  let vm : VM := { stack := [], storage := state.storage }
  { state with storage := (vm.execute state.bytecode).storage }

def executeContract (C : ContractEnv) (contractAddress method : Bytes) (params : List Bytes)
    (caller : Bytes) (e : SmartContractEngine) : Except String Bool × SmartContractEngine :=
  if !e.isContractActive contractAddress then (.error "Contract not found or inactive", e)
  else if !C.validateMethodCall method params then (.error "Invalid method call", e)
  else match standardFunction method with
    | some function =>
      match function params with
      | .ok () => (.ok true, e)
      | .error _ => (.ok false, e)
    | none =>
      let state := (e.contracts.lookup contractAddress).getD freshState
      (.ok true,
        ⟨e.contracts.insert contractAddress (executeCustomMethod state method params caller)⟩)

/-! ### Storage -/

def updateContractState (contractAddress key value : Bytes) (e : SmartContractEngine) :
    Bool × SmartContractEngine :=
  if !e.isContractActive contractAddress then (false, e)
  else
    let state := (e.contracts.lookup contractAddress).getD freshState
    (true, ⟨e.contracts.insert contractAddress
      { state with storage := state.storage.insert key value }⟩)

def getContractState (e : SmartContractEngine) (contractAddress key : Bytes) :
    Except String Bytes :=
  if !e.isContractActive contractAddress then .error "Contract not found or inactive"
  else match e.contracts.lookup contractAddress with
    | none => .error "map::at"
    | some state =>
      match state.storage.lookup key with
      | none => .error "State key not found"
      | some value => .ok value

/-! ### Addresses -/

/-- One bytecode goes on where the other ends, with what the other's owner begins with. -/
def Shifted (bytecode₁ owner₁ bytecode₂ owner₂ : Bytes) : Prop :=
  ∃ t, bytecode₂ = bytecode₁ ++ t ∧ owner₁ = t ++ owner₂

variable {bytecode₁ owner₁ bytecode₂ owner₂ : Bytes}

theorem addressText_eq_iff :
    addressText bytecode₁ owner₁ = addressText bytecode₂ owner₂ ↔
      Shifted bytecode₁ owner₁ bytecode₂ owner₂ ∨ Shifted bytecode₂ owner₂ bytecode₁ owner₁ :=
  List.append_eq_append_iff

theorem Shifted.eq_of_length_eq (h : Shifted bytecode₁ owner₁ bytecode₂ owner₂)
    (hlen : bytecode₁.length = bytecode₂.length ∨ owner₁.length = owner₂.length) :
    bytecode₁ = bytecode₂ ∧ owner₁ = owner₂ := by
  obtain ⟨t, rfl, rfl⟩ := h
  have ht : t = [] := List.eq_nil_of_length_eq_zero <| by
    rcases hlen with hlen | hlen
    · rw [List.length_append] at hlen
      omega
    · rw [List.length_append] at hlen
      omega
  subst ht
  exact ⟨(List.append_nil _).symm, rfl⟩

theorem deployContract_of_ok {C : ContractEnv} {bytecode owner address : Bytes}
    {e : SmartContractEngine} (h : (e.deployContract C bytecode owner).1 = .ok address) :
    validateContract C bytecode = true ∧ address = contractAddress C bytecode owner := by
  rw [deployContract] at h
  cases hv : validateContract C bytecode with
  | false =>
    rw [hv] at h
    cases h
  | true =>
    rw [hv] at h
    exact ⟨rfl, (Except.ok.inj h).symm⟩

end SmartContractEngine

/-- The address of a deployed contract is made of bytecode and owner side by side. For different
pairs the two texts coincide exactly when the end of one bytecode is the beginning of the other's
owner, so never when the bytecodes, or the owners, have the same length. -/
theorem contract_address_iff (C : ContractEnv) (e₁ e₂ : SmartContractEngine)
    (bytecode₁ owner₁ bytecode₂ owner₂ address₁ address₂ : Bytes)
    (h₁ : (e₁.deployContract C bytecode₁ owner₁).1 = .ok address₁)
    (h₂ : (e₂.deployContract C bytecode₂ owner₂).1 = .ok address₂)
    (hne : (bytecode₁, owner₁) ≠ (bytecode₂, owner₂)) :
    let text₁ := SmartContractEngine.addressText bytecode₁ owner₁
    let text₂ := SmartContractEngine.addressText bytecode₂ owner₂
    address₁ = ascii "M" ++ (C.sha256 text₁).take 30 ∧
    address₂ = ascii "M" ++ (C.sha256 text₂).take 30 ∧
    (text₁ = text₂ ↔ SmartContractEngine.Shifted bytecode₁ owner₁ bytecode₂ owner₂ ∨
      SmartContractEngine.Shifted bytecode₂ owner₂ bytecode₁ owner₁) ∧
    (bytecode₁.length = bytecode₂.length ∨ owner₁.length = owner₂.length → text₁ ≠ text₂) := by
  refine ⟨(SmartContractEngine.deployContract_of_ok h₁).2,
    (SmartContractEngine.deployContract_of_ok h₂).2, SmartContractEngine.addressText_eq_iff, ?_⟩
  intro hlen htext
  refine hne (Prod.mk.injEq .. ▸ ?_)
  rcases SmartContractEngine.addressText_eq_iff.1 htext with h | h
  · exact h.eq_of_length_eq hlen
  · obtain ⟨hb, ho⟩ := h.eq_of_length_eq (hlen.imp Eq.symm Eq.symm)
    exact ⟨hb.symm, ho.symm⟩

def Sample.contractEnv : ContractEnv :=
  { sha256 := id, parseOpcodes := fun _ => [], validateMethodCall := fun _ _ => true }

section
open Sample

/-- The last letter of one bytecode is the first letter of the other's owner. -/
theorem same_text_other_owner :
    ¬ ∀ (C : ContractEnv) (e₁ e₂ : SmartContractEngine)
      (bytecode₁ owner₁ bytecode₂ owner₂ address₁ address₂ : Bytes),
      (e₁.deployContract C bytecode₁ owner₁).1 = .ok address₁ →
      (e₂.deployContract C bytecode₂ owner₂).1 = .ok address₂ →
      (bytecode₁, owner₁) ≠ (bytecode₂, owner₂) →
      SmartContractEngine.addressText bytecode₁ owner₁ ≠
        SmartContractEngine.addressText bytecode₂ owner₂ := by
  intro h
  exact h contractEnv .init .init (ascii "CONSTRUCTORa") (ascii "lice") (ascii "CONSTRUCTOR")
    (ascii "alice") (ascii "MCONSTRUCTORalice") (ascii "MCONSTRUCTORalice") (by decide +kernel)
    (by decide +kernel) (by decide +kernel) (by decide +kernel)

theorem contract_address_iff_alice :
    SmartContractEngine.addressText (ascii "CONSTRUCTOR") (ascii "alice") ≠
      SmartContractEngine.addressText (ascii "CONSTRUCTOR") (ascii "bob") :=
  (contract_address_iff contractEnv .init .init (ascii "CONSTRUCTOR") (ascii "alice")
    (ascii "CONSTRUCTOR") (ascii "bob") (ascii "MCONSTRUCTORalice") (ascii "MCONSTRUCTORbob")
    (by decide +kernel) (by decide +kernel) (by decide +kernel)).2.2.2 (.inl rfl)

end
end BlockchainMessaging
