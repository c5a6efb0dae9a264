import BlockchainMessaging.SmartContractEngine
import BlockchainMessaging.Lib.Run

/-!
# Runs of the contract engine

A run keeps, beside the engine, what its calls have achieved: the contracts deployed and the keys
written. `deployContract` assigns to `contracts[contractAddress]` without a look at what is there, so a
deployment to an address in use takes the contract and its storage away.
-/

namespace BlockchainMessaging
open Machine

inductive ContractCall where
  | deployContract (bytecode owner : Bytes)
  | executeContract (contractAddress method : Bytes) (params : List Bytes) (caller : Bytes)
  | updateContractState (contractAddress key value : Bytes)

/-- A call that returned, and not `false`. -/
inductive ContractEvent where
  | deployed (contractAddress bytecode owner : Bytes)
  | updated (contractAddress key value : Bytes)

namespace ContractEvent

def writtenAt (a k : Bytes) : ContractEvent → Option Bytes
  | updated contractAddress key value => if contractAddress = a ∧ key = k then some value else none
  | deployed _ _ _ => none

def deployedAt (a : Bytes) : ContractEvent → Option (Bytes × Bytes)
  | deployed contractAddress bytecode owner =>
    if contractAddress = a then some (bytecode, owner) else none
  | updated _ _ _ => none

def lastWrite (a k : Bytes) (events : List ContractEvent) : Option Bytes :=
  events.reverse.findSome? (writtenAt a k)

/-- The bytecode and the owner of the first deployment at the address. -/
def origin (a : Bytes) (events : List ContractEvent) : Option (Bytes × Bytes) :=
  events.findSome? (deployedAt a)

theorem lastWrite_concat (a k : Bytes) (events : List ContractEvent) (event : ContractEvent) :
    lastWrite a k (events ++ [event]) = (event.writtenAt a k).or (lastWrite a k events) := by
  rw [lastWrite, List.reverse_append, List.reverse_singleton, List.singleton_append,
    List.findSome?_cons]
  cases event.writtenAt a k <;> rfl

theorem origin_concat (a : Bytes) (events : List ContractEvent) (event : ContractEvent) :
    origin a (events ++ [event]) = (origin a events).or (event.deployedAt a) := by
  rw [origin, List.findSome?_append, List.findSome?_singleton]
  rfl

end ContractEvent

open ContractEvent

namespace SmartContractEngine
variable {C : ContractEnv} {e : SmartContractEngine} {a k : Bytes}

/-! ### What is stored, and what the calls do to it -/

def stored (e : SmartContractEngine) (a k : Bytes) : Option Bytes :=
  (e.contracts.lookup a).bind fun state => state.storage.lookup k

def code (e : SmartContractEngine) (a : Bytes) : Option (Bytes × Bytes) :=
  (e.contracts.lookup a).map fun state => (state.bytecode, state.owner)

def AllActive (e : SmartContractEngine) : Prop :=
  ∀ a state, e.contracts.lookup a = some state → state.isActive = true

section
variable {state : ContractState}

theorem stored_of_lookup (h : e.contracts.lookup a = some state) :
    e.stored a k = state.storage.lookup k := by
  rw [stored, h, Option.bind_some]

theorem code_of_lookup (h : e.contracts.lookup a = some state) :
    e.code a = some (state.bytecode, state.owner) := by
  rw [code, h, Option.map_some]

theorem stored_of_lookup_eq_none (h : e.contracts.lookup a = none) : e.stored a k = none := by
  rw [stored, h, Option.bind_none]

theorem code_of_lookup_eq_none (h : e.contracts.lookup a = none) : e.code a = none := by
  rw [code, h, Option.map_none]

theorem stored_insert (a' : Bytes) :
    stored ⟨e.contracts.insert a state⟩ a' k =
      if a' = a then state.storage.lookup k else e.stored a' k := by
  split_ifs with ha
  · subst ha
    exact stored_of_lookup (Finmap.lookup_insert _)
  · rw [stored, Finmap.lookup_insert_of_ne _ ha, stored]

theorem code_insert (a' : Bytes) :
    code ⟨e.contracts.insert a state⟩ a' =
      if a' = a then some (state.bytecode, state.owner) else e.code a' := by
  split_ifs with ha
  · subst ha
    exact code_of_lookup (Finmap.lookup_insert _)
  · rw [code, Finmap.lookup_insert_of_ne _ ha, code]

theorem AllActive.insert (h : e.AllActive) (hstate : state.isActive = true) :
    AllActive ⟨e.contracts.insert a state⟩ := by
  intro a' state' hl
  by_cases ha : a' = a
  · subst ha
    rw [Finmap.lookup_insert, Option.some_inj] at hl
    rwa [← hl]
  · rw [Finmap.lookup_insert_of_ne _ ha] at hl
    exact h a' state' hl

end

theorem isContractActive_iff :
    e.isContractActive a = true ↔
      ∃ state, e.contracts.lookup a = some state ∧ state.isActive = true := by
  unfold isContractActive
  cases e.contracts.lookup a <;> simp

theorem getContractState_eq_ok_iff (h : e.AllActive) {v : Bytes} :
    e.getContractState a k = .ok v ↔ e.stored a k = some v := by
  unfold getContractState stored isContractActive
  cases hl : e.contracts.lookup a with
  | none => simp
  | some state =>
    rw [Option.bind_some]
    simp only [h a state hl, Bool.not_true, Bool.false_eq_true, ↓reduceIte]
    cases state.storage.lookup k <;> simp

/-- The virtual machine writes nothing back. -/
theorem executeContract_snd (method : Bytes) (params : List Bytes) (caller : Bytes) :
    (e.executeContract C a method params caller).2 = e := by
  unfold executeContract
  split
  · rfl
  · rename_i hactive
    obtain ⟨state, hstate, -⟩ := isContractActive_iff.1 (by simpa using hactive)
    have hsame : executeCustomMethod state method params caller = state := by
      rw [executeCustomMethod, VM.storage_execute]
    split
    · rfl
    · split
      · split <;> rfl
      · show SmartContractEngine.mk (e.contracts.insert a (executeCustomMethod
          ((e.contracts.lookup a).getD freshState) method params caller)) = e
        rw [hstate, Option.getD_some, hsame]
        refine congrArg SmartContractEngine.mk (Finmap.ext_lookup fun a' => ?_)
        by_cases ha : a' = a
        · subst ha
          rw [Finmap.lookup_insert, hstate]
        · rw [Finmap.lookup_insert_of_ne _ ha]

end SmartContractEngine

structure ContractRun where
  events : List ContractEvent
  engine : SmartContractEngine

namespace ContractRun

def init : ContractRun :=
  ⟨[], .init⟩

def step (C : ContractEnv) (r : ContractRun) : ContractCall → ContractRun
  | .deployContract bytecode owner =>
    match r.engine.deployContract C bytecode owner with
    | (.ok address, engine) => ⟨r.events ++ [.deployed address bytecode owner], engine⟩
    | (.error _, engine) => ⟨r.events, engine⟩
  | .executeContract contractAddress method params caller =>
    ⟨r.events, (r.engine.executeContract C contractAddress method params caller).2⟩
  | .updateContractState contractAddress key value =>
    match r.engine.updateContractState contractAddress key value with
    | (true, engine) => ⟨r.events ++ [.updated contractAddress key value], engine⟩
    | (false, engine) => ⟨r.events, engine⟩

/-- Every key reads as last written, and every contract is the one first deployed at its address. -/
structure Durable (r : ContractRun) : Prop where
  reads : ∀ a k v, lastWrite a k r.events = some v → r.engine.getContractState a k = .ok v
  code : ∀ a c, origin a r.events = some c → r.engine.code a = some c

/-- The engine holds what the calls have achieved, and nothing else. -/
structure Sound (r : ContractRun) : Prop where
  stored : ∀ a k, r.engine.stored a k = lastWrite a k r.events
  code : ∀ a, r.engine.code a = origin a r.events
  active : r.engine.AllActive

/-- A deployment that `validateContract` lets through finds its address free, or holding the same
contract with nothing stored. -/
def FindsVacant (C : ContractEnv) (r : ContractRun) (call : ContractCall) : Prop :=
  ∀ bytecode owner, call = .deployContract bytecode owner →
    SmartContractEngine.validateContract C bytecode = true →
      ∀ state, r.engine.contracts.lookup (SmartContractEngine.contractAddress C bytecode owner) =
        some state → state.bytecode = bytecode ∧ state.owner = owner ∧ state.storage = ∅

variable {C : ContractEnv} {r : ContractRun}

theorem Sound.durable (h : Sound r) : Durable r where
  reads a k _ hw :=
    (SmartContractEngine.getContractState_eq_ok_iff h.active).2 ((h.stored a k).trans hw)
  code a _ hc := (h.code a).trans hc

theorem Sound.init : Sound init where
  stored _ _ := rfl
  code _ := rfl
  active _ _ h := by cases h

theorem step_deployContract (bytecode owner : Bytes) :
    r.step C (.deployContract bytecode owner) =
      if SmartContractEngine.validateContract C bytecode then
        let address := SmartContractEngine.contractAddress C bytecode owner
        ⟨r.events ++ [.deployed address bytecode owner],
          ⟨r.engine.contracts.insert address ⟨bytecode, ∅, owner, true⟩⟩⟩
      else r := by
  rw [step, SmartContractEngine.deployContract]
  cases SmartContractEngine.validateContract C bytecode <;> rfl

theorem step_executeContract (contractAddress method : Bytes) (params : List Bytes)
    (caller : Bytes) : r.step C (.executeContract contractAddress method params caller) = r := by
  rw [step, SmartContractEngine.executeContract_snd]

theorem step_updateContractState (h : r.engine.AllActive) (a k v : Bytes) :
    r.step C (.updateContractState a k v) =
      match r.engine.contracts.lookup a with
      | none => r
      | some state =>
        ⟨r.events ++ [.updated a k v],
          ⟨r.engine.contracts.insert a { state with storage := state.storage.insert k v }⟩⟩ := by
  rw [step, SmartContractEngine.updateContractState, SmartContractEngine.isContractActive]
  cases hl : r.engine.contracts.lookup a with
  | none => rfl
  | some state =>
    simp only [h a state hl, Bool.not_true, Bool.false_eq_true, ↓reduceIte, Option.getD_some]

namespace Sound

theorem updateContractState (h : Sound r) (a k v : Bytes) :
    Sound (r.step C (.updateContractState a k v)) := by
  rw [step_updateContractState h.active]
  cases hl : r.engine.contracts.lookup a with
  | none => exact h
  | some state =>
    refine ⟨fun a' k' => ?_, fun a' => ?_, h.active.insert (h.active a state hl)⟩
    · rw [SmartContractEngine.stored_insert, lastWrite_concat, ContractEvent.writtenAt, ← h.stored]
      split_ifs with ha hw hw
      · rw [hw.2, Finmap.lookup_insert, Option.some_or]
      · have hk : k' ≠ k := fun hk => hw ⟨ha.symm, hk.symm⟩
        rw [Finmap.lookup_insert_of_ne _ hk, Option.none_or, ha,
          SmartContractEngine.stored_of_lookup hl]
      · exact absurd hw.1.symm ha
      · rw [Option.none_or]
    · rw [SmartContractEngine.code_insert, origin_concat, ContractEvent.deployedAt, Option.or_none,
        ← h.code]
      split_ifs with ha
      · rw [ha, SmartContractEngine.code_of_lookup hl]
      · rfl

theorem deployContract (h : Sound r) {bytecode owner : Bytes}
    (hvacant : FindsVacant C r (.deployContract bytecode owner)) :
    Sound (r.step C (.deployContract bytecode owner)) := by
  rw [step_deployContract]
  split_ifs with hvalid
  · have hfree := hvacant bytecode owner rfl hvalid
    generalize SmartContractEngine.contractAddress C bytecode owner = a at hfree
    refine ⟨fun a' k' => ?_, fun a' => ?_, h.active.insert rfl⟩
    · rw [SmartContractEngine.stored_insert, lastWrite_concat, ContractEvent.writtenAt,
        Option.none_or, ← h.stored]
      split_ifs with ha
      · subst ha
        rw [Finmap.lookup_empty]
        cases hl : r.engine.contracts.lookup a' with
        | none => rw [SmartContractEngine.stored_of_lookup_eq_none hl]
        | some state =>
          rw [SmartContractEngine.stored_of_lookup hl, (hfree state hl).2.2, Finmap.lookup_empty]
      · rfl
    · rw [SmartContractEngine.code_insert, origin_concat, ContractEvent.deployedAt, ← h.code]
      split_ifs with ha hne hne
      · subst ha
        cases hl : r.engine.contracts.lookup a' with
        | none => rw [SmartContractEngine.code_of_lookup_eq_none hl, Option.none_or]
        | some state =>
          rw [SmartContractEngine.code_of_lookup hl, (hfree state hl).1, (hfree state hl).2.1,
            Option.some_or]
      · exact absurd ha.symm hne
      · exact absurd hne.symm ha
      · rw [Option.or_none]
  · exact h

theorem step (h : Sound r) {call : ContractCall} (hvacant : FindsVacant C r call) :
    Sound (r.step C call) := by
  cases call with
  | deployContract bytecode owner => exact h.deployContract hvacant
  | executeContract contractAddress method params caller => rwa [step_executeContract]
  | updateContractState a k v => exact h.updateContractState a k v

/-- A deployment over a contract that differs, or has something stored, does not go unnoticed. -/
theorem findsVacant_of_durable_step (h : Sound r) {call : ContractCall}
    (hdur : Durable (r.step C call)) : FindsVacant C r call := by
  rintro bytecode owner rfl hvalid state hl
  rw [step_deployContract, if_pos hvalid] at hdur
  generalize SmartContractEngine.contractAddress C bytecode owner = a at hl hdur
  have horigin : origin a r.events = some (state.bytecode, state.owner) := by
    rw [← h.code, SmartContractEngine.code_of_lookup hl]
  have hnew := hdur.code a (state.bytecode, state.owner)
    (by rw [origin_concat, horigin, Option.some_or])
  rw [SmartContractEngine.code_insert, if_pos rfl, Option.some_inj, Prod.mk.injEq] at hnew
  refine ⟨hnew.1.symm, hnew.2.symm, Finmap.ext_lookup fun k => ?_⟩
  rw [Finmap.lookup_empty, ← SmartContractEngine.stored_of_lookup hl, h.stored]
  cases hw : lastWrite a k r.events with
  | none => rfl
  | some v =>
    have hread := hdur.reads a k v
      (by rw [lastWrite_concat, ContractEvent.writtenAt, Option.none_or, hw])
    simp [SmartContractEngine.getContractState, SmartContractEngine.isContractActive] at hread

end Sound
end ContractRun

/-- Contracts and their storage last in every state of a run exactly when every deployment of the
run finds its address vacant. -/
theorem contract_durable_iff (C : ContractEnv) (calls : List ContractCall) :
    (∀ n, (run (ContractRun.step C) .init (calls.take n)).Durable) ↔
      Along (ContractRun.step C) (ContractRun.FindsVacant C) .init calls :=
  forall_run_take_iff_along (fun _ h => h.durable) (fun _ _ h => h.findsVacant_of_durable_step)
    (fun _ _ h => h.step) ContractRun.Sound.init calls

/-- The owner deploys the same contract once more. -/
theorem redeployment_empties_storage :
    ¬ ∀ (C : ContractEnv) (calls : List ContractCall),
      (run (ContractRun.step C) .init calls).Durable := by
  intro h
  have hread := (h Sample.contractEnv
    [.deployContract (ascii "CONSTRUCTOR") (ascii "alice"),
      .updateContractState (ascii "MCONSTRUCTORalice") (ascii "k") (ascii "v"),
      .deployContract (ascii "CONSTRUCTOR") (ascii "alice")]).reads
    (ascii "MCONSTRUCTORalice") (ascii "k") (ascii "v") (by decide +kernel)
  revert hread
  decide +kernel

/-! ### Execution after a run -/

namespace ContractCall

def IsExecute : ContractCall → Prop
  | executeContract _ _ _ _ => True
  | _ => False

instance : DecidablePred IsExecute
  | executeContract _ _ _ _ => isTrue trivial
  | deployContract _ _ => isFalse id
  | updateContractState _ _ _ => isFalse id

/-- The address at which the call puts a contract. -/
def address (C : ContractEnv) : ContractCall → Option Bytes
  | deployContract bytecode owner =>
    if SmartContractEngine.validateContract C bytecode then
      some (SmartContractEngine.contractAddress C bytecode owner)
    else none
  | _ => none

end ContractCall

namespace SmartContractEngine

/-- How many parameters a standard function takes. -/
def arity (method : Bytes) : Option ℕ :=
  if method = ascii "transfer" then some 3
  else if method = ascii "balanceOf" then some 1
  else if method = ascii "approve" then some 3
  else none

/-- What a call of `executeContract` answers, as far as its arguments decide it. -/
def verdict (C : ContractEnv) (method : Bytes) (params : List Bytes) : Except String Bool :=
  if !C.validateMethodCall method params then .error "Invalid method call"
  else .ok ((arity method).all fun n => params.length = n)

variable {C : ContractEnv} {e : SmartContractEngine} {a : Bytes}

theorem standardFunction_of_arity_eq_some {method : Bytes} {n : ℕ} (h : arity method = some n)
    (params : List Bytes) : ∃ function, standardFunction method = some function ∧
      (function params = .ok () ↔ params.length = n) := by
  unfold arity at h
  unfold standardFunction
  split_ifs at h ⊢ with h1 h2 h3
  · obtain rfl := Option.some.inj h
    exact ⟨_, rfl, by by_cases hlen : params.length = 3 <;> simp [hlen]⟩
  · obtain rfl := Option.some.inj h
    exact ⟨_, rfl, by by_cases hlen : params.length = 1 <;> simp [hlen]⟩
  · obtain rfl := Option.some.inj h
    exact ⟨_, rfl, by by_cases hlen : params.length = 3 <;> simp [hlen]⟩

theorem standardFunction_of_arity_eq_none {method : Bytes} (h : arity method = none) :
    standardFunction method = none := by
  unfold arity at h
  unfold standardFunction
  split_ifs at h ⊢
  rfl

/-- Neither the bytecode nor the storage nor the caller has a say in the answer. -/
theorem executeContract_of_active (h : e.isContractActive a = true) (method : Bytes)
    (params : List Bytes) (caller : Bytes) :
    e.executeContract C a method params caller = (verdict C method params, e) := by
  refine Prod.ext ?_ (executeContract_snd method params caller)
  unfold executeContract verdict
  rw [h]
  cases C.validateMethodCall method params with
  | false => rfl
  | true =>
    cases harity : arity method with
    | none => simp [standardFunction_of_arity_eq_none harity]
    | some n =>
      obtain ⟨function, hfunction, hparams⟩ := standardFunction_of_arity_eq_some harity params
      simp only [hfunction, Option.all_some]
      cases hcall : function params with
      | ok u =>
        have hlen : params.length = n := hparams.1 hcall
        simp [hlen]
      | error err =>
        have hlen : params.length ≠ n := fun hlen => by
          rw [hparams.2 hlen] at hcall
          cases hcall
        simp [hlen]

theorem executeContract_of_not_active (h : e.isContractActive a = false) (method : Bytes)
    (params : List Bytes) (caller : Bytes) :
    e.executeContract C a method params caller = (.error "Contract not found or inactive", e) := by
  rw [executeContract, h]
  rfl

end SmartContractEngine

namespace ContractRun
variable {C : ContractEnv} {r : ContractRun} {call : ContractCall} {calls : List ContractCall}

theorem step_of_isExecute (h : call.IsExecute) : r.step C call = r := by
  cases call with
  | executeContract contractAddress method params caller => exact step_executeContract ..
  | deployContract bytecode owner => exact absurd h id
  | updateContractState a k v => exact absurd h id

theorem run_filter_not_isExecute (r : ContractRun) (calls : List ContractCall) :
    run (step C) r (calls.filter fun call => ¬ call.IsExecute) = run (step C) r calls := by
  induction calls generalizing r with
  | nil => rfl
  | cons call calls ih =>
    by_cases h : call.IsExecute
    · have hstep : run (step C) r (call :: calls) = run (step C) (r.step C call) calls := rfl
      rw [hstep, step_of_isExecute h, List.filter_cons_of_neg (by simpa using h), ih]
    · rw [List.filter_cons_of_pos (by simpa using h)]
      exact ih (r.step C call)

/-- The contracts are active and stand at the addresses of the accepted deployments. -/
structure Populated (addresses : List Bytes) (e : SmartContractEngine) : Prop where
  active : e.AllActive
  present : ∀ a, (e.contracts.lookup a).isSome = true ↔ a ∈ addresses

theorem Populated.isContractActive_iff {addresses : List Bytes} {e : SmartContractEngine}
    (h : Populated addresses e) (a : Bytes) : e.isContractActive a = true ↔ a ∈ addresses := by
  rw [SmartContractEngine.isContractActive_iff, ← h.present a, Option.isSome_iff_exists]
  constructor
  · rintro ⟨state, hstate, -⟩
    exact ⟨state, hstate⟩
  · rintro ⟨state, hstate⟩
    exact ⟨state, hstate, h.active a state hstate⟩

theorem Populated.insert {addresses : List Bytes} {e : SmartContractEngine}
    (h : Populated addresses e) (a : Bytes) (state : ContractState) (hs : state.isActive = true) :
    Populated (addresses ++ [a]) ⟨e.contracts.insert a state⟩ where
  active := h.active.insert hs
  present a' := by
    by_cases ha : a' = a
    · subst ha
      simp [Finmap.lookup_insert]
    · simp [Finmap.lookup_insert_of_ne _ ha, h.present a', ha]

theorem Populated.step (h : Populated (calls.filterMap (ContractCall.address C)) r.engine)
    (call : ContractCall) :
    Populated ((calls ++ [call]).filterMap (ContractCall.address C)) (r.step C call).engine := by
  rw [List.filterMap_append]
  cases call with
  | executeContract contractAddress method params caller =>
    have hkeep : [ContractCall.executeContract contractAddress method params caller].filterMap
        (ContractCall.address C) = [] := rfl
    rw [step_executeContract, hkeep, List.append_nil]
    exact h
  | updateContractState a k v =>
    rw [step_updateContractState h.active]
    have hkeep : [ContractCall.updateContractState a k v].filterMap (ContractCall.address C) = [] :=
      rfl
    rw [hkeep, List.append_nil]
    cases hl : r.engine.contracts.lookup a with
    | none => exact h
    | some state =>
      -- the address is there already
      have hmem : a ∈ calls.filterMap (ContractCall.address C) := (h.present a).1 (by rw [hl]; rfl)
      have hins := h.insert a { state with storage := state.storage.insert k v } (h.active a state hl)
      refine ⟨hins.active, fun a' => (hins.present a').trans ?_⟩
      rw [List.mem_append, List.mem_singleton]
      refine ⟨fun h' => ?_, .inl⟩
      rcases h' with h' | rfl
      exacts [h', hmem]
  | deployContract bytecode owner =>
    rw [step_deployContract]
    by_cases hvalid : SmartContractEngine.validateContract C bytecode = true
    · have haddress : [ContractCall.deployContract bytecode owner].filterMap
          (ContractCall.address C) = [SmartContractEngine.contractAddress C bytecode owner] := by
        simp [ContractCall.address, hvalid]
      rw [haddress, if_pos hvalid]
      exact h.insert _ _ rfl
    · have hnone : [ContractCall.deployContract bytecode owner].filterMap
          (ContractCall.address C) = [] := by
        simp [ContractCall.address, hvalid]
      rw [hnone, if_neg hvalid, List.append_nil]
      exact h

theorem populated_run (C : ContractEnv) (calls : List ContractCall) :
    Populated (calls.filterMap (ContractCall.address C)) (run (step C) .init calls).engine := by
  have hinit : Populated ([].filterMap (ContractCall.address C)) init.engine :=
    ⟨fun _ _ h => (by cases h), fun a => by simp [init, SmartContractEngine.init]⟩
  exact run_inv_history (s := init) (J := fun (calls : List ContractCall) (r : ContractRun) =>
    Populated (calls.filterMap (ContractCall.address C)) r.engine) hinit
    (fun _ call _ h => h.step call) calls

end ContractRun

/-- After any calls the engine is what the deployments and the updates among them have made of it.
What `executeContract` answers then is decided by whether some accepted deployment had the address,
by the method and by the number of parameters: no bytecode is ever run. -/
theorem executeContract_of_run (C : ContractEnv) (calls : List ContractCall)
    (a method : Bytes) (params : List Bytes) (caller : Bytes) :
    let e := (run (ContractRun.step C) .init calls).engine
    e = (run (ContractRun.step C) .init (calls.filter fun call => ¬ call.IsExecute)).engine ∧
      e.executeContract C a method params caller =
        (if a ∈ calls.filterMap (ContractCall.address C) then
          SmartContractEngine.verdict C method params
        else .error "Contract not found or inactive", e) := by
  intro e
  have hpopulated := ContractRun.populated_run C calls
  refine ⟨by rw [ContractRun.run_filter_not_isExecute], ?_⟩
  have hactive := hpopulated.isContractActive_iff a
  by_cases ha : a ∈ calls.filterMap (ContractCall.address C)
  · rw [if_pos ha]
    exact SmartContractEngine.executeContract_of_active (hactive.2 ha) method params caller
  · rw [if_neg ha]
    have hinactive : e.isContractActive a = false := by
      rw [Bool.eq_false_iff]
      exact fun h => ha (hactive.1 h)
    exact SmartContractEngine.executeContract_of_not_active hinactive method params caller

end BlockchainMessaging
