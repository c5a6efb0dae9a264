import BlockchainMessaging.ProtocolWire

/-!
# Messages with JSON payloads (`network/protocol.hpp`, `network/protocol.cpp`)

`createHandshake`, `createBlockRequest` and `createTransactionBroadcast` write a JSON document into the
payload of a message, which `serialize` then writes as a string into another. The inner document is
read back only when the outer one has left every byte of it in place.
-/

namespace BlockchainMessaging

/-- `NetworkProtocol::HandshakeData`. -/
structure HandshakeData where
  version : UInt32
  nodeId : Bytes
  timestamp : UInt64
  capabilities : List Bytes

namespace NetworkProtocol

def handshakeMembers (data : HandshakeData) : List (Bytes × Json) :=
  [(ascii "version", .int data.version.toNat),
   (ascii "nodeId", .string data.nodeId),
   (ascii "timestamp", .int data.timestamp.toNat),
   (ascii "capabilities", .array (data.capabilities.map .string))]

/-- `now` is the value of `std::time(nullptr)`, as the unsigned number it is stored as. -/
def createHandshake (J : JsonCpp) (now : UInt64) (data : HandshakeData) : ProtocolMessage :=
  { type := MessageType.handshake.toInt32, sender := data.nodeId
    payload := J.write (.object (handshakeMembers data)), timestamp := now, signature := [] }

def blockRequestMembers (height : UInt64) : List (Bytes × Json) :=
  [(ascii "height", .int height.toNat)]

def createBlockRequest (J : JsonCpp) (now : UInt64) (height : UInt64) : ProtocolMessage :=
  { type := MessageType.blockRequest.toInt32, sender := []
    payload := J.write (.object (blockRequestMembers height)), timestamp := now, signature := [] }

/-- `serialize` is `Transaction::serialize`, which is nowhere declared. -/
def transactionBroadcastMembers (serialize : Transaction → Bytes) (tx : Transaction) :
    List (Bytes × Json) :=
  [(ascii "hash", .string tx.getHash), (ascii "data", .string (serialize tx))]

def createTransactionBroadcast (J : JsonCpp) (serialize : Transaction → Bytes) (now : UInt64)
    (tx : Transaction) : ProtocolMessage :=
  { type := MessageType.transactionBroadcast.toInt32, sender := []
    payload := J.write (.object (transactionBroadcastMembers serialize tx)), timestamp := now
    signature := [] }

end NetworkProtocol

open NetworkProtocol

/-- What the values of a payload are read back as: those of a message, and arrays of strings. -/
inductive Json.Copied : Json → Json → Prop
  | value {v v' : Json} (h : v.Reread v') : Copied v v'
  | strings {l l' : List Bytes} (h : List.Forall₂ Rewritten l l') :
      Copied (.array (l.map .string)) (.array (l'.map .string))

/-- The strings in a value. -/
def Json.strings : Json → List Bytes
  | .string s => [s]
  | .array elements => elements.filterMap fun
    | .string s => some s
    | _ => none
  | _ => []

/-- The object with these members is read back as an object with the members copied. -/
def JsonCpp.Copies (J : JsonCpp) (members : List (Bytes × Json)) : Prop :=
  ∃ members', J.parse (J.write (.object members)) = some (.object members') ∧
    ∀ name value, members.lookup name = some value →
      ∃ value', members'.lookup name = some value' ∧ value.Copied value'

/-- The members are all in `root`, with these values. -/
def Intact (members root : List (Bytes × Json)) : Prop :=
  ∀ name value, members.lookup name = some value → root.lookup name = some value

theorem forall₂_rewritten_eq_iff {l l' : List Bytes} (h : List.Forall₂ Rewritten l l') :
    l' = l ↔ ∀ s ∈ l, ValidUtf8 s := by
  induction h with
  | nil => simp
  | cons h _ ih => rw [List.cons.injEq, List.forall_mem_cons, h.eq_iff, ih]

theorem Json.strings_array (l : List Bytes) : (Json.array (l.map .string)).strings = l := by
  rw [strings, List.filterMap_map]
  exact List.filterMap_some

theorem Json.Copied.eq_iff {v v' : Json} (h : v.Copied v') :
    v' = v ↔ ∀ s ∈ v.strings, ValidUtf8 s := by
  cases h with
  | value h =>
    cases h with
    | int n => exact iff_of_true rfl fun _ hs => absurd hs List.not_mem_nil
    | string h =>
      rw [Json.string.injEq, h.eq_iff]
      exact List.forall_mem_singleton.symm
  | @strings l l' h =>
    have hinj : Function.Injective Json.string := fun _ _ h => Json.string.inj h
    rw [Json.strings_array, Json.array.injEq, (List.map_injective_iff.2 hinj).eq_iff,
      forall₂_rewritten_eq_iff h]

/-- A document comes back whole exactly when all its strings are valid UTF-8. -/
theorem JsonCpp.Copies.exists_intact_iff {J : JsonCpp} {members : List (Bytes × Json)}
    (h : J.Copies members) :
    ∃ root, J.parse (J.write (.object members)) = some (.object root) ∧
      (Intact members root ↔ ∀ name value, members.lookup name = some value →
        ∀ s ∈ value.strings, ValidUtf8 s) := by
  obtain ⟨root, hroot, hcopied⟩ := h
  refine ⟨root, hroot, forall₃_congr fun name value hname => ?_⟩
  obtain ⟨value', hvalue', hcopy⟩ := hcopied name value hname
  rw [hvalue', Option.some_inj]
  exact hcopy.eq_iff

/-- One of the three messages. -/
inductive Created where
  | handshake (data : HandshakeData)
  | blockRequest (height : UInt64)
  | transactionBroadcast (tx : Transaction)

namespace Created

def message (J : JsonCpp) (serialize : Transaction → Bytes) (now : UInt64) :
    Created → ProtocolMessage
  | handshake data => createHandshake J now data
  | blockRequest height => createBlockRequest J now height
  | transactionBroadcast tx => createTransactionBroadcast J serialize now tx

def members (serialize : Transaction → Bytes) : Created → List (Bytes × Json)
  | handshake data => handshakeMembers data
  | blockRequest height => blockRequestMembers height
  | transactionBroadcast tx => transactionBroadcastMembers serialize tx

/-- The texts in the payload. -/
def texts (serialize : Transaction → Bytes) : Created → List Bytes
  | handshake data => data.nodeId :: data.capabilities
  | blockRequest _ => []
  | transactionBroadcast tx => [tx.getHash, serialize tx]

variable {J : JsonCpp} {serialize : Transaction → Bytes}

theorem payload_message (now : UInt64) (c : Created) :
    (c.message J serialize now).payload = J.write (.object (c.members serialize)) := by
  cases c <;> rfl

theorem signature_message (now : UInt64) (c : Created) : (c.message J serialize now).signature = [] := by
  cases c <;> rfl

theorem forall_strings_iff (c : Created) :
    (∀ name value, (c.members serialize).lookup name = some value →
      ∀ s ∈ value.strings, ValidUtf8 s) ↔ ∀ s ∈ c.texts serialize, ValidUtf8 s := by
  constructor
  · intro h s hs
    cases c with
    | handshake data =>
      rcases List.mem_cons.1 hs with rfl | hs
      · exact h (ascii "nodeId") _ rfl _ (List.mem_singleton_self _)
      · refine h (ascii "capabilities") _ rfl s ?_
        rwa [Json.strings_array]
    | blockRequest height => cases hs
    | transactionBroadcast tx =>
      rcases List.mem_cons.1 hs with rfl | hs
      · exact h (ascii "hash") _ rfl _ (List.mem_singleton_self _)
      · obtain rfl := List.mem_singleton.1 hs
        exact h (ascii "data") _ rfl _ (List.mem_singleton_self _)
  · intro h name value hname s hs
    have hmem : (name, value) ∈ c.members serialize := List.lookup_eq_some_iff.1 hname |>.elim
      fun l hl => by
        obtain ⟨m, hl, -⟩ := hl
        rw [hl]
        simp
    refine h s ?_
    cases c with
    | handshake data =>
      simp only [members, handshakeMembers, List.mem_cons, Prod.mk.injEq, List.not_mem_nil,
        or_false] at hmem
      rcases hmem with ⟨-, rfl⟩ | ⟨-, rfl⟩ | ⟨-, rfl⟩ | ⟨-, rfl⟩
      · cases hs
      · rw [List.mem_singleton.1 hs]
        exact List.mem_cons_self
      · cases hs
      · rw [Json.strings_array] at hs
        exact List.mem_cons_of_mem _ hs
    | blockRequest height =>
      obtain ⟨-, rfl⟩ := Prod.mk.inj (List.mem_singleton.1 hmem)
      cases hs
    | transactionBroadcast tx =>
      simp only [members, transactionBroadcastMembers, List.mem_cons, Prod.mk.injEq,
        List.not_mem_nil, or_false] at hmem
      rcases hmem with ⟨-, rfl⟩ | ⟨-, rfl⟩
      · rw [List.mem_singleton.1 hs]
        exact List.mem_cons_self
      · rw [List.mem_singleton.1 hs]
        exact List.mem_cons_of_mem _ (List.mem_singleton_self _)

end Created

section
open Sample

/-- JsonCpp on a document with one member and on one with five. -/
def Sample.jsonCpp₂ (inner outer : String) (members members' : List (Bytes × Json)) : JsonCpp :=
  { jsonCpp outer members' with
    write := fun v =>
      match v with
      | .object [_] => ascii inner
      | _ => ascii outer
    parse := fun data =>
      if data = ascii inner then some (.object members)
      else if data = ascii outer then some (.object members') else none }

theorem Sample.parse_jsonCpp₂ {inner outer : String} (members members' : List (Bytes × Json))
    (h : ascii outer ≠ ascii inner) :
    (jsonCpp₂ inner outer members members').parse (ascii outer) =
      (jsonCpp outer members').parse (ascii outer) :=
  if_neg h

/-- What the writer makes of a request for block 7. -/
def Sample.heightText : String :=
  "\x7b\"height\":7\x7d\n"

/-- The same as a payload in the document of the message. -/
def Sample.requestText : String :=
  "\x7b\"payload\":\"\x7b\\\"height\\\":7\x7d\\n\",\"sender\":\"\",\"signature\":\"\"," ++
    "\"timestamp\":1700000000,\"type\":1\x7d\n"

/-- A request for block 7, made at 1700000000. -/
def Sample.heightRequest : ProtocolMessage :=
  { type := 1, sender := [], payload := ascii heightText, timestamp := 1700000000, signature := [] }

end
end BlockchainMessaging
