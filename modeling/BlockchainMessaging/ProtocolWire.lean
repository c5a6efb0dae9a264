import BlockchainMessaging.Protocol

/-!
# Protocol messages on the wire (`network/protocol.cpp`)

`serialize` writes a message as a JSON object, `deserialize` reads it back. Sender, payload and
signature are byte strings and become JSON strings as they are. JsonCpp is not part of the repository:
`JsonCpp` is what the two functions call of it, `JsonCpp.Exact` and `JsonCpp.ReadsBack` what its
documentation says of these calls.
-/

namespace BlockchainMessaging

/-- `Json::Value`. -/
inductive Json where
  | null
  | bool (value : Bool)
  | int (value : ℤ)
  | real (value : ℚ)
  | string (value : Bytes)
  | array (elements : List Json)
  | object (members : List (Bytes × Json))

/-- `write` is `FastWriter::write`; `parse` is `Reader::parse`, `none` when it returns `false`;
`member` is `operator[]`. `.error` is the text of a thrown exception. -/
structure JsonCpp where
  write : Json → Bytes
  parse : Bytes → Option Json
  member : Json → Bytes → Except String Json
  asInt : Json → Except String Int32
  asUInt64 : Json → Except String UInt64
  asString : Json → Except String Bytes

def ValidUtf8 (s : Bytes) : Prop :=
  s.toByteArray.IsValidUTF8

instance (s : Bytes) : Decidable (ValidUtf8 s) :=
  inferInstanceAs (Decidable s.toByteArray.IsValidUTF8)

/-- The string `s` is written, `t` is read: bytes that are not valid UTF-8 are written as U+FFFD. -/
structure Rewritten (s t : Bytes) : Prop where
  same : ValidUtf8 s → t = s
  valid : ValidUtf8 t

theorem Rewritten.eq_iff {s t : Bytes} (h : Rewritten s t) : t = s ↔ ValidUtf8 s :=
  ⟨fun heq => heq ▸ h.valid, h.same⟩

/-- What the values of a message are read back as. -/
inductive Json.Reread : Json → Json → Prop
  | int (n : ℤ) : Reread (.int n) (.int n)
  | string {s t : Bytes} (h : Rewritten s t) : Reread (.string s) (.string t)

theorem Json.Reread.eq_int {n : ℤ} {v : Json} (h : (Json.int n).Reread v) : v = .int n := by
  cases h
  rfl

theorem Json.Reread.exists_string {s : Bytes} {v : Json} (h : (Json.string s).Reread v) :
    ∃ t, v = .string t ∧ Rewritten s t := by
  cases h with
  | string h => exact ⟨_, rfl, h⟩

namespace JsonCpp

/-- The conversions of values of the right type. -/
structure Exact (J : JsonCpp) : Prop where
  member : ∀ members name,
    J.member (.object members) name = .ok ((members.lookup name).getD .null)
  asInt : ∀ n : Int32, J.asInt (.int n.toInt) = .ok n
  asUInt64 : ∀ n : UInt64, J.asUInt64 (.int n.toNat) = .ok n
  asString : ∀ s, J.asString (.string s) = .ok s

/-- The object with these members is read back as an object with the members reread. -/
def ReadsBack (J : JsonCpp) (members : List (Bytes × Json)) : Prop :=
  ∃ members', J.parse (J.write (.object members)) = some (.object members') ∧
    ∀ name value, members.lookup name = some value →
      ∃ value', members'.lookup name = some value' ∧ value.Reread value'

end JsonCpp

namespace ProtocolMessage

def members (m : ProtocolMessage) : List (Bytes × Json) :=
  [(ascii "type", .int m.type.toInt),
   (ascii "sender", .string m.sender),
   (ascii "payload", .string m.payload),
   (ascii "timestamp", .int m.timestamp.toNat),
   (ascii "signature", .string m.signature)]

def serialize (J : JsonCpp) (m : ProtocolMessage) : Bytes :=
  J.write (.object m.members)

def deserialize (J : JsonCpp) (data : Bytes) : Except String ProtocolMessage :=
  match J.parse data with
  | none => .error "Failed to parse protocol message"
  | some root => do
    let type ← J.asInt (← J.member root (ascii "type"))
    let sender ← J.asString (← J.member root (ascii "sender"))
    let payload ← J.asString (← J.member root (ascii "payload"))
    let timestamp ← J.asUInt64 (← J.member root (ascii "timestamp"))
    let signature ← J.asString (← J.member root (ascii "signature"))
    return { type, sender, payload, timestamp, signature }

variable {J : JsonCpp} {m : ProtocolMessage}

theorem deserialize_eq (hJ : J.Exact) {data : Bytes} {root : List (Bytes × Json)}
    (hroot : J.parse data = some (.object root))
    (htype : root.lookup (ascii "type") = some (.int m.type.toInt))
    (hsender : root.lookup (ascii "sender") = some (.string m.sender))
    (hpayload : root.lookup (ascii "payload") = some (.string m.payload))
    (htimestamp : root.lookup (ascii "timestamp") = some (.int m.timestamp.toNat))
    (hsignature : root.lookup (ascii "signature") = some (.string m.signature)) :
    deserialize J data = .ok m := by
  rw [deserialize, hroot]
  simp only [hJ.member, htype, hsender, hpayload, htimestamp, hsignature, Option.getD_some,
    hJ.asInt, hJ.asString, hJ.asUInt64, bind, Except.bind, pure, Except.pure]

/-- The message arrives with its numbers, and with its strings rewritten. -/
theorem exists_deserialize_serialize (hJ : J.Exact) (hread : J.ReadsBack m.members) :
    ∃ sender payload signature, Rewritten m.sender sender ∧ Rewritten m.payload payload ∧
      Rewritten m.signature signature ∧
      deserialize J (m.serialize J) =
        .ok { m with sender := sender, payload := payload, signature := signature } := by
  obtain ⟨root, hroot, hmember⟩ := hread
  have hint : ∀ name n, m.members.lookup name = some (.int n) →
      root.lookup name = some (.int n) := fun name n hname => by
    obtain ⟨v, hv, hreread⟩ := hmember name _ hname
    rw [hv, hreread.eq_int]
  have hstring : ∀ name s, m.members.lookup name = some (.string s) →
      ∃ t, root.lookup name = some (.string t) ∧ Rewritten s t := fun name s hname => by
    obtain ⟨v, hv, hreread⟩ := hmember name _ hname
    obtain ⟨t, rfl, ht⟩ := hreread.exists_string
    exact ⟨t, hv, ht⟩
  obtain ⟨sender, hsender, hs⟩ := hstring (ascii "sender") m.sender rfl
  obtain ⟨payload, hpayload, hp⟩ := hstring (ascii "payload") m.payload rfl
  obtain ⟨signature, hsignature, hg⟩ := hstring (ascii "signature") m.signature rfl
  exact ⟨sender, payload, signature, hs, hp, hg, deserialize_eq hJ hroot
    (hint (ascii "type") _ rfl) hsender hpayload (hint (ascii "timestamp") _ rfl) hsignature⟩

end ProtocolMessage

/-- A message comes back as it was exactly when its three strings are valid UTF-8, signatures, which
are raw bytes, included. -/
theorem wire_round_trip_iff (J : JsonCpp) (hJ : J.Exact) (m : ProtocolMessage)
    (hread : J.ReadsBack m.members) :
    ProtocolMessage.deserialize J (m.serialize J) = .ok m ↔
      ValidUtf8 m.sender ∧ ValidUtf8 m.payload ∧ ValidUtf8 m.signature := by
  obtain ⟨sender, payload, signature, hs, hp, hg, heq⟩ :=
    ProtocolMessage.exists_deserialize_serialize hJ hread
  rw [heq, Except.ok.injEq, ← hs.eq_iff, ← hp.eq_iff, ← hg.eq_iff]
  constructor
  · intro h
    exact ⟨congrArg ProtocolMessage.sender h, congrArg ProtocolMessage.payload h,
      congrArg ProtocolMessage.signature h⟩
  · rintro ⟨rfl, rfl, rfl⟩
    rfl

section
open Sample

/-- JsonCpp on one document: `text` is what the writer makes of it, `members` what the reader finds
there. -/
def Sample.jsonCpp (text : String) (members : List (Bytes × Json)) : JsonCpp where
  write _ := ascii text
  parse data := if data = ascii text then some (.object members) else none
  member root name :=
    match root with
    | .object members => .ok ((members.lookup name).getD .null)
    | .null => .ok .null
    | _ => .error "in Json::Value::resolveReference(key, end): requires objectValue"
  asInt value :=
    match value with
    | .int n => if n = (Int32.ofInt n).toInt then .ok (Int32.ofInt n)
      else .error "LargestInt out of Int range"
    | _ => .error "Value is not convertible to Int."
  asUInt64 value :=
    match value with
    | .int n => if n = (UInt64.ofNat n.toNat).toNat then .ok (UInt64.ofNat n.toNat)
      else .error "LargestInt out of UInt64 range"
    | _ => .error "Value is not convertible to UInt64."
  asString value :=
    match value with
    | .string s => .ok s
    | _ => .error "Type is not convertible to string"

theorem Sample.exact_jsonCpp (text : String) (members : List (Bytes × Json)) :
    (jsonCpp text members).Exact where
  member _ _ := rfl
  asInt n := by simp [jsonCpp]
  asUInt64 n := by simp only [jsonCpp, Int.toNat_natCast, UInt64.ofNat_toNat, ↓reduceIte]
  asString _ := rfl

theorem Sample.readsBack_jsonCpp (text : String) {members members' : List (Bytes × Json)}
    (h : List.Forall₂ (fun a b => a.1 = b.1 ∧ a.2.Reread b.2) members members') :
    (jsonCpp text members').ReadsBack members := by
  refine ⟨members', if_pos rfl, fun name value hname => ?_⟩
  clear text
  induction h with
  | nil => cases hname
  | @cons a b members members' hab _ ih =>
    obtain ⟨a₁, a₂⟩ := a
    obtain ⟨b₁, b₂⟩ := b
    obtain ⟨rfl, hab⟩ := hab
    rw [List.lookup_cons] at hname ⊢
    cases hk : name == a₁ with
    | true =>
      rw [hk] at hname
      cases hname
      exact ⟨b₂, rfl, hab⟩
    | false =>
      rw [hk] at hname
      exact ih hname

theorem Sample.readsBack_message (text : String) (m : ProtocolMessage) {signature : Bytes}
    (hs : ValidUtf8 m.sender) (hp : ValidUtf8 m.payload) (hg : Rewritten m.signature signature) :
    (jsonCpp text { m with signature := signature }.members).ReadsBack m.members :=
  readsBack_jsonCpp text (.cons ⟨rfl, .int _⟩ (.cons ⟨rfl, .string ⟨fun _ => rfl, hs⟩⟩
    (.cons ⟨rfl, .string ⟨fun _ => rfl, hp⟩⟩ (.cons ⟨rfl, .int _⟩ (.cons ⟨rfl, .string hg⟩ .nil)))))

/-- What the writer makes of `Sample.message "pay 1" 1700000000` with this text as its signature. -/
def Sample.wireText (signature : String) : String :=
  "\x7b\"payload\":\"pay 1\",\"sender\":\"alice\",\"signature\":\"" ++ signature ++
    "\",\"timestamp\":1700000000,\"type\":3\x7d\n"

/-- A signature of one byte, 255, comes back as the three bytes of U+FFFD. -/
theorem signature_replaced :
    ¬ ∀ (J : JsonCpp) (m : ProtocolMessage), J.Exact → J.ReadsBack m.members →
      (∃ t : MessageType, m.type = t.toInt32) →
      ProtocolMessage.deserialize J (m.serialize J) = .ok m := by
  intro h
  let m : ProtocolMessage := { message "pay 1" 1700000000 with signature := [0xFF] }
  have hm := h (jsonCpp (wireText "\\ufffd") { m with signature := [0xEF, 0xBF, 0xBD] }.members) m
    (exact_jsonCpp _ _) (readsBack_message _ m (by decide +kernel) (by decide +kernel)
      ⟨fun hv => absurd hv (by decide +kernel), by decide +kernel⟩) ⟨.transactionBroadcast, rfl⟩
  revert hm
  decide +kernel

theorem wire_round_trip_iff_message :
    let m : ProtocolMessage := { message "pay 1" 1700000000 with signature := ascii "sig" }
    let J := jsonCpp (wireText "sig") m.members
    ProtocolMessage.deserialize J (m.serialize J) = .ok m := by
  intro m J
  exact (wire_round_trip_iff J (exact_jsonCpp _ _) m (readsBack_message _ m (by decide +kernel)
    (by decide +kernel) ⟨fun _ => rfl, by decide +kernel⟩)).2
    ⟨by decide +kernel, by decide +kernel, by decide +kernel⟩

end
end BlockchainMessaging
