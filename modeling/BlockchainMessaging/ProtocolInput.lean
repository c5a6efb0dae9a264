import BlockchainMessaging.ProtocolWire

/-!
# What `deserialize` accepts

`deserialize` leaves all checks to JsonCpp: a member that is missing or null reads as zero or as the
empty string, a number can stand for a string, and the type is cast to the enumeration whatever its
value is. `Json.Readable` says of which roots a message is made, `Json.Lenient` where one of these
liberties is taken.
-/

namespace BlockchainMessaging

namespace Json

/-- What `root[name]` reads of an object or of null. -/
def get : Json → Bytes → Json
  | object members, name => (members.lookup name).getD null
  | _, _ => null

/-- The values `asInt` converts. -/
inductive ReadsInt : Json → Prop
  | null : ReadsInt null
  | int (n : Int32) : ReadsInt (int n.toInt)

/-- The values `asUInt64` converts. -/
inductive ReadsUInt64 : Json → Prop
  | null : ReadsUInt64 null
  | int (n : UInt64) : ReadsUInt64 (int n.toNat)

/-- The values `asString` converts. -/
inductive ReadsString : Json → Prop
  | null : ReadsString null
  | int (n : ℤ) : ReadsString (int n)
  | real (x : ℚ) : ReadsString (real x)
  | string (s : Bytes) : ReadsString (string s)

/-- The root is an object or null, and its five members can be converted. -/
structure Readable (root : Json) : Prop where
  object : root = null ∨ ∃ members, root = object members
  type : (root.get (ascii "type")).ReadsInt
  sender : (root.get (ascii "sender")).ReadsString
  payload : (root.get (ascii "payload")).ReadsString
  timestamp : (root.get (ascii "timestamp")).ReadsUInt64
  signature : (root.get (ascii "signature")).ReadsString

/-- A member is missing or null. -/
def Lacks (root : Json) : Prop :=
  ∃ name ∈ [ascii "type", ascii "sender", ascii "payload", ascii "timestamp", ascii "signature"],
    root.get name = null

/-- A number stands where a string should. -/
def Misuses (root : Json) : Prop :=
  ∃ name ∈ [ascii "sender", ascii "payload", ascii "signature"],
    (∃ n, root.get name = int n) ∨ ∃ x, root.get name = real x

/-- The type is none of the enumerators. -/
def Strays (root : Json) : Prop :=
  ∃ n : Int32, root.get (ascii "type") = int n.toInt ∧ ¬ ∃ t : MessageType, n = t.toInt32

def Lenient (root : Json) : Prop :=
  root.Lacks ∨ root.Misuses ∨ root.Strays

end Json

section
variable {v : Json}

theorem Json.ReadsInt.exists_int (h : v.ReadsInt) (hne : v ≠ Json.null) :
    ∃ n : Int32, v = Json.int n.toInt := by
  cases h with
  | null => exact absurd rfl hne
  | int n => exact ⟨n, rfl⟩

theorem Json.ReadsUInt64.exists_int (h : v.ReadsUInt64) (hne : v ≠ Json.null) :
    ∃ n : UInt64, v = Json.int n.toNat := by
  cases h with
  | null => exact absurd rfl hne
  | int n => exact ⟨n, rfl⟩

theorem Json.ReadsString.exists_string (h : v.ReadsString) (hne : v ≠ Json.null)
    (hnum : ¬ ((∃ n, v = Json.int n) ∨ ∃ x, v = Json.real x)) : ∃ s, v = Json.string s := by
  cases h with
  | null => exact absurd rfl hne
  | int n => exact absurd (.inl ⟨n, rfl⟩) hnum
  | real x => exact absurd (.inr ⟨x, rfl⟩) hnum
  | string s => exact ⟨s, rfl⟩

end

/-- The conversions of `JsonCpp.Exact`, and how JsonCpp converts the rest: null to zero and to the
empty string, a number to its decimal text, nothing else. -/
structure JsonCpp.Converts (J : JsonCpp) : Prop extends J.Exact where
  member_null : ∀ name, J.member .null name = .ok .null
  member_error : ∀ root : Json, root ≠ .null → (∀ members, root ≠ .object members) →
    ∀ name, ∃ err, J.member root name = .error err
  asInt_null : J.asInt .null = .ok 0
  asInt_error : ∀ v : Json, ¬ v.ReadsInt → ∃ err, J.asInt v = .error err
  asUInt64_null : J.asUInt64 .null = .ok 0
  asUInt64_error : ∀ v : Json, ¬ v.ReadsUInt64 → ∃ err, J.asUInt64 v = .error err
  asString_null : J.asString .null = .ok []
  asString_int : ∀ n, J.asString (.int n) = .ok (decimalInt n)
  asString_real : ∀ x, ∃ text, J.asString (.real x) = .ok text
  asString_error : ∀ v : Json, ¬ v.ReadsString → ∃ err, J.asString v = .error err

/-- A conversion that succeeds on the values in `R` and throws on the others. -/
theorem exists_ok_iff {α : Type*} {f : Json → Except String α} {R : Json → Prop}
    (hok : ∀ v, R v → ∃ a, f v = .ok a) (herror : ∀ v, ¬ R v → ∃ err, f v = .error err) {v : Json} :
    (∃ a, f v = .ok a) ↔ R v := by
  refine ⟨?_, hok v⟩
  rintro ⟨a, ha⟩
  by_contra hv
  obtain ⟨err, herr⟩ := herror v hv
  rw [herr] at ha
  cases ha

namespace JsonCpp.Converts
variable {J : JsonCpp}

theorem member_eq_ok_iff (hJ : J.Converts) {root v : Json} {name : Bytes} :
    J.member root name = .ok v ↔
      (root = .null ∨ ∃ members, root = .object members) ∧ v = root.get name := by
  by_cases hnull : root = .null
  · subst hnull
    rw [hJ.member_null]
    simp [Json.get, eq_comm]
  · by_cases hobj : ∃ members, root = .object members
    · obtain ⟨members, rfl⟩ := hobj
      rw [hJ.member]
      simp [Json.get, eq_comm]
    · obtain ⟨err, herr⟩ := hJ.member_error root hnull (not_exists.1 hobj) name
      rw [herr]
      simp [hnull, hobj]

theorem exists_asInt_iff (hJ : J.Converts) {v : Json} :
    (∃ n, J.asInt v = .ok n) ↔ v.ReadsInt := by
  refine exists_ok_iff (fun v hv => ?_) hJ.asInt_error
  cases hv with
  | null => exact ⟨0, hJ.asInt_null⟩
  | int n => exact ⟨n, hJ.asInt n⟩

theorem exists_asUInt64_iff (hJ : J.Converts) {v : Json} :
    (∃ n, J.asUInt64 v = .ok n) ↔ v.ReadsUInt64 := by
  refine exists_ok_iff (fun v hv => ?_) hJ.asUInt64_error
  cases hv with
  | null => exact ⟨0, hJ.asUInt64_null⟩
  | int n => exact ⟨n, hJ.asUInt64 n⟩

theorem exists_asString_iff (hJ : J.Converts) {v : Json} :
    (∃ s, J.asString v = .ok s) ↔ v.ReadsString := by
  refine exists_ok_iff (fun v hv => ?_) hJ.asString_error
  cases hv with
  | null => exact ⟨[], hJ.asString_null⟩
  | int n => exact ⟨_, hJ.asString_int n⟩
  | real x => exact hJ.asString_real x
  | string s => exact ⟨s, hJ.asString s⟩

end JsonCpp.Converts

theorem bind_eq_ok_iff {α β : Type} {x : Except String α} {f : α → Except String β} {b : β} :
    (x >>= f) = .ok b ↔ ∃ a, x = .ok a ∧ f a = .ok b := by
  cases x with
  | error err => simp [bind, Except.bind]
  | ok a => simp [bind, Except.bind]

namespace ProtocolMessage
variable {J : JsonCpp} {data : Bytes} {root : Json} {m : ProtocolMessage}

/-- The message is converted member by member. -/
theorem deserialize_eq_ok_iff (hJ : J.Converts) (hroot : J.parse data = some root) :
    deserialize J data = .ok m ↔
      (root = .null ∨ ∃ members, root = .object members) ∧
        J.asInt (root.get (ascii "type")) = .ok m.type ∧
        J.asString (root.get (ascii "sender")) = .ok m.sender ∧
        J.asString (root.get (ascii "payload")) = .ok m.payload ∧
        J.asUInt64 (root.get (ascii "timestamp")) = .ok m.timestamp ∧
        J.asString (root.get (ascii "signature")) = .ok m.signature := by
  rw [deserialize, hroot]
  simp only [bind_eq_ok_iff, hJ.member_eq_ok_iff]
  constructor
  · rintro ⟨_, ⟨hobj, rfl⟩, type, htype, _, ⟨-, rfl⟩, sender, hsender, _, ⟨-, rfl⟩, payload, hpayload,
      _, ⟨-, rfl⟩, timestamp, htimestamp, _, ⟨-, rfl⟩, signature, hsignature, hm⟩
    cases hm
    exact ⟨hobj, htype, hsender, hpayload, htimestamp, hsignature⟩
  · rintro ⟨hobj, htype, hsender, hpayload, htimestamp, hsignature⟩
    exact ⟨_, ⟨hobj, rfl⟩, _, htype, _, ⟨hobj, rfl⟩, _, hsender, _, ⟨hobj, rfl⟩, _, hpayload, _,
      ⟨hobj, rfl⟩, _, htimestamp, _, ⟨hobj, rfl⟩, _, hsignature, rfl⟩

theorem exists_deserialize_iff (hJ : J.Converts) (hroot : J.parse data = some root) :
    (∃ m, deserialize J data = .ok m) ↔ root.Readable := by
  constructor
  · rintro ⟨m, hm⟩
    obtain ⟨hobj, htype, hsender, hpayload, htimestamp, hsignature⟩ :=
      (deserialize_eq_ok_iff hJ hroot).1 hm
    exact
      { object := hobj
        type := hJ.exists_asInt_iff.1 ⟨_, htype⟩
        sender := hJ.exists_asString_iff.1 ⟨_, hsender⟩
        payload := hJ.exists_asString_iff.1 ⟨_, hpayload⟩
        timestamp := hJ.exists_asUInt64_iff.1 ⟨_, htimestamp⟩
        signature := hJ.exists_asString_iff.1 ⟨_, hsignature⟩ }
  · intro h
    obtain ⟨type, htype⟩ := hJ.exists_asInt_iff.2 h.type
    obtain ⟨sender, hsender⟩ := hJ.exists_asString_iff.2 h.sender
    obtain ⟨payload, hpayload⟩ := hJ.exists_asString_iff.2 h.payload
    obtain ⟨timestamp, htimestamp⟩ := hJ.exists_asUInt64_iff.2 h.timestamp
    obtain ⟨signature, hsignature⟩ := hJ.exists_asString_iff.2 h.signature
    exact ⟨⟨type, sender, payload, timestamp, signature⟩, (deserialize_eq_ok_iff hJ hroot).2
      ⟨h.object, htype, hsender, hpayload, htimestamp, hsignature⟩⟩

/-- The root is an object with the five members of a message, which has their values. -/
structure Carries (root : Json) (m : ProtocolMessage) : Prop where
  object : ∃ members, root = .object members
  type : root.get (ascii "type") = .int m.type.toInt
  enumerator : ∃ t : MessageType, m.type = t.toInt32
  sender : root.get (ascii "sender") = .string m.sender
  payload : root.get (ascii "payload") = .string m.payload
  timestamp : root.get (ascii "timestamp") = .int m.timestamp.toNat
  signature : root.get (ascii "signature") = .string m.signature

theorem Carries.not_lenient (h : Carries root m) : ¬ root.Lenient := by
  rintro (⟨name, hmem, hnull⟩ | ⟨name, hmem, hnum⟩ | ⟨n, htype, hn⟩)
  · simp only [List.mem_cons, List.not_mem_nil, or_false] at hmem
    rcases hmem with rfl | rfl | rfl | rfl | rfl
    · simp [h.type] at hnull
    · simp [h.sender] at hnull
    · simp [h.payload] at hnull
    · simp [h.timestamp] at hnull
    · simp [h.signature] at hnull
  · simp only [List.mem_cons, List.not_mem_nil, or_false] at hmem
    rcases hmem with rfl | rfl | rfl
    · simp [h.sender] at hnum
    · simp [h.payload] at hnum
    · simp [h.signature] at hnum
  · rw [h.type, Json.int.injEq, Int32.toInt_inj] at htype
    exact hn (htype ▸ h.enumerator)

theorem exists_carries (h : root.Readable) (hl : ¬ root.Lenient) : ∃ m, Carries root m := by
  have hnull : ∀ name ∈ [ascii "type", ascii "sender", ascii "payload", ascii "timestamp",
      ascii "signature"], root.get name ≠ .null := fun name hname heq => hl (.inl ⟨name, hname, heq⟩)
  have hnum : ∀ name ∈ [ascii "sender", ascii "payload", ascii "signature"],
      ¬ ((∃ n, root.get name = .int n) ∨ ∃ x, root.get name = .real x) :=
    fun name hname heq => hl (.inr (.inl ⟨name, hname, heq⟩))
  obtain ⟨type, htype⟩ := h.type.exists_int (hnull _ (by simp))
  obtain ⟨sender, hsender⟩ := h.sender.exists_string (hnull _ (by simp)) (hnum _ (by simp))
  obtain ⟨payload, hpayload⟩ := h.payload.exists_string (hnull _ (by simp)) (hnum _ (by simp))
  obtain ⟨timestamp, htimestamp⟩ := h.timestamp.exists_int (hnull _ (by simp))
  obtain ⟨signature, hsignature⟩ := h.signature.exists_string (hnull _ (by simp)) (hnum _ (by simp))
  refine ⟨⟨type, sender, payload, timestamp, signature⟩, ?_, htype, ?_, hsender, hpayload,
    htimestamp, hsignature⟩
  · refine h.object.resolve_left fun hroot => ?_
    rw [hroot] at htype
    cases htype
  · by_contra hn
    exact hl (.inr (.inr ⟨type, htype, hn⟩))

theorem Carries.deserialize_eq (hJ : J.Converts) (hroot : J.parse data = some root)
    (h : Carries root m) : deserialize J data = .ok m := by
  rw [deserialize_eq_ok_iff hJ hroot, h.type, h.sender, h.payload, h.timestamp, h.signature]
  exact ⟨.inr h.object, hJ.asInt _, hJ.asString _, hJ.asString _, hJ.asUInt64 _, hJ.asString _⟩

end ProtocolMessage

/-- `deserialize` throws, or the root carries the message it returns, exactly when it is given no
text whose root can be read only because a member is missing or null, a number stands for a string,
or the type is outside the enumeration. -/
theorem deserialize_accepts_iff (J : JsonCpp) (hJ : J.Converts) (data : Bytes) :
    ((∃ err, ProtocolMessage.deserialize J data = .error err) ∨
      ∃ root m, J.parse data = some root ∧ ProtocolMessage.deserialize J data = .ok m ∧
        ProtocolMessage.Carries root m) ↔
      ∀ root, J.parse data = some root → root.Readable → ¬ root.Lenient := by
  cases hparse : J.parse data with
  | none =>
    refine ⟨fun _ root hroot => absurd hroot nofun, fun _ => .inl ?_⟩
    refine ⟨"Failed to parse protocol message", ?_⟩
    rw [ProtocolMessage.deserialize, hparse]
  | some root =>
    constructor
    · rintro h root' ⟨⟩ hread
      obtain ⟨m, hm⟩ := (ProtocolMessage.exists_deserialize_iff hJ hparse).2 hread
      rcases h with ⟨err, herr⟩ | ⟨root', m', ⟨⟩, -, hcarries⟩
      · rw [herr] at hm
        cases hm
      · exact hcarries.not_lenient
    · intro h
      cases hd : ProtocolMessage.deserialize J data with
      | error err => exact .inl ⟨err, rfl⟩
      | ok m =>
        have hread := (ProtocolMessage.exists_deserialize_iff hJ hparse).1 ⟨m, hd⟩
        obtain ⟨m', hcarries⟩ := ProtocolMessage.exists_carries hread (h root rfl hread)
        obtain rfl : m = m' := by
          have hm' := hcarries.deserialize_eq hJ hparse
          rw [hd] at hm'
          exact Except.ok.inj hm'
        exact .inr ⟨root, m, rfl, rfl, hcarries⟩

section
open Sample

/-- `Sample.jsonCpp` with the conversions of null and of numbers to strings. -/
def Sample.convertingJsonCpp (text : String) (members : List (Bytes × Json)) : JsonCpp :=
  { jsonCpp text members with
    asInt := fun v =>
      match v with
      | .null => .ok 0
      | v => (jsonCpp text members).asInt v
    asUInt64 := fun v =>
      match v with
      | .null => .ok 0
      | v => (jsonCpp text members).asUInt64 v
    asString := fun v =>
      match v with
      | .null => .ok []
      | .int n => .ok (decimalInt n)
      | .real x => .ok (decimalInt x.floor)
      | v => (jsonCpp text members).asString v }

theorem Sample.parse_convertingJsonCpp (text : String) (members : List (Bytes × Json)) :
    (convertingJsonCpp text members).parse (ascii text) = some (.object members) :=
  if_pos rfl

theorem Sample.converts_jsonCpp (text : String) (members : List (Bytes × Json)) :
    (convertingJsonCpp text members).Converts where
  member _ _ := rfl
  asInt := (exact_jsonCpp text members).asInt
  asUInt64 := (exact_jsonCpp text members).asUInt64
  asString _ := rfl
  member_null _ := rfl
  member_error root hnull hobj name := by
    cases root with
    | null => exact absurd rfl hnull
    | object members => exact absurd rfl (hobj members)
    | bool | int | real | string | array => exact ⟨_, rfl⟩
  asInt_null := rfl
  asInt_error v hv := by
    cases v with
    | null => exact absurd .null hv
    | int n =>
      refine ⟨_, if_neg fun hn => hv ?_⟩
      rw [hn]
      exact .int _
    | bool | real | string | array | object => exact ⟨_, rfl⟩
  asUInt64_null := rfl
  asUInt64_error v hv := by
    cases v with
    | null => exact absurd .null hv
    | int n =>
      refine ⟨_, if_neg fun hn => hv ?_⟩
      rw [hn]
      exact .int _
    | bool | real | string | array | object => exact ⟨_, rfl⟩
  asString_null := rfl
  asString_int _ := rfl
  asString_real _ := ⟨_, rfl⟩
  asString_error v hv := by
    cases v with
    | null => exact absurd .null hv
    | int n => exact absurd (.int n) hv
    | real x => exact absurd (.real x) hv
    | string s => exact absurd (.string s) hv
    | bool | array | object => exact ⟨_, rfl⟩

/-- The empty object is a handshake without sender, payload, timestamp and signature. -/
theorem empty_object_accepted :
    ¬ ∀ (J : JsonCpp), J.Converts → ∀ data,
      (∃ err, ProtocolMessage.deserialize J data = .error err) ∨
        ∃ root m, J.parse data = some root ∧ ProtocolMessage.deserialize J data = .ok m ∧
          ProtocolMessage.Carries root m := by
  intro h
  have hok : ProtocolMessage.deserialize (convertingJsonCpp "\x7b\x7d" []) (ascii "\x7b\x7d") =
      .ok ⟨MessageType.handshake.toInt32, [], [], 0, []⟩ := rfl
  rcases h _ (converts_jsonCpp "\x7b\x7d" []) (ascii "\x7b\x7d") with
    ⟨err, herr⟩ | ⟨root, m, hroot, -, hcarries⟩
  · rw [hok] at herr
    cases herr
  · obtain rfl : Json.object [] = root := Option.some.inj hroot
    exact absurd hcarries.type nofun

theorem deserialize_accepts_iff_message :
    let m := message "pay 1" 1700000000
    let J := convertingJsonCpp (wireText "") m.members
    (∃ err, ProtocolMessage.deserialize J (ascii (wireText "")) = .error err) ∨
      ∃ root m, J.parse (ascii (wireText "")) = some root ∧
        ProtocolMessage.deserialize J (ascii (wireText "")) = .ok m ∧
        ProtocolMessage.Carries root m := by
  intro m J
  have hparse : J.parse (ascii (wireText "")) = some (.object m.members) :=
    parse_convertingJsonCpp (wireText "") m.members
  refine (deserialize_accepts_iff J (converts_jsonCpp _ _) _).2 fun root hroot _ => ?_
  obtain rfl : Json.object m.members = root := Option.some.inj (hparse.symm.trans hroot)
  exact ProtocolMessage.Carries.not_lenient (m := m)
    ⟨⟨_, rfl⟩, rfl, ⟨.transactionBroadcast, rfl⟩, rfl, rfl, rfl, rfl⟩

end
end BlockchainMessaging
