import BlockchainMessaging.Text

/-!
# Digests in hexadecimal (`crypto/hash.hpp`, `crypto/hash.cpp`)

`SHA256::hash` and `HashUtils::hash160` write the bytes of a digest into a `stringstream`, as numbers
in hexadecimal. The base and the fill character of a stream stay until they are set again, the width
is that of the next number only; a byte below 16 needs all three.
-/

namespace BlockchainMessaging

/-! ### The stream -/

inductive BaseField where
  | dec | hex

/-- A `std::stringstream`, as far as its manipulators and `operator<<` for numbers go. -/
structure StringStream where
  base : BaseField
  width : ℕ
  fill : UInt8
  str : Bytes

namespace StringStream

def init : StringStream :=
  { base := .dec, width := 0, fill := 32, str := [] }

def hex (ss : StringStream) : StringStream :=
  { ss with base := .hex }

def setw (n : ℕ) (ss : StringStream) : StringStream :=
  { ss with width := n }

def setfill (c : UInt8) (ss : StringStream) : StringStream :=
  { ss with fill := c }

/-- In hexadecimal an `int` is written as the `unsigned int` with its bits. -/
def intText : BaseField → Int32 → Bytes
  | .dec, n => decimalInt n.toInt
  | .hex, n => hexDigits.numeral n.toUInt32.toNat

/-- `operator<<(int)`: filled up on the left to the width, which is 0 afterwards. -/
def putInt (n : Int32) (ss : StringStream) : StringStream :=
  let text := intText ss.base n
  { ss with
    width := 0
    str := ss.str ++ List.replicate (ss.width - text.length) ss.fill ++ text }

end StringStream

/-! ### The loops -/

/-- The body of the loop; 48 is the character `0`. -/
def putByte (ss : StringStream) (byte : UInt8) : StringStream :=
  ((ss.hex.setw 2).setfill 48).putInt byte.toUInt32.toInt32

/-- What the loop over a digest leaves in its stream. -/
def hexString {n : ℕ} (digest : Vector UInt8 n) : Bytes :=
  (digest.toList.foldl putByte .init).str

/-- `SHA256_Init`, `SHA256_Update`, `SHA256_Final`, and the same of `RIPEMD160`. -/
structure OpenSSL where
  sha256 : Bytes → Vector UInt8 32
  ripemd160 : Bytes → Vector UInt8 20

namespace SHA256

def hash (O : OpenSSL) (input : Bytes) : Bytes :=
  hexString (O.sha256 input)

def doubleHash (O : OpenSSL) (input : Bytes) : Bytes :=
  hash O (hash O input)

end SHA256

def HashUtils.hash160 (O : OpenSSL) (input : Bytes) : Bytes :=
  hexString (O.ripemd160 (O.sha256 input).toList)

/-! ### What is written for one byte, and for all -/

def byteText (byte : UInt8) : Bytes :=
  hexDigits.padded 2 byte.toNat

/-- Whatever state the stream is in, since all of it that is read is set first. -/
theorem str_putByte (ss : StringStream) (byte : UInt8) :
    (putByte ss byte).str = ss.str ++ byteText byte :=
  List.append_assoc ..

theorem str_foldl_putByte (ss : StringStream) (bytes : List UInt8) :
    (bytes.foldl putByte ss).str = ss.str ++ bytes.flatMap byteText := by
  induction bytes generalizing ss with
  | nil => exact (List.append_nil _).symm
  | cons byte bytes ih =>
    rw [List.foldl_cons, ih, str_putByte, List.flatMap_cons, List.append_assoc]

theorem hexString_eq {n : ℕ} (digest : Vector UInt8 n) :
    hexString digest = digest.toList.flatMap byteText :=
  str_foldl_putByte .init digest.toList

example : hexString #v[0, 10, 255] = ascii "000aff" := by decide +kernel

theorem length_byteText (byte : UInt8) : (byteText byte).length = 2 :=
  Alphabet.length_padded Nat.two_pos byte.toNat_lt

theorem length_hexString {n : ℕ} (digest : Vector UInt8 n) : (hexString digest).length = 2 * n := by
  rw [hexString_eq, List.flatMap_def, length_flatten_map length_byteText, Vector.length_toList,
    Nat.mul_comm]

theorem isText_hexString {n : ℕ} (digest : Vector UInt8 n) :
    hexDigits.IsText (hexString digest) := by
  intro c hc
  rw [hexString_eq] at hc
  obtain ⟨byte, -, hc⟩ := List.mem_flatMap.1 hc
  exact Alphabet.isText_padded 2 byte.toNat c hc

theorem mem_of_hexDigit : ∀ d < 16, hexDigits.digit d ∈ ascii "0123456789abcdef" := by
  decide +kernel

/-! ### Reading it back -/

/-- Two characters are one byte. -/
def readPairs : Bytes → List UInt8
  | high :: low :: text => (hexDigits.read [high, low]).toUInt8 :: readPairs text
  | _ => []

theorem readPairs_append (byte : UInt8) (text : Bytes) :
    readPairs (byteText byte ++ text) = byte :: readPairs text := by
  obtain ⟨high, low, hbyte⟩ := List.length_eq_two.1 (length_byteText byte)
  have hread : hexDigits.read [high, low] = byte.toNat := by
    rw [← hbyte]
    exact Alphabet.read_padded 2 byte.toNat
  rw [hbyte, List.cons_append, List.cons_append, List.nil_append, readPairs, hread]
  exact congrArg (· :: readPairs text) UInt8.ofNat_toNat

theorem readPairs_flatMap (bytes : List UInt8) : readPairs (bytes.flatMap byteText) = bytes := by
  induction bytes with
  | nil => rfl
  | cons byte bytes ih => rw [List.flatMap_cons, readPairs_append, ih]

theorem readPairs_hexString {n : ℕ} (digest : Vector UInt8 n) :
    readPairs (hexString digest) = digest.toList := by
  rw [hexString_eq, readPairs_flatMap]

/-- The texts have one length and the digits `0` to `9` and `a` to `f`, and can be read back. -/
structure Renders {n : ℕ} (render : Vector UInt8 n → Bytes) (width : ℕ) : Prop where
  length : ∀ digest, (render digest).length = width
  digits : ∀ digest, ∀ c ∈ render digest, c ∈ ascii "0123456789abcdef"
  readPairs : ∀ digest, readPairs (render digest) = digest.toList
  injective : Function.Injective render

theorem renders_hexString (n : ℕ) : Renders (hexString (n := n)) (2 * n) where
  length := length_hexString
  digits digest c hc := by
    obtain ⟨d, hd, rfl⟩ := isText_hexString digest c hc
    exact mem_of_hexDigit d hd
  readPairs := readPairs_hexString
  injective digest digest' h := by
    rw [← Vector.toList_inj, ← readPairs_hexString, h, readPairs_hexString]

/-- The loop of `SHA256::hash` on digests of 32 bytes, and that of `hash160` on digests of 20. -/
theorem digests_render :
    Renders (hexString : Vector UInt8 32 → Bytes) 64 ∧
      Renders (hexString : Vector UInt8 20 → Bytes) 40 :=
  ⟨renders_hexString 32, renders_hexString 20⟩

/-! ### What the callers rely on -/

variable {O : OpenSSL} {a b : Bytes}

theorem isHexHash_hash (O : OpenSSL) (input : Bytes) : IsHexHash (SHA256.hash O input) :=
  ⟨length_hexString (O.sha256 input), isText_hexString (O.sha256 input)⟩

theorem isHexHash_doubleHash (O : OpenSSL) (input : Bytes) :
    IsHexHash (SHA256.doubleHash O input) :=
  isHexHash_hash O (SHA256.hash O input)

theorem SHA256.hash_eq_iff : SHA256.hash O a = SHA256.hash O b ↔ O.sha256 a = O.sha256 b :=
  (renders_hexString 32).injective.eq_iff

theorem HashUtils.hash160_eq_iff :
    HashUtils.hash160 O a = HashUtils.hash160 O b ↔
      O.ripemd160 (O.sha256 a).toList = O.ripemd160 (O.sha256 b).toList :=
  (renders_hexString 20).injective.eq_iff

end BlockchainMessaging
