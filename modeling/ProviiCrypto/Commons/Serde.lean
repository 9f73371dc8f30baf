import ProviiCrypto.Coding.Hex
import ProviiCrypto.Commons.Freshness

/-!
# Attestations as records of text

An attestation is stored and sent with its nonce and its signature as hexadecimal text
(`hex_bytes_32`, `hex_bytes_64`), and its nonce is also the key of a replay table (`nonce_hex`).
Texts are the bytes of their strings.

* `DobAttestation.deserialize_eq_ok`: what is read is what is written for some attestation, up to the
  case of the two texts.
* `DobAttestation.deserialize_eq_error`: what is not read, and the error of the text that is at fault.
* `attestation_record`: so an attestation survives the record, letters of the other case change
  nothing but the character that an error names, and the key of the replay table does not depend on
  them.
-/

namespace ProviiCrypto

open Number Coding

/-! ## Two texts -/

/-- Why a text is not `n` bytes: the error of `hex::decode`, passed on to `serde` as its text, or the
one made of the length. -/
inductive HexBytesError where
  | fromHex (e : FromHexError)
  | custom (message : String)
  deriving DecidableEq, Repr

/-- `serialize`, the same for both lengths. -/
def hexBytesSerialize {n : ℕ} (bytes : Bytes n) : List UInt8 := hex bytes.1

/-- `deserialize` for `n` bytes. -/
def hexBytesDeserialize (n : ℕ) (message : String) (text : List UInt8) :
    Except HexBytesError (Bytes n) :=
  match decodeHex text with
  | .error e => .error (.fromHex e)
  | .ok bytes => if h : bytes.length = n then .ok ⟨bytes, h⟩ else .error (.custom message)

/-- `hex_bytes_32::serialize`. -/
def hexBytes32Serialize (bytes : Bytes 32) : List UInt8 := hexBytesSerialize bytes

/-- `hex_bytes_32::deserialize`. -/
def hexBytes32Deserialize : List UInt8 → Except HexBytesError (Bytes 32) :=
  hexBytesDeserialize 32 "expected 32 bytes"

/-- `hex_bytes_64::serialize`. -/
def hexBytes64Serialize (bytes : Bytes 64) : List UInt8 := hexBytesSerialize bytes

/-- `hex_bytes_64::deserialize`. -/
def hexBytes64Deserialize : List UInt8 → Except HexBytesError (Bytes 64) :=
  hexBytesDeserialize 64 "expected 64 bytes"

/-- The error of a text that is not `n` bytes: that of the first character that is no digit, or of
the odd length, or the message when the text is of other bytes. -/
def HexBytesError.Of (n : ℕ) (message : String) (text : List UInt8) : HexBytesError → Prop
  | .fromHex e => e.Of text
  | .custom m => m = message ∧ ∃ bytes, lowerCase text = hex bytes ∧ bytes.length ≠ n

/-- The error with the character it names in lower case. -/
def HexBytesError.lower : HexBytesError → HexBytesError
  | .fromHex e => .fromHex e.lower
  | .custom message => .custom message

section

variable {n : ℕ} {message : String} {text text' : List UInt8} {bytes : Bytes n}

theorem hexBytesDeserialize_eq_ok :
    hexBytesDeserialize n message text = .ok bytes ↔ lowerCase text = hexBytesSerialize bytes := by
  unfold hexBytesDeserialize hexBytesSerialize
  rw [← decodeHex_eq_ok]
  cases decodeHex text with
  | error e => simp
  | ok read =>
    dsimp only
    split
    · rw [Except.ok.injEq, Except.ok.injEq, Subtype.ext_iff]
    · rename_i hlen
      refine iff_of_false nofun fun h => hlen ?_
      rw [Except.ok.inj h, bytes.2]

theorem hexBytesDeserialize_eq_error {e : HexBytesError} :
    hexBytesDeserialize n message text = .error e ↔ e.Of n message text := by
  unfold hexBytesDeserialize
  cases e with
  | fromHex e =>
    rw [HexBytesError.Of, ← decodeHex_eq_error]
    cases decodeHex text with
    | error e' => simp
    | ok read =>
      dsimp only
      split <;> simp
  | custom m =>
    simp only [HexBytesError.Of, ← decodeHex_eq_ok]
    cases decodeHex text with
    | error e' => simp
    | ok read =>
      dsimp only
      by_cases hlen : read.length = n
      · simp [hlen]
      · simp [hlen, eq_comm (a := message)]

/-- A text is read as its lower-case form is, and refused with the same error but for the case of the
character in it. -/
theorem hexBytesDeserialize_lowerCase :
    (hexBytesDeserialize n message (lowerCase text)).mapError HexBytesError.lower =
      (hexBytesDeserialize n message text).mapError HexBytesError.lower := by
  have hfactor : ∀ t, (hexBytesDeserialize n message t).mapError HexBytesError.lower =
      match (decodeHex t).mapError FromHexError.lower with
      | .error e => .error (.fromHex e)
      | .ok bytes => if h : bytes.length = n then .ok ⟨bytes, h⟩ else .error (.custom message) := by
    intro t
    unfold hexBytesDeserialize
    cases decodeHex t with
    | error e => rfl
    | ok read =>
      by_cases hlen : read.length = n
      · simp [Except.mapError, hlen]
      · simp [Except.mapError, hlen, HexBytesError.lower]
  rw [hfactor, hfactor, decodeHex_lowerCase]

theorem hexBytesDeserialize_congr (h : lowerCase text = lowerCase text') :
    (hexBytesDeserialize n message text).mapError HexBytesError.lower =
      (hexBytesDeserialize n message text').mapError HexBytesError.lower := by
  rw [← hexBytesDeserialize_lowerCase, h, hexBytesDeserialize_lowerCase]

end

/-! ## The record -/

/-- The fields that serialisation writes and deserialisation reads, the two byte strings as text. -/
structure AttestationRecord where
  dobDays : Int32
  issuerId : List UInt8
  timestamp : UInt64
  nonce : List UInt8
  sessionId : Option (List UInt8)
  clientId : Option (List UInt8)
  signature : List UInt8
  deriving DecidableEq

/-- The record with both texts in lower case. -/
def AttestationRecord.lower (r : AttestationRecord) : AttestationRecord :=
  { r with nonce := lowerCase r.nonce, signature := lowerCase r.signature }

namespace DobAttestation

/-- `Serialize for DobAttestation`. -/
def serialize (a : DobAttestation) : AttestationRecord where
  dobDays := a.dobDays
  issuerId := a.issuerId
  timestamp := a.timestamp
  nonce := hexBytes32Serialize a.nonce
  sessionId := a.sessionId
  clientId := a.clientId
  signature := hexBytes64Serialize a.signature

/-- `Deserialize for DobAttestation`, of a record in the order that serialisation writes. -/
def deserialize (r : AttestationRecord) : Except HexBytesError DobAttestation := do
  let nonce ← hexBytes32Deserialize r.nonce
  let signature ← hexBytes64Deserialize r.signature
  return { dobDays := r.dobDays, issuerId := r.issuerId, timestamp := r.timestamp, nonce,
           sessionId := r.sessionId, clientId := r.clientId, signature }

/-- `DobAttestation::nonce_hex`. -/
def nonceHex (a : DobAttestation) : List UInt8 := hex a.nonce.1

/-- **What is read.** -/
theorem deserialize_eq_ok {r : AttestationRecord} {a : DobAttestation} :
    deserialize r = .ok a ↔ r.lower = a.serialize := by
  have hnonce : hexBytes32Deserialize r.nonce = .ok a.nonce ↔
      lowerCase r.nonce = hexBytes32Serialize a.nonce := hexBytesDeserialize_eq_ok
  have hsignature : hexBytes64Deserialize r.signature = .ok a.signature ↔
      lowerCase r.signature = hexBytes64Serialize a.signature := hexBytesDeserialize_eq_ok
  obtain ⟨⟨dobDays, issuerId, timestamp, nonce, sessionId, clientId⟩, signature⟩ := a
  rw [AttestationRecord.lower, serialize, AttestationRecord.mk.injEq, ← hnonce, ← hsignature]
  unfold deserialize
  cases hexBytes32Deserialize r.nonce with
  | error e => simp [bind, Except.bind]
  | ok nonce' =>
    cases hexBytes64Deserialize r.signature with
    | error e => simp [bind, Except.bind]
    | ok signature' => simp [bind, Except.bind, pure, Except.pure, and_assoc]

/-- **What is not read**: the first text at fault, and its error. -/
theorem deserialize_eq_error {r : AttestationRecord} {e : HexBytesError} :
    deserialize r = .error e ↔ e.Of 32 "expected 32 bytes" r.nonce ∨
      (∃ nonce, lowerCase r.nonce = hexBytes32Serialize nonce) ∧
        e.Of 64 "expected 64 bytes" r.signature := by
  have hnonce : hexBytes32Deserialize r.nonce = .error e ↔ e.Of 32 "expected 32 bytes" r.nonce :=
    hexBytesDeserialize_eq_error
  have hsignature : hexBytes64Deserialize r.signature = .error e ↔
      e.Of 64 "expected 64 bytes" r.signature := hexBytesDeserialize_eq_error
  have hread : ∀ nonce, hexBytes32Deserialize r.nonce = .ok nonce ↔
      lowerCase r.nonce = hexBytes32Serialize nonce := fun _ => hexBytesDeserialize_eq_ok
  simp only [← hnonce, ← hsignature, ← hread]
  unfold deserialize
  cases hexBytes32Deserialize r.nonce with
  | error e' => simp [bind, Except.bind]
  | ok nonce =>
    cases hexBytes64Deserialize r.signature with
    | error e' => simp [bind, Except.bind]
    | ok signature => simp [bind, Except.bind, pure, Except.pure]

/-- Records with one lower-case form are read alike, but for the character that an error names. -/
theorem deserialize_congr {r r' : AttestationRecord} (h : r.lower = r'.lower) :
    (deserialize r).mapError HexBytesError.lower = (deserialize r').mapError HexBytesError.lower := by
  rw [AttestationRecord.lower, AttestationRecord.lower, AttestationRecord.mk.injEq] at h
  obtain ⟨h₁, h₂, h₃, hnonce, h₄, h₅, hsig⟩ := h
  unfold deserialize hexBytes32Deserialize hexBytes64Deserialize
  simp only [mapError_bind, hexBytesDeserialize_congr hnonce, hexBytesDeserialize_congr hsig, h₁, h₂,
    h₃, h₄, h₅]

/-- **An attestation and its record**: an attestation is read back from its record; a record is read as
an attestation exactly when its lower-case form is the attestation's own; it is refused with an error
exactly when that is the nonce's, or the nonce is read and it is the signature's, and the error tells
the odd length, the first character that is no digit and its position, or the other length; records
with one lower-case form are read alike, but for the case of the character that an error names; and the
replay keys of two attestations that were read are one exactly when the nonces are, which is when the
texts are up to case. -/
theorem attestation_record :
    (∀ a, deserialize a.serialize = .ok a) ∧
    (∀ r a, deserialize r = .ok a ↔ r.lower = a.serialize) ∧
    (∀ r e, deserialize r = .error e ↔ e.Of 32 "expected 32 bytes" r.nonce ∨
      (∃ nonce, lowerCase r.nonce = hexBytes32Serialize nonce) ∧
        e.Of 64 "expected 64 bytes" r.signature) ∧
    (∀ r r', r.lower = r'.lower →
      (deserialize r).mapError HexBytesError.lower = (deserialize r').mapError HexBytesError.lower) ∧
    (∀ r a, deserialize r = .ok a → a.nonceHex = lowerCase r.nonce) ∧
    ∀ r r' a a', deserialize r = .ok a → deserialize r' = .ok a' →
      (a.nonceHex = a'.nonceHex ↔ a.nonce = a'.nonce) ∧
      (a.nonce = a'.nonce ↔ lowerCase r.nonce = lowerCase r'.nonce) := by
  have hkey : ∀ r a, deserialize r = .ok a → a.nonceHex = lowerCase r.nonce := by
    intro r a h
    exact (congrArg AttestationRecord.nonce (deserialize_eq_ok.mp h)).symm
  have hinj : ∀ a a' : DobAttestation, a.nonceHex = a'.nonceHex ↔ a.nonce = a'.nonce := by
    intro a a'
    rw [nonceHex, nonceHex, hex_injective.eq_iff, Subtype.ext_iff]
  refine ⟨?_, fun r a => deserialize_eq_ok, fun r e => deserialize_eq_error,
    fun r r' => deserialize_congr, hkey, ?_⟩
  · intro a
    refine deserialize_eq_ok.mpr ?_
    simp only [serialize, AttestationRecord.lower, hexBytes32Serialize, hexBytes64Serialize,
      hexBytesSerialize, lowerCase_hex]
  · intro r r' a a' h h'
    refine ⟨hinj a a', ?_⟩
    rw [← hinj, hkey r a h, hkey r' a' h']

private def abNonce : Bytes 32 := ⟨List.replicate 32 0xAB, List.length_replicate⟩

private def abAttestation : DobAttestation :=
  { boundTo none none with nonce := abNonce, signature := ⟨List.replicate 64 0, List.length_replicate⟩ }

/-- The nonce in upper case. -/
private def upperRecord : AttestationRecord :=
  { abAttestation.serialize with nonce := (List.replicate 32 [65, 66]).flatten }

theorem attestation_record_upperCase : upperRecord ≠ abAttestation.serialize ∧
    deserialize upperRecord = .ok abAttestation ∧
    abAttestation.nonceHex = lowerCase upperRecord.nonce := by
  obtain ⟨-, hread, -, -, hkey, -⟩ := attestation_record
  have hlower : deserialize upperRecord = .ok abAttestation :=
    (hread _ _).mpr (by decide +kernel)
  exact ⟨by decide +kernel, hlower, hkey _ _ hlower⟩

end DobAttestation

end ProviiCrypto
