import ProviiCrypto.Coding.Base64
import ProviiCrypto.Coding.Basic
import ProviiCrypto.Commons.Basic

/-!
# `provii-crypto-protocol`

What the protocol hashes with SHA-256, for an arbitrary function in its place; strings are their
UTF-8 bytes.

* `issuanceConsentBytes_injective`: the transcript of a wallet's consent determines the consent.
-/

namespace ProviiCrypto.Protocol

open Number Coding

/-- `CHALLENGE_DST`. -/
def challengeDst : List UInt8 := ascii "provii.challenge.v0"

/-- `ISSUANCE_CONSENT_DST`. -/
def issuanceConsentDst : List UInt8 := ascii "provii:issuance-consent:v0"

/-- `u32::MAX`. -/
def u32Max : ℕ := 2 ^ 32 - 1

section

variable (sha256 : List UInt8 → Bytes 32)

/-! ## Hashes of strings -/

/-- `code_challenge_s256`. -/
def codeChallengeS256 (codeVerifier : List UInt8) : List Char := base64Url (sha256 codeVerifier).1

/-- What `rp_challenge` hashes. -/
def rpChallengeBytes (origin nonce : List UInt8) : List UInt8 := origin ++ nonce ++ challengeDst

/-- `rp_challenge`. -/
def rpChallenge (origin nonce : List UInt8) : Bytes 32 := sha256 (rpChallengeBytes origin nonce)

/-- `compute_origin_hash`. -/
def computeOriginHash (origin : List UInt8) : Bytes 32 := sha256 origin

/-- `compute_replay_tag`. -/
def computeReplayTag (originHash nonce : List UInt8) : List Char :=
  base64Url (originHash ++ ascii ":" ++ nonce)

/-! ## The issuance consent -/

/-- `write_length_prefixed`: what has been written to the hasher afterwards. -/
def writeLengthPrefixed (h data : List UInt8) : Except Error (List UInt8) :=
  if data.length > u32Max then .error .invalidInput
  else .ok (h ++ leBytes 4 data.length ++ data)

/-- The arguments of `build_issuance_consent_message`. -/
structure IssuanceConsent where
  sessionId : List UInt8
  issuerId : List UInt8
  issuerKid : List UInt8
  walletPubkey : Bytes 32
  consentTime : Int64
  termsVersion : UInt32
  nonce : Option (Bytes 16)
  deriving DecidableEq

/-- What `build_issuance_consent_message` hashes. -/
def issuanceConsentBytes (c : IssuanceConsent) : Except Error (List UInt8) := do
  let h := issuanceConsentDst
  let h ← writeLengthPrefixed h c.sessionId
  let h ← writeLengthPrefixed h c.issuerId
  let h ← writeLengthPrefixed h c.issuerKid
  let h := h ++ c.walletPubkey.1
  let h := h ++ leBytes 8 c.consentTime.toUInt64.toNat
  let h := h ++ leBytes 4 c.termsVersion.toNat
  match c.nonce with
  | some n => return h ++ [0x01] ++ n.1
  | none => return h ++ [0x00]

/-- `build_issuance_consent_message`. -/
def buildIssuanceConsentMessage (c : IssuanceConsent) : Except Error (Bytes 32) := do
  let h ← issuanceConsentBytes c
  return sha256 h

/-! ### Its transcript -/

/-- The consents that have a transcript. -/
def IssuanceConsent.FieldsFit (c : IssuanceConsent) : Prop :=
  c.sessionId.length ≤ u32Max ∧ c.issuerId.length ≤ u32Max ∧ c.issuerKid.length ≤ u32Max

/-- The transcript, field by field. -/
def IssuanceConsent.transcript (c : IssuanceConsent) : List UInt8 :=
  issuanceConsentDst ++ (prefixed 4 c.sessionId ++ (prefixed 4 c.issuerId ++
    (prefixed 4 c.issuerKid ++ (c.walletPubkey.1 ++ (leBytes 8 c.consentTime.toUInt64.toNat ++
      (leBytes 4 c.termsVersion.toNat ++ flagged 0x00 0x01 Subtype.val c.nonce))))))

theorem writeLengthPrefixed_of_le {data : List UInt8} (hlen : data.length ≤ u32Max)
    (h : List UInt8) : writeLengthPrefixed h data = .ok (h ++ prefixed 4 data) := by
  unfold writeLengthPrefixed prefixed
  rw [if_neg (not_lt.mpr hlen), List.append_assoc]

theorem writeLengthPrefixed_of_lt {data : List UInt8} (hlen : u32Max < data.length)
    (h : List UInt8) : writeLengthPrefixed h data = .error .invalidInput :=
  if_pos hlen

/-- A consent with a transcript hashes it. -/
theorem issuanceConsentBytes_of_fit {c : IssuanceConsent} (hfit : c.FieldsFit) :
    issuanceConsentBytes c = .ok c.transcript := by
  obtain ⟨hsession, hissuer, hkid⟩ := hfit
  unfold issuanceConsentBytes IssuanceConsent.transcript
  simp only [writeLengthPrefixed_of_le hsession, writeLengthPrefixed_of_le hissuer,
    writeLengthPrefixed_of_le hkid, bind, Except.bind, pure, Except.pure]
  cases c.nonce <;> simp [flagged]

/-- Any other is refused. -/
theorem issuanceConsentBytes_of_not_fit {c : IssuanceConsent} (hfit : ¬ c.FieldsFit) :
    issuanceConsentBytes c = .error .invalidInput := by
  unfold issuanceConsentBytes
  simp only [bind, Except.bind]
  by_cases hsession : c.sessionId.length ≤ u32Max
  · rw [writeLengthPrefixed_of_le hsession]
    by_cases hissuer : c.issuerId.length ≤ u32Max
    · have hkid : u32Max < c.issuerKid.length :=
        not_le.mp fun hkid => hfit ⟨hsession, hissuer, hkid⟩
      simp only [writeLengthPrefixed_of_le hissuer, writeLengthPrefixed_of_lt hkid]
    · simp only [writeLengthPrefixed_of_lt (not_le.mp hissuer)]
  · simp only [writeLengthPrefixed_of_lt (not_le.mp hsession)]

theorem issuanceConsentBytes_eq_ok {c : IssuanceConsent} {out : List UInt8} :
    issuanceConsentBytes c = .ok out ↔ c.FieldsFit ∧ out = c.transcript := by
  by_cases hfit : c.FieldsFit
  · simp [issuanceConsentBytes_of_fit hfit, hfit, eq_comm]
  · simp [issuanceConsentBytes_of_not_fit hfit, hfit]

/-- **The transcript is self-delimiting.** -/
theorem IssuanceConsent.selfDelimiting_transcript :
    SelfDelimiting {c : IssuanceConsent | c.FieldsFit} IssuanceConsent.transcript := by
  have htime : SelfDelimiting Set.univ fun t : Int64 => leBytes 8 t.toUInt64.toNat :=
    (selfDelimiting_leBytes 8).comap (φ := fun t : Int64 => t.toUInt64.toNat)
      (fun t _ t' _ h => congrArg UInt64.toInt64 (UInt64.toNat_inj.mp h))
      fun t _ => t.toUInt64.toNat_lt
  have hversion : SelfDelimiting Set.univ fun v : UInt32 => leBytes 4 v.toNat :=
    (selfDelimiting_leBytes 4).comap (fun v _ v' _ h => UInt32.toNat_inj.mp h)
      fun v _ => v.toNat_lt
  have hnonce := (selfDelimiting_bytes 16).flagged (by decide : (0x00 : UInt8) ≠ 0x01)
  have hstring := selfDelimiting_prefixed 4
  have hfields := (hstring.append (hstring.append (hstring.append
    ((selfDelimiting_bytes 32).append (htime.append (hversion.append hnonce)))))).prepend
      issuanceConsentDst
  refine hfields.comap (φ := fun c : IssuanceConsent => (c.sessionId, c.issuerId, c.issuerKid,
    c.walletPubkey, c.consentTime, c.termsVersion, c.nonce)) ?_ ?_
  · rintro ⟨⟩ - ⟨⟩ - h
    simpa using h
  · rintro c ⟨hsession, hissuer, hkid⟩
    exact ⟨Nat.lt_succ_of_le hsession, Nat.lt_succ_of_le hissuer, Nat.lt_succ_of_le hkid, trivial,
      trivial, trivial, fun _ _ => trivial⟩

/-- **The consent digest binds every field**: the function refuses exactly the consents with a
string longer than a `u32` can count, hashes the transcript of any other, and no two consents have
one transcript. -/
theorem issuanceConsentBytes_injective :
    (∀ c, buildIssuanceConsentMessage sha256 c = .error .invalidInput ↔
      u32Max < c.sessionId.length ∨ u32Max < c.issuerId.length ∨ u32Max < c.issuerKid.length) ∧
    (∀ c out, issuanceConsentBytes c = .ok out →
      buildIssuanceConsentMessage sha256 c = .ok (sha256 out)) ∧
    (∀ c, c.FieldsFit → ∃ out, issuanceConsentBytes c = .ok out) ∧
    ∀ c c' out, issuanceConsentBytes c = .ok out → issuanceConsentBytes c' = .ok out → c = c' := by
  refine ⟨?_, ?_, fun c hfit => ⟨_, issuanceConsentBytes_of_fit hfit⟩, ?_⟩
  · intro c
    have hfit : ¬ c.FieldsFit ↔ u32Max < c.sessionId.length ∨ u32Max < c.issuerId.length ∨
        u32Max < c.issuerKid.length := by
      unfold IssuanceConsent.FieldsFit
      omega
    rw [← hfit]
    unfold buildIssuanceConsentMessage
    by_cases h : c.FieldsFit
    · simp [issuanceConsentBytes_of_fit h, h, bind, Except.bind, pure, Except.pure]
    · simp [issuanceConsentBytes_of_not_fit h, h, bind, Except.bind]
  · intro c out hout
    unfold buildIssuanceConsentMessage
    rw [hout]
    rfl
  · intro c c' out hout hout'
    obtain ⟨hfit, rfl⟩ := issuanceConsentBytes_eq_ok.mp hout
    obtain ⟨hfit', heq⟩ := issuanceConsentBytes_eq_ok.mp hout'
    exact IssuanceConsent.selfDelimiting_transcript.injOn hfit hfit' heq

/-- A consent whose strings are two pieces of one. -/
def splitConsent (sessionId issuerId : List UInt8) : IssuanceConsent where
  sessionId := sessionId
  issuerId := issuerId
  issuerKid := []
  walletPubkey := ⟨List.replicate 32 0, List.length_replicate⟩
  consentTime := -1
  termsVersion := 1
  nonce := none

theorem issuanceConsentBytes_injective_split :
    ∃ out out', issuanceConsentBytes (splitConsent (ascii "ab") (ascii "c")) = .ok out ∧
      issuanceConsentBytes (splitConsent (ascii "a") (ascii "bc")) = .ok out' ∧ out ≠ out' := by
  obtain ⟨-, -, hok, hinj⟩ := issuanceConsentBytes_injective
    fun _ => (⟨List.replicate 32 0, rfl⟩ : Bytes 32)
  obtain ⟨out, hout⟩ := hok (splitConsent (ascii "ab") (ascii "c"))
    ⟨by decide, by decide, by decide⟩
  obtain ⟨out', hout'⟩ := hok (splitConsent (ascii "a") (ascii "bc"))
    ⟨by decide, by decide, by decide⟩
  refine ⟨out, out', hout, hout', ?_⟩
  rintro rfl
  exact absurd (hinj _ _ _ hout hout') (by decide)

end

end ProviiCrypto.Protocol
