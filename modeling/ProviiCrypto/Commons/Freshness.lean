import ProviiCrypto.Commons.Attestation
import ProviiCrypto.Reference.Blake2s

/-!
# The life cycle of an attestation

An issuer signs the canonical bytes; the service checks the signature and that the attestation is
recent, with saturating arithmetic on 64-bit seconds.

* `verifyWithTimestamp_eq`: the saturating comparisons are comparisons of integers.
* `attestation_life_cycle`: what is created verifies, and is fresh exactly from a minute before its
  timestamp to an hour after it.
-/

namespace ProviiCrypto

open Number

/-- `ATTESTATION_CLOCK_SKEW_TOLERANCE_SECONDS`. -/
def attestationClockSkewToleranceSeconds : UInt64 := 60

/-- `ATTESTATION_MAX_AGE_SECONDS`. -/
def attestationMaxAgeSeconds : UInt64 := 3600

/-- The `ed25519-dalek` crate, as far as attestations use it. -/
structure Ed25519 where
  SigningKey : Type
  VerifyingKey : Type
  /-- `SigningKey::verifying_key`. -/
  verifyingKey : SigningKey → VerifyingKey
  /-- `SigningKey::sign`, then `Signature::to_bytes`. -/
  sign : SigningKey → List UInt8 → Bytes 64
  /-- `Signature::from_bytes`, then `VerifyingKey::verify_strict`. -/
  verifyStrict : VerifyingKey → List UInt8 → Bytes 64 → Bool

/-- A key whose signatures are accepted. -/
def Ed25519.Valid (E : Ed25519) (signingKey : E.SigningKey) : Prop :=
  ∀ message, E.verifyStrict (E.verifyingKey signingKey) message (E.sign signingKey message) = true

/-- `DobAttestation`. -/
structure DobAttestation extends AttestationFields where
  signature : Bytes 64
  deriving DecidableEq

variable (E : Ed25519) (H : Blake2s)

/-- `DobAttestation::create`. -/
def DobAttestation.create (dobDays : Int32) (issuerId : List UInt8) (timestamp : UInt64)
    (nonce : Bytes 32) (signingKey : E.SigningKey) : Except Error DobAttestation := do
  let message ← computeMessageBytes H dobDays issuerId timestamp nonce none none
  let signature := E.sign signingKey message.1
  return { dobDays, issuerId, timestamp, nonce, sessionId := none, clientId := none, signature }

/-- `DobAttestation::create_bound`. -/
def DobAttestation.createBound (dobDays : Int32) (issuerId : List UInt8) (timestamp : UInt64)
    (nonce : Bytes 32) (sessionId clientId : List UInt8) (signingKey : E.SigningKey) :
    Except Error DobAttestation := do
  let message ← computeMessageBytes H dobDays issuerId timestamp nonce (some sessionId)
    (some clientId)
  let signature := E.sign signingKey message.1
  return { dobDays, issuerId, timestamp, nonce, sessionId := some sessionId,
           clientId := some clientId, signature }

/-- `DobAttestation::create_with_rng`. -/
def DobAttestation.createWithRng (dobDays : Int32) (issuerId : List UInt8) (currentTime : UInt64)
    (rng : RngStream) (signingKey : E.SigningKey) : Except Error DobAttestation :=
  create E H dobDays issuerId currentTime (fillBytes rng 32) signingKey

/-- `DobAttestation::verify`. -/
def DobAttestation.verify (a : DobAttestation) (verifyingKey : E.VerifyingKey) :
    Except Error Unit := do
  let message ← computeMessageBytes H a.dobDays a.issuerId a.timestamp a.nonce a.sessionId
    a.clientId
  if E.verifyStrict verifyingKey message.1 a.signature then return ()
  else throw .invalidSignature

/-- `u64::saturating_add`. -/
def saturatingAdd (x y : UInt64) : UInt64 := UInt64.ofNat (min (x.toNat + y.toNat) (2 ^ 64 - 1))

/-- `u64::saturating_sub`. -/
def saturatingSub (x y : UInt64) : UInt64 := UInt64.ofNat (x.toNat - y.toNat)

/-- `DobAttestation::verify_with_timestamp`. -/
def DobAttestation.verifyWithTimestamp (a : DobAttestation) (verifyingKey : E.VerifyingKey)
    (currentTime : UInt64) : Except Error Unit :=
  if a.timestamp > saturatingAdd currentTime attestationClockSkewToleranceSeconds then
    .error .invalidInput
  else if saturatingSub currentTime a.timestamp > attestationMaxAgeSeconds then .error .expired
  else a.verify E H verifyingKey

/-! ## Saturating arithmetic -/

@[simp] theorem toNat_saturatingAdd (x y : UInt64) :
    (saturatingAdd x y).toNat = min (x.toNat + y.toNat) (2 ^ 64 - 1) :=
  UInt64.toNat_ofNat_of_lt' (lt_of_le_of_lt (min_le_right _ _) (by decide))

@[simp] theorem toNat_saturatingSub (x y : UInt64) :
    (saturatingSub x y).toNat = x.toNat - y.toNat :=
  UInt64.toNat_ofNat_of_lt' (lt_of_le_of_lt (Nat.sub_le _ _) x.toNat_lt)

/-- A sum that saturates is beyond every timestamp. -/
theorem lt_saturatingAdd_iff (x y t : UInt64) :
    saturatingAdd x y < t ↔ x.toNat + y.toNat < t.toNat := by
  have ht := t.toNat_lt
  rw [UInt64.lt_iff_toNat_lt, toNat_saturatingAdd]
  omega

/-- A difference that saturates is below every age. -/
theorem lt_saturatingSub_iff (x y t : UInt64) :
    t < saturatingSub x y ↔ t.toNat + y.toNat < x.toNat := by
  rw [UInt64.lt_iff_toNat_lt, toNat_saturatingSub]
  omega

/-! ## Creation and verification -/

variable {E H}

theorem DobAttestation.create_eq_ok {dobDays : Int32} {issuerId : List UInt8} {timestamp : UInt64}
    {nonce : Bytes 32} {signingKey : E.SigningKey} {a : DobAttestation} :
    create E H dobDays issuerId timestamp nonce signingKey = .ok a ↔
      ∃ message, computeMessageBytes H dobDays issuerId timestamp nonce none none = .ok message ∧
        a = { dobDays, issuerId, timestamp, nonce, sessionId := none, clientId := none,
              signature := E.sign signingKey message.1 } := by
  unfold create
  cases computeMessageBytes H dobDays issuerId timestamp nonce none none with
  | ok message => simp [bind, Except.bind, pure, Except.pure, eq_comm]
  | error e => simp [bind, Except.bind]

theorem DobAttestation.createBound_eq_ok {dobDays : Int32} {issuerId : List UInt8}
    {timestamp : UInt64} {nonce : Bytes 32} {sessionId clientId : List UInt8}
    {signingKey : E.SigningKey} {a : DobAttestation} :
    createBound E H dobDays issuerId timestamp nonce sessionId clientId signingKey = .ok a ↔
      ∃ message, computeMessageBytes H dobDays issuerId timestamp nonce (some sessionId)
          (some clientId) = .ok message ∧
        a = { dobDays, issuerId, timestamp, nonce, sessionId := some sessionId,
              clientId := some clientId, signature := E.sign signingKey message.1 } := by
  unfold createBound
  cases computeMessageBytes H dobDays issuerId timestamp nonce (some sessionId) (some clientId) with
  | ok message => simp [bind, Except.bind, pure, Except.pure, eq_comm]
  | error e => simp [bind, Except.bind]

/-- The attestation carries its issuer's signature on its own canonical bytes. -/
def DobAttestation.SignedBy (E : Ed25519) (H : Blake2s) (signingKey : E.SigningKey)
    (a : DobAttestation) : Prop :=
  ∃ message, computeMessageBytes H a.dobDays a.issuerId a.timestamp a.nonce a.sessionId
    a.clientId = .ok message ∧ a.signature = E.sign signingKey message.1

/-- The attestation comes from one of the two constructors. -/
def DobAttestation.Created (E : Ed25519) (H : Blake2s) (signingKey : E.SigningKey)
    (a : DobAttestation) : Prop :=
  (∃ dobDays issuerId timestamp nonce,
    create E H dobDays issuerId timestamp nonce signingKey = .ok a) ∨
  ∃ dobDays issuerId timestamp nonce sessionId clientId,
    createBound E H dobDays issuerId timestamp nonce sessionId clientId signingKey = .ok a

/-- Both constructors sign the bytes that verification rebuilds from the attestation. -/
theorem DobAttestation.Created.signedBy {signingKey : E.SigningKey} {a : DobAttestation}
    (h : Created E H signingKey a) : SignedBy E H signingKey a := by
  rcases h with ⟨_, _, _, _, h⟩ | ⟨_, _, _, _, _, _, h⟩
  · obtain ⟨message, hmessage, rfl⟩ := create_eq_ok.mp h
    exact ⟨message, hmessage, rfl⟩
  · obtain ⟨message, hmessage, rfl⟩ := createBound_eq_ok.mp h
    exact ⟨message, hmessage, rfl⟩

theorem DobAttestation.createWithRng_created {dobDays : Int32} {issuerId : List UInt8}
    {currentTime : UInt64} {rng : RngStream} {signingKey : E.SigningKey} {a : DobAttestation}
    (h : createWithRng E H dobDays issuerId currentTime rng signingKey = .ok a) :
    Created E H signingKey a :=
  .inl ⟨dobDays, issuerId, currentTime, fillBytes rng 32, h⟩

theorem DobAttestation.verify_eq_ok {a : DobAttestation} {verifyingKey : E.VerifyingKey} :
    a.verify E H verifyingKey = .ok () ↔
      ∃ message, computeMessageBytes H a.dobDays a.issuerId a.timestamp a.nonce a.sessionId
        a.clientId = .ok message ∧ E.verifyStrict verifyingKey message.1 a.signature = true := by
  unfold verify
  cases computeMessageBytes H a.dobDays a.issuerId a.timestamp a.nonce a.sessionId a.clientId with
  | error e => simp [bind, Except.bind]
  | ok message =>
    cases hverify : E.verifyStrict verifyingKey message.1 a.signature <;>
      simp [bind, Except.bind, pure, Except.pure, throw, throwThe, MonadExceptOf.throw, hverify]

theorem DobAttestation.SignedBy.verify {signingKey : E.SigningKey} {a : DobAttestation}
    (h : SignedBy E H signingKey a) (hvalid : E.Valid signingKey) :
    a.verify E H (E.verifyingKey signingKey) = .ok () := by
  obtain ⟨message, hmessage, hsignature⟩ := h
  refine verify_eq_ok.mpr ⟨message, hmessage, ?_⟩
  rw [hsignature]
  exact hvalid message.1

/-- Verification fails on the canonical bytes or on the signature. -/
theorem DobAttestation.verify_error {a : DobAttestation} {verifyingKey : E.VerifyingKey} {e : Error}
    (h : a.verify E H verifyingKey = .error e) : e = .fieldTooLong ∨ e = .invalidSignature := by
  unfold DobAttestation.verify at h
  cases hmessage : computeMessageBytes H a.dobDays a.issuerId a.timestamp a.nonce a.sessionId
    a.clientId with
  | error e' =>
    obtain ⟨-, rfl⟩ := computeMessageBytes_eq_error.mp hmessage
    rw [hmessage] at h
    exact .inl (Except.error.inj h).symm
  | ok message =>
    rw [hmessage] at h
    cases hverify : E.verifyStrict verifyingKey message.1 a.signature <;>
      simp only [bind, Except.bind, hverify] at h <;> cases h
    exact .inr rfl

/-! ## Freshness -/

/-- **The saturating comparisons are comparisons of integers.** -/
theorem DobAttestation.verifyWithTimestamp_eq (a : DobAttestation) (verifyingKey : E.VerifyingKey)
    (now : UInt64) : a.verifyWithTimestamp E H verifyingKey now =
      if now.toNat + 60 < a.timestamp.toNat then .error .invalidInput
      else if a.timestamp.toNat + 3600 < now.toNat then .error .expired
      else a.verify E H verifyingKey := by
  unfold verifyWithTimestamp
  have hskew : attestationClockSkewToleranceSeconds.toNat = 60 := rfl
  have hage : attestationMaxAgeSeconds.toNat = 3600 := rfl
  simp only [gt_iff_lt, lt_saturatingAdd_iff, lt_saturatingSub_iff, hskew, hage,
    Nat.add_comm 3600]

theorem DobAttestation.verifyWithTimestamp_eq_ok {a : DobAttestation}
    {verifyingKey : E.VerifyingKey} {now : UInt64} :
    a.verifyWithTimestamp E H verifyingKey now = .ok () ↔
      ((now.toNat : ℤ) - 3600 ≤ a.timestamp.toNat ∧ (a.timestamp.toNat : ℤ) ≤ now.toNat + 60) ∧
        a.verify E H verifyingKey = .ok () := by
  rw [verifyWithTimestamp_eq]
  split_ifs with hfuture hold
  · simp only [false_iff]
    omega
  · simp only [false_iff]
    omega
  · exact ⟨fun h => ⟨by omega, h⟩, fun h => h.2⟩

theorem DobAttestation.verifyWithTimestamp_eq_invalidInput {a : DobAttestation}
    {verifyingKey : E.VerifyingKey} {now : UInt64} :
    a.verifyWithTimestamp E H verifyingKey now = .error .invalidInput ↔
      (now.toNat : ℤ) + 60 < a.timestamp.toNat := by
  rw [verifyWithTimestamp_eq]
  split_ifs with hfuture hold
  · simp only [true_iff]
    omega
  · simp only [Except.error.injEq, reduceCtorEq, false_iff]
    omega
  · refine iff_of_false (fun h => ?_) (by omega)
    rcases verify_error h with h | h <;> cases h

theorem DobAttestation.verifyWithTimestamp_eq_expired {a : DobAttestation}
    {verifyingKey : E.VerifyingKey} {now : UInt64} :
    a.verifyWithTimestamp E H verifyingKey now = .error .expired ↔
      (a.timestamp.toNat : ℤ) < now.toNat - 3600 := by
  rw [verifyWithTimestamp_eq]
  split_ifs with hfuture hold
  · simp only [Except.error.injEq, reduceCtorEq, false_iff]
    omega
  · simp only [true_iff]
    omega
  · refine iff_of_false (fun h => ?_) (by omega)
    rcases verify_error h with h | h <;> cases h

/-- **The life cycle of an attestation**: what either constructor returns verifies under the
matching key; it is fresh at a time exactly when its timestamp is at most an hour before and at
most a minute after it, and otherwise refused with the error of the side it is on; and no
attestation passes the timed check without passing the plain one. -/
theorem attestation_life_cycle (E : Ed25519) (H : Blake2s) :
    (∀ signingKey, E.Valid signingKey → ∀ a, DobAttestation.Created E H signingKey a →
      a.verify E H (E.verifyingKey signingKey) = .ok () ∧
      ∀ now : UInt64,
        (a.verifyWithTimestamp E H (E.verifyingKey signingKey) now = .ok () ↔
          (now.toNat : ℤ) - 3600 ≤ a.timestamp.toNat ∧
            (a.timestamp.toNat : ℤ) ≤ now.toNat + 60) ∧
        (a.verifyWithTimestamp E H (E.verifyingKey signingKey) now = .error .invalidInput ↔
          (now.toNat : ℤ) + 60 < a.timestamp.toNat) ∧
        (a.verifyWithTimestamp E H (E.verifyingKey signingKey) now = .error .expired ↔
          (a.timestamp.toNat : ℤ) < now.toNat - 3600)) ∧
    ∀ (a : DobAttestation) verifyingKey now,
      a.verifyWithTimestamp E H verifyingKey now = .ok () → a.verify E H verifyingKey = .ok () := by
  constructor
  · intro signingKey hvalid a hcreated
    have hverify := hcreated.signedBy.verify hvalid
    refine ⟨hverify, fun now => ⟨?_, ?_, ?_⟩⟩
    · rw [DobAttestation.verifyWithTimestamp_eq_ok]
      exact and_iff_left hverify
    · exact DobAttestation.verifyWithTimestamp_eq_invalidInput
    · exact DobAttestation.verifyWithTimestamp_eq_expired
  · intro a verifyingKey now h
    exact (DobAttestation.verifyWithTimestamp_eq_ok.mp h).2

/-- A transparent signature scheme: a signature is its key and the message, padded. -/
def transparentEd25519 : Ed25519 where
  SigningKey := Bytes 32
  VerifyingKey := Bytes 32
  verifyingKey := id
  sign signingKey message := ⟨(signingKey.1 ++ message ++ List.replicate 64 0).take 64, by
    simp; omega⟩
  verifyStrict verifyingKey message signature :=
    signature.1 == (verifyingKey.1 ++ message ++ List.replicate 64 0).take 64

theorem transparentEd25519_valid (signingKey : Bytes 32) :
    transparentEd25519.Valid signingKey := fun _ => beq_self_eq_true _

/-- An attestation from the last second of the clock, and one from the first: neither is refused
an hour before or after. -/
theorem attestation_life_cycle_ends :
    let E := transparentEd25519
    let H : Blake2s := Reference.blake2s
    ∃ a b : DobAttestation, a.timestamp = UInt64.ofNat (2 ^ 64 - 1) ∧ b.timestamp = 0 ∧
      a.verifyWithTimestamp E H (boundTo none none).nonce (UInt64.ofNat (2 ^ 64 - 61)) = .ok () ∧
      b.verifyWithTimestamp E H (boundTo none none).nonce 3600 = .ok () := by
  intro E H
  have hcreate : ∀ timestamp, ∃ a : DobAttestation, a.timestamp = timestamp ∧
      DobAttestation.Created E H (boundTo none none).nonce a := fun timestamp =>
    ⟨_, rfl, .inl ⟨0, [], timestamp, (boundTo none none).nonce, rfl⟩⟩
  obtain ⟨a, htimestamp, ha⟩ := hcreate (UInt64.ofNat (2 ^ 64 - 1))
  obtain ⟨b, htimestamp', hb⟩ := hcreate 0
  have hlife := (attestation_life_cycle E H).1 _ (transparentEd25519_valid (boundTo none none).nonce)
  refine ⟨a, b, htimestamp, htimestamp', ?_, ?_⟩
  · refine (((hlife a ha).2 _).1).mpr ?_
    rw [htimestamp]
    decide
  · refine (((hlife b hb).2 _).1).mpr ?_
    rw [htimestamp']
    decide

end ProviiCrypto
