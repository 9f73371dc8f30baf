import ProviiCrypto.Commons.Basic
import ProviiCrypto.Bellman.Interface
import ProviiCrypto.Jubjub.Crate

/-!
# `provii-crypto-sig-redjubjub`

Deterministic Schnorr signatures over a prime-order group `P`, for an arbitrary hash function `H`.

* `verifyHashInternal_sign`: the signer's equation always verifies.
* `Signature.fromBytes_toBytes`: a signature survives encoding exactly when neither `R` is the
  identity nor `s` is zero. The signer guards the first and not the second (`signHashInternal`).
* `verifyCredV2_subgroup_eq_ok`: what verification accepts, as an equation on the curve.
-/

namespace ProviiCrypto

open Number

/-- `RedJubjubError`. -/
inductive RedJubjubError where
  | invalidSignatureBytes
  | invalidVerificationKeyBytes
  | invalidSigningKeyBytes
  | verificationFailed
  | fieldTooLong
  | invalidNonce
  deriving DecidableEq, Repr

/-! ## The scheme -/

section Scheme

variable {P : Type} [AddCommGroup P] (H : Blake2s) (F : FrBytes) (G : SubgroupPoint P)

/-- `get_spending_key_generator`. -/
def getSpendingKeyGenerator : P := (G.fromBytes spendingKeyGenBytes).get G.generator_isSome

theorem fromBytes_getSpendingKeyGenerator :
    G.fromBytes spendingKeyGenBytes = some (getSpendingKeyGenerator G) :=
  (Option.some_get G.generator_isSome).symm

theorem getSpendingKeyGenerator_ne_zero : getSpendingKeyGenerator G ≠ 0 := fun h =>
  G.generator_ne_zero (h ▸ fromBytes_getSpendingKeyGenerator G)

variable [DecidableEq P]

/-- `SigningKey`. -/
structure SigningKey where
  scalar : Fr
  deriving DecidableEq

/-- `VerificationKey`. -/
structure VerificationKey (P : Type) where
  point : P

/-- `Signature`. -/
structure Signature (P : Type) where
  r : P
  s : Fr

/-- `SigningKey::from_bytes`. -/
def SigningKey.fromBytes (bytes : Bytes 32) : Except RedJubjubError SigningKey :=
  match F.fromBytes bytes with
  | none => .error .invalidSigningKeyBytes
  | some scalar => if scalar = 0 then .error .invalidSigningKeyBytes else .ok ⟨scalar⟩

/-- `SigningKey::to_bytes`. -/
def SigningKey.toBytes (key : SigningKey) : Bytes 32 := F.toBytes key.scalar

/-- `SigningKey::verification_key`. -/
def SigningKey.verificationKey (key : SigningKey) : VerificationKey P :=
  ⟨SubgroupPoint.mul (getSpendingKeyGenerator G) key.scalar⟩

/-- `VerificationKey::from_bytes`. -/
def VerificationKey.fromBytes (bytes : Bytes 32) : Except RedJubjubError (VerificationKey P) :=
  match G.fromBytes bytes with
  | none => .error .invalidVerificationKeyBytes
  | some point => if point = 0 then .error .invalidVerificationKeyBytes else .ok ⟨point⟩

/-- `VerificationKey::to_bytes`. -/
def VerificationKey.toBytes (key : VerificationKey P) : Bytes 32 := G.toBytes key.point

/-- `Signature::from_bytes`. -/
def Signature.fromBytes (bytes : Bytes 64) : Except RedJubjubError (Signature P) :=
  match G.fromBytes (lowHalf bytes) with
  | none => .error .invalidSignatureBytes
  | some r =>
    if r = 0 then .error .invalidSignatureBytes
    else match F.fromBytes (highHalf bytes) with
      | none => .error .invalidSignatureBytes
      | some s => if s = 0 then .error .invalidSignatureBytes else .ok ⟨r, s⟩

/-- `Signature::to_bytes`. -/
def Signature.toBytes (sig : Signature P) : Bytes 64 := joinHalves (G.toBytes sig.r) (F.toBytes sig.s)

/-- `Blake2s256`, of the concatenation of the updates. -/
def blake2s256 (message : List UInt8) : Bytes 32 := H noPersonalization message

/-- `nonce_from`. -/
def nonceFrom (skBytes : Bytes 32) (msgHash : List UInt8) : Fr :=
  F.fromBytesWide (padTo64 (blake2s256 H (redjubjubNonceTag ++ skBytes.1 ++ msgHash)))

/-- `hash_challenge`. -/
def hashChallenge (rBytes vkBytes : Bytes 32) (msgHash : List UInt8) : Fr :=
  F.fromBytesWide (padTo64 (H redjubjubPersonalization (rBytes.1 ++ vkBytes.1 ++ msgHash)))

/-- `sign_hash_internal`. -/
def signHashInternal (hash : List UInt8) (key : SigningKey) : Except RedJubjubError (Signature P) :=
  let g := getSpendingKeyGenerator G
  let nonce := nonceFrom H F (key.toBytes F) hash
  if nonce = 0 then .error .invalidNonce
  else
    let rPoint := SubgroupPoint.mul g nonce
    let vkPoint := SubgroupPoint.mul g key.scalar
    let c := hashChallenge H F (G.toBytes rPoint) (G.toBytes vkPoint) hash
    .ok ⟨rPoint, nonce + c * key.scalar⟩

/-- `verify_hash_internal`. -/
def verifyHashInternal (hash : List UInt8) (sig : Signature P) (vk : VerificationKey P) :
    Except RedJubjubError Unit :=
  let g := getSpendingKeyGenerator G
  let c := hashChallenge H F (G.toBytes sig.r) (vk.toBytes G) hash
  let lhs := SubgroupPoint.mul g sig.s
  let rhs := sig.r + SubgroupPoint.mul vk.point c
  if G.toBytes lhs = G.toBytes rhs then .ok () else .error .verificationFailed

/-- The hash of a credential's transcript, with the error of the callers. -/
def credHash (msg : CredMsgV2) : Except RedJubjubError (List UInt8) :=
  match credV2PrehashBytes msg.v msg.kid msg.c msg.iat msg.exp msg.schema with
  | .error _ => .error .fieldTooLong
  | .ok prehash => .ok (blake2s256 H prehash).1

/-- `sign_cred_v2`. -/
def signCredV2 (credMsg : CredMsgV2) (signingKey : Bytes 32) : Except RedJubjubError (Bytes 64) := do
  let key ← SigningKey.fromBytes F signingKey
  let hash ← credHash H credMsg
  let sig ← signHashInternal H F G hash key
  return sig.toBytes F G

/-- `verify_cred_v2`. -/
def verifyCredV2 (credMsg : CredMsgV2) (signature : Bytes 64) (verificationKey : Bytes 32) :
    Except RedJubjubError Unit := do
  let vk ← VerificationKey.fromBytes G verificationKey
  let sig ← Signature.fromBytes F G signature
  let hash ← credHash H credMsg
  verifyHashInternal H F G hash sig vk

/-- The hash that binds a credential to a relying party. -/
def boundHash (credMsg : CredMsgV2) (rp : Bytes 32) : Except RedJubjubError (List UInt8) := do
  let hash ← credHash H credMsg
  return (blake2s256 H (hash ++ rp.1)).1

/-- `sign_cred_v2_with_rp`. -/
def signCredV2WithRp (credMsg : CredMsgV2) (rp signingKey : Bytes 32) :
    Except RedJubjubError (Bytes 64) := do
  let key ← SigningKey.fromBytes F signingKey
  let finalHash ← boundHash H credMsg rp
  let sig ← signHashInternal H F G finalHash key
  return sig.toBytes F G

/-- `verify_cred_v2_with_rp`. -/
def verifyCredV2WithRp (credMsg : CredMsgV2) (rp : Bytes 32) (signature : Bytes 64)
    (verificationKey : Bytes 32) : Except RedJubjubError Unit := do
  let vk ← VerificationKey.fromBytes G verificationKey
  let sig ← Signature.fromBytes F G signature
  let finalHash ← boundHash H credMsg rp
  verifyHashInternal H F G finalHash sig vk

/-! ## Decoding -/

theorem SigningKey.fromBytes_eq_ok {bytes : Bytes 32} {key : SigningKey} :
    SigningKey.fromBytes F bytes = .ok key ↔ F.fromBytes bytes = some key.scalar ∧ key.scalar ≠ 0 := by
  unfold SigningKey.fromBytes
  cases F.fromBytes bytes with
  | none => simp
  | some scalar =>
    by_cases h : scalar = 0
    · simp only [if_pos h, Option.some.injEq, reduceCtorEq, false_iff, not_and, not_not]
      exact fun hk => hk ▸ h
    · simp only [if_neg h, Except.ok.injEq, Option.some.injEq]
      constructor
      · rintro rfl
        exact ⟨rfl, h⟩
      · exact fun hk => congrArg SigningKey.mk hk.1

theorem VerificationKey.fromBytes_eq_ok {bytes : Bytes 32} {key : VerificationKey P} :
    VerificationKey.fromBytes G bytes = .ok key ↔ G.toBytes key.point = bytes ∧ key.point ≠ 0 := by
  unfold VerificationKey.fromBytes
  rw [← G.fromBytes_eq_some]
  cases G.fromBytes bytes with
  | none => simp
  | some point =>
    by_cases h : point = 0
    · simp only [if_pos h, Option.some.injEq, reduceCtorEq, false_iff, not_and, not_not]
      exact fun hk => hk ▸ h
    · simp only [if_neg h, Except.ok.injEq, Option.some.injEq]
      constructor
      · rintro rfl
        exact ⟨rfl, h⟩
      · exact fun hk => congrArg VerificationKey.mk hk.1

/-- **What a signature decodes from**: two halves, both canonical and neither zero. -/
theorem Signature.fromBytes_eq_ok {bytes : Bytes 64} {sig : Signature P} :
    Signature.fromBytes F G bytes = .ok sig ↔
      G.toBytes sig.r = (lowHalf bytes) ∧ sig.r ≠ 0 ∧ leNat (highHalf bytes).1 = sig.s.val ∧ sig.s ≠ 0 := by
  unfold Signature.fromBytes
  rw [← G.fromBytes_eq_some, ← F.fromBytes_eq_some]
  cases G.fromBytes (lowHalf bytes) with
  | none => simp
  | some r =>
    by_cases hr : r = 0
    · simp only [if_pos hr, Option.some.injEq, reduceCtorEq, false_iff]
      rintro ⟨rfl, h, -⟩
      exact h hr
    simp only [if_neg hr]
    cases F.fromBytes (highHalf bytes) with
    | none => simp
    | some s =>
      by_cases hs : s = 0
      · simp only [if_pos hs, Option.some.injEq, reduceCtorEq, false_iff]
        rintro ⟨-, -, rfl, h⟩
        exact h hs
      · simp only [if_neg hs, Except.ok.injEq, Option.some.injEq]
        constructor
        · rintro rfl
          exact ⟨rfl, hr, rfl, hs⟩
        · rintro ⟨rfl, -, rfl, -⟩
          rfl

/-- **A signature survives encoding** exactly when the decoder's extra checks hold of it. -/
theorem Signature.fromBytes_toBytes (sig : Signature P) :
    Signature.fromBytes F G (sig.toBytes F G) =
      if sig.r = 0 ∨ sig.s = 0 then .error .invalidSignatureBytes else .ok sig := by
  unfold Signature.fromBytes Signature.toBytes
  rw [lowHalf_joinHalves, highHalf_joinHalves, G.fromBytes_toBytes, F.fromBytes_toBytes]
  by_cases hr : sig.r = 0 <;> by_cases hs : sig.s = 0 <;> simp [hr, hs]

/-- What verification accepts. -/
theorem verifyHashInternal_eq_ok {hash : List UInt8} {sig : Signature P} {vk : VerificationKey P} :
    verifyHashInternal H F G hash sig vk = .ok () ↔
      SubgroupPoint.mul (getSpendingKeyGenerator G) sig.s = sig.r +
        SubgroupPoint.mul vk.point (hashChallenge H F (G.toBytes sig.r) (vk.toBytes G) hash) := by
  unfold verifyHashInternal
  simp only [G.toBytes_injective.eq_iff]
  split <;> simp_all

/-- What both signers do with the hash of their message. -/
def signHashed (hash : Except RedJubjubError (List UInt8)) (signingKey : Bytes 32) :
    Except RedJubjubError (Bytes 64) := do
  let key ← SigningKey.fromBytes F signingKey
  let hash ← hash
  let sig ← signHashInternal H F G hash key
  return sig.toBytes F G

/-- What both verifiers do with it. -/
def verifyHashed (hash : Except RedJubjubError (List UInt8)) (signature : Bytes 64)
    (verificationKey : Bytes 32) : Except RedJubjubError Unit := do
  let vk ← VerificationKey.fromBytes G verificationKey
  let sig ← Signature.fromBytes F G signature
  let hash ← hash
  verifyHashInternal H F G hash sig vk

omit [DecidableEq P] in
/-- What the signers return, in stages. -/
theorem signHashed_eq_ok {hash : Except RedJubjubError (List UInt8)} {sk : Bytes 32}
    {sig : Bytes 64} : signHashed H F G hash sk = .ok sig ↔ ∃ key h s,
      SigningKey.fromBytes F sk = .ok key ∧ hash = .ok h ∧
      signHashInternal H F G h key = .ok s ∧ sig = s.toBytes F G := by
  unfold signHashed
  cases SigningKey.fromBytes F sk with
  | error e => simp [bind, Except.bind]
  | ok key =>
    cases hash with
    | error e => simp [bind, Except.bind]
    | ok hash =>
      cases hs : signHashInternal H F G hash key with
      | error e => simp [bind, Except.bind, hs]
      | ok s => simp [bind, Except.bind, pure, Except.pure, hs, eq_comm]

/-- What verification accepts, in stages. -/
theorem verifyHashed_eq_ok {hash : Except RedJubjubError (List UInt8)} {signature : Bytes 64}
    {verificationKey : Bytes 32} :
    verifyHashed H F G hash signature verificationKey = .ok () ↔ ∃ vk sig h,
      VerificationKey.fromBytes G verificationKey = .ok vk ∧
      Signature.fromBytes F G signature = .ok sig ∧ hash = .ok h ∧
      verifyHashInternal H F G h sig vk = .ok () := by
  unfold verifyHashed
  cases VerificationKey.fromBytes G verificationKey with
  | error e => simp [bind, Except.bind]
  | ok vk =>
    cases Signature.fromBytes F G signature with
    | error e => simp [bind, Except.bind]
    | ok sig =>
      cases hash with
      | error e => simp [bind, Except.bind]
      | ok hash => simp [bind, Except.bind]

theorem verifyCredV2_eq_ok {msg : CredMsgV2} {signature : Bytes 64} {verificationKey : Bytes 32} :
    verifyCredV2 H F G msg signature verificationKey = .ok () ↔ ∃ vk sig hash,
      VerificationKey.fromBytes G verificationKey = .ok vk ∧
      Signature.fromBytes F G signature = .ok sig ∧ credHash H msg = .ok hash ∧
      verifyHashInternal H F G hash sig vk = .ok () :=
  verifyHashed_eq_ok H F G

/-! ## Signing -/

/-- The scalar `s` of a signature by the key on a hash would be zero: the nonce is the opposite of
the challenge times the key. -/
def NonceCancels (hash : List UInt8) (key : SigningKey) : Prop :=
  let g := getSpendingKeyGenerator G
  let nonce := nonceFrom H F (key.toBytes F) hash
  nonce = -(hashChallenge H F (G.toBytes (SubgroupPoint.mul g nonce))
    (G.toBytes (SubgroupPoint.mul g key.scalar)) hash * key.scalar)

/-- The signer's result satisfies the verification equation, and its `R` is not the identity. -/
theorem verifyHashInternal_sign {hash : List UInt8} {key : SigningKey} {sig : Signature P}
    (h : signHashInternal H F G hash key = .ok sig) :
    verifyHashInternal H F G hash sig (key.verificationKey G) = .ok () ∧ sig.r ≠ 0 ∧
      (sig.s = 0 ↔ NonceCancels H F G hash key) := by
  unfold signHashInternal at h
  simp only at h
  split at h
  · cases h
  · rename_i hnonce
    cases h
    refine ⟨?_, ?_, ?_⟩
    · rw [verifyHashInternal_eq_ok, G.mul_add, G.mul_mul]
      rfl
    · exact fun hr => hnonce
        ((G.mul_eq_zero_iff (getSpendingKeyGenerator_ne_zero G) _).mp hr)
    · exact add_eq_zero_iff_eq_neg

/-- What the signer emits decodes and verifies unless its `s` is zero. -/
theorem verify_signed {hash : List UInt8} {key : SigningKey} (hkey : key.scalar ≠ 0)
    {sig : Signature P} (h : signHashInternal H F G hash key = .ok sig) :
    verifyHashed H F G (.ok hash) (sig.toBytes F G) ((key.verificationKey G).toBytes G) = .ok () ↔
      ¬ NonceCancels H F G hash key := by
  obtain ⟨hver, hr, hs⟩ := verifyHashInternal_sign H F G h
  have hvk : VerificationKey.fromBytes G ((key.verificationKey G).toBytes G) =
      .ok (key.verificationKey G) := by
    refine (VerificationKey.fromBytes_eq_ok G).mpr ⟨rfl, fun h0 => hkey ?_⟩
    exact (G.mul_eq_zero_iff (getSpendingKeyGenerator_ne_zero G) _).mp h0
  rw [verifyHashed, hvk, Signature.fromBytes_toBytes, ← hs]
  by_cases h0 : sig.s = 0
  · rw [if_pos (.inr h0)]
    simp [h0, bind, Except.bind]
  · rw [if_neg (not_or.mpr ⟨hr, h0⟩)]
    simp only [bind, Except.bind, hver, h0, not_false_eq_true]

/-- What is signed with a hash verifies with it unless the nonce cancels. -/
theorem verifyHashed_signHashed (hash : Except RedJubjubError (List UInt8)) {sk : Bytes 32}
    {key : SigningKey} (hkey : SigningKey.fromBytes F sk = .ok key) {sig : Bytes 64}
    (hsig : signHashed H F G hash sk = .ok sig) :
    verifyHashed H F G hash sig ((key.verificationKey G).toBytes G) = .ok () ↔
      ∀ h, hash = .ok h → ¬ NonceCancels H F G h key := by
  obtain ⟨key', h, s, hkey', rfl, hs, rfl⟩ := (signHashed_eq_ok H F G).mp hsig
  obtain rfl := Except.ok.inj (hkey.symm.trans hkey')
  have h0 := ((SigningKey.fromBytes_eq_ok F).mp hkey).2
  refine (verify_signed H F G h0 hs).trans ⟨?_, fun hall => hall h rfl⟩
  rintro hcancels _ ⟨⟩
  exact hcancels

/-- **Signatures verify unless the nonce cancels**: what the signer emits for a credential, plain
or bound to a relying party, is accepted under the signer's key exactly when the nonce is not the
opposite of the challenge times the key. -/
theorem signed_verifies_iff (msg : CredMsgV2) (rp sk : Bytes 32) {key : SigningKey}
    (hkey : SigningKey.fromBytes F sk = .ok key) :
    (∀ sig, signCredV2 H F G msg sk = .ok sig →
      (verifyCredV2 H F G msg sig ((key.verificationKey G).toBytes G) = .ok () ↔
        ∀ hash, credHash H msg = .ok hash → ¬ NonceCancels H F G hash key)) ∧
    ∀ sig, signCredV2WithRp H F G msg rp sk = .ok sig →
      (verifyCredV2WithRp H F G msg rp sig ((key.verificationKey G).toBytes G) = .ok () ↔
        ∀ hash, boundHash H msg rp = .ok hash → ¬ NonceCancels H F G hash key) :=
  -- both pairs sign and verify one hash of the message
  ⟨fun _ hsig => verifyHashed_signHashed H F G (credHash H msg) hkey hsig,
    fun _ hsig => verifyHashed_signHashed H F G (boundHash H msg rp) hkey hsig⟩

end Scheme

/-! ## On the curve -/

section Curve

variable {H : Blake2s} {J : Jubjub}

/-- The spending key generator is the point its bytes encode. -/
theorem getSpendingKeyGenerator_subgroup :
    getSpendingKeyGenerator J.subgroup = ⟨spendingKeyGenerator, primeOrder_spendingKeyGenerator⟩ := by
  refine Option.some.inj ((fromBytes_getSpendingKeyGenerator J.subgroup).symm.trans ?_)
  exact (J.subgroup.fromBytes_eq_some _ _).mpr toBytes_spendingKeyGenerator

/-- A wide reduction of a digest multiplies like the number the digest spells. -/
theorem mul_fromBytesWide (p : primeSubgroup) (c : Bytes 32) :
    (SubgroupPoint.mul p (J.fr.fromBytesWide (padTo64 c))).1 = leNat c.1 • p.1 := by
  rw [J.fr.fromBytesWide_eq, leNat_padTo64, J.subgroup.natCast_mul]
  rfl

/-- **The verification equation**, on the curve: the scalars are numbers and nothing is reduced. -/
theorem verifyHashInternal_subgroup_eq_ok {hash : List UInt8} {sig : Signature primeSubgroup}
    {vk : VerificationKey primeSubgroup} :
    verifyHashInternal H J.fr J.subgroup hash sig vk = .ok () ↔
      sig.s.val • spendingKeyGenerator = sig.r.1 + leNat (H redjubjubPersonalization
        (sig.r.1.toBytes.1 ++ vk.point.1.toBytes.1 ++ hash)).1 • vk.point.1 := by
  rw [verifyHashInternal_eq_ok, Subtype.ext_iff, getSpendingKeyGenerator_subgroup,
    ← mul_fromBytesWide (J := J)]
  rfl

/-- **What the host accepts, as an equation on the curve**: two encoded points of prime order other
than the identity, a canonical nonzero `s`, and the verification equation. -/
theorem verifyCredV2_subgroup_eq_ok {msg : CredMsgV2} {sig : Bytes 64} {vk : Bytes 32} :
    verifyCredV2 H J.fr J.subgroup msg sig vk = .ok () ↔
      ∃ (VK R : Point) (bytes : List UInt8),
        (VK.toBytes = vk ∧ PrimeOrder VK ∧ VK ≠ 0) ∧
        (R.toBytes = lowHalf sig ∧ PrimeOrder R ∧ R ≠ 0) ∧
        (0 < leNat (highHalf sig).1 ∧ leNat (highHalf sig).1 < subgroupOrder) ∧
        credV2PrehashBytes msg.v msg.kid msg.c msg.iat msg.exp msg.schema = .ok bytes ∧
        leNat (highHalf sig).1 • spendingKeyGenerator = R + leNat (H redjubjubPersonalization
          (R.toBytes.1 ++ vk.1 ++ (H noPersonalization bytes).1)).1 • VK := by
  have hcred : ∀ hash, credHash H msg = .ok hash ↔ ∃ bytes,
      credV2PrehashBytes msg.v msg.kid msg.c msg.iat msg.exp msg.schema = .ok bytes ∧
        (H noPersonalization bytes).1 = hash := by
    intro hash
    unfold credHash blake2s256
    cases credV2PrehashBytes msg.v msg.kid msg.c msg.iat msg.exp msg.schema <;> simp
  rw [verifyCredV2_eq_ok]
  constructor
  · rintro ⟨⟨VK⟩, ⟨R, s⟩, hash, hvk, hsig, hhash, hver⟩
    obtain ⟨hvk, hvk0⟩ := (VerificationKey.fromBytes_eq_ok _).mp hvk
    obtain ⟨hR, hR0, hs, hs0⟩ := (Signature.fromBytes_eq_ok _ _).mp hsig
    obtain ⟨bytes, hbytes, rfl⟩ := (hcred hash).mp hhash
    have hver := verifyHashInternal_subgroup_eq_ok.mp hver
    rw [show VK.1.toBytes = vk from hvk, ← hs] at hver
    refine ⟨VK.1, R.1, bytes, ⟨hvk, VK.2, fun h => hvk0 (Subtype.ext h)⟩,
      ⟨hR, R.2, fun h => hR0 (Subtype.ext h)⟩, ?_, hbytes, hver⟩
    rw [hs]
    exact ⟨Nat.pos_of_ne_zero fun h => hs0 ((ZMod.val_eq_zero s).mp h), ZMod.val_lt s⟩
  · rintro ⟨VK, R, bytes, ⟨rfl, hVK, hVK0⟩, ⟨hR, hRp, hR0⟩, ⟨hpos, hlt⟩, hbytes, hver⟩
    have hval : leNat (highHalf sig).1 = ((leNat (highHalf sig).1 : ℕ) : Fr).val :=
      (ZMod.val_natCast_of_lt hlt).symm
    refine ⟨⟨⟨VK, hVK⟩⟩, ⟨⟨R, hRp⟩, ((leNat (highHalf sig).1 : ℕ) : Fr)⟩, _,
      (VerificationKey.fromBytes_eq_ok _).mpr ⟨rfl, fun h => hVK0 (congrArg Subtype.val h)⟩,
      (Signature.fromBytes_eq_ok _ _).mpr ⟨hR, fun h => hR0 (congrArg Subtype.val h), hval, ?_⟩,
      (hcred _).mpr ⟨bytes, hbytes, rfl⟩, verifyHashInternal_subgroup_eq_ok.mpr (hval ▸ hver)⟩
    intro h
    have h0 : ((leNat (highHalf sig).1 : ℕ) : Fr) = 0 := h
    rw [h0, ZMod.val_zero] at hval
    omega

end Curve

/-! ## A signature that does not verify

Over the prime-order points of Jubjub, with hash functions of constant digests. -/

section Sample

/-- A hash function with one digest for challenges and one for everything else. -/
def constHash (challenge other : ℕ) : Blake2s := fun personalization _ =>
  ⟨leBytes 32 (if personalization = redjubjubPersonalization then challenge else other),
    length_leBytes _ _⟩

/-- A credential. -/
def sampleMsg : CredMsgV2 where
  v := 2
  kid := ascii "provii:kid:001"
  c := ⟨List.replicate 32 7, rfl⟩
  iat := 1700000000
  exp := 1800000000
  schema := ascii "provii.age/0"

/-- The signing key of scalar one. -/
def sampleSigningKey : Bytes 32 := ⟨leBytes 32 1, length_leBytes _ _⟩

variable {challenge other : ℕ}

theorem hashChallenge_constHash (F : FrBytes) (h : challenge < 256 ^ 32) (r vk : Bytes 32)
    (hash : List UInt8) : hashChallenge (constHash challenge other) F r vk hash = challenge := by
  rw [hashChallenge, F.fromBytesWide_eq, leNat_padTo64, constHash, if_pos rfl,
    leNat_leBytes_of_lt h]

private theorem nonceFrom_constHash (F : FrBytes) (h : other < 256 ^ 32) (sk : Bytes 32)
    (hash : List UInt8) : nonceFrom (constHash challenge other) F sk hash = other := by
  rw [nonceFrom, F.fromBytesWide_eq, leNat_padTo64, blake2s256, constHash, if_neg (by decide),
    leNat_leBytes_of_lt h]

theorem sampleSigningKey_ok (F : FrBytes) :
    SigningKey.fromBytes F sampleSigningKey = .ok ⟨1⟩ := by
  refine (SigningKey.fromBytes_eq_ok F).mpr ⟨F.fromBytes_eq_some.mpr ?_, one_ne_zero⟩
  rw [sampleSigningKey, leNat_leBytes_of_lt (by norm_num), ZMod.val_one]

/-- The signature that the key of scalar one puts on the sample credential. -/
private theorem sample_signed {P : Type} [AddCommGroup P] [DecidableEq P] (F : FrBytes)
    (G : SubgroupPoint P) (hc : challenge < 256 ^ 32) :
    signCredV2 (constHash challenge 1) F G sampleMsg sampleSigningKey =
      .ok (Signature.toBytes F G
        ⟨SubgroupPoint.mul (getSpendingKeyGenerator G) 1, 1 + challenge * 1⟩) := by
  have hsign : ∀ hash, signHashInternal (constHash challenge 1) F G hash ⟨1⟩ =
      .ok ⟨SubgroupPoint.mul (getSpendingKeyGenerator G) 1, 1 + challenge * 1⟩ := by
    intro hash
    simp only [signHashInternal, nonceFrom_constHash F (show 1 < 256 ^ 32 by norm_num),
      hashChallenge_constHash F hc, Nat.cast_one, one_ne_zero, if_false]
  rw [signCredV2, sampleSigningKey_ok F]
  have hlen : ¬ (sampleMsg.kid.length > 255 ∨ sampleMsg.schema.length > 255) := by decide
  simp only [bind, Except.bind, credHash, credV2PrehashBytes, if_neg hlen, hsign]
  rfl

/-- The key of scalar one decodes. -/
theorem sample_vk {P : Type} [AddCommGroup P] [DecidableEq P] (G : SubgroupPoint P) :
    VerificationKey.fromBytes G (((⟨1⟩ : SigningKey).verificationKey G).toBytes G) =
      .ok ((⟨1⟩ : SigningKey).verificationKey G) :=
  (VerificationKey.fromBytes_eq_ok G).mpr ⟨rfl, fun h => one_ne_zero
    ((G.mul_eq_zero_iff (getSpendingKeyGenerator_ne_zero G) _).mp h)⟩

/-- With challenges `-1` the nonce and the challenge's multiple of the key cancel, and the decoder
refuses what the signer emitted. -/
theorem signed_rejected :
    ∃ sig, signCredV2 (constHash (subgroupOrder - 1) 1) .standard Jubjub.standard.subgroup sampleMsg
        sampleSigningKey = .ok sig ∧
      verifyCredV2 (constHash (subgroupOrder - 1) 1) .standard Jubjub.standard.subgroup sampleMsg sig
        (((⟨1⟩ : SigningKey).verificationKey Jubjub.standard.subgroup).toBytes
          Jubjub.standard.subgroup) = .error .invalidSignatureBytes := by
  refine ⟨_, sample_signed _ _ (by norm_num), ?_⟩
  have hs : (1 + ((subgroupOrder - 1 : ℕ) : Fr) * 1) = 0 := by decide
  rw [verifyCredV2, sample_vk, Signature.fromBytes_toBytes, if_pos (.inr hs)]
  rfl

/-- With challenges one the signature verifies. -/
theorem signed_verifies_sample :
    ∃ sig, signCredV2 (constHash 1 1) .standard Jubjub.standard.subgroup sampleMsg
        sampleSigningKey = .ok sig ∧
      verifyCredV2 (constHash 1 1) .standard Jubjub.standard.subgroup sampleMsg sig
        (((⟨1⟩ : SigningKey).verificationKey Jubjub.standard.subgroup).toBytes
          Jubjub.standard.subgroup) = .ok () := by
  refine ⟨_, sample_signed _ _ (by norm_num), ?_⟩
  refine ((signed_verifies_iff _ _ _ sampleMsg (⟨leBytes 32 0, length_leBytes _ _⟩) _
    (sampleSigningKey_ok _)).1 _ (sample_signed _ _ (by norm_num))).mpr fun hash _ => ?_
  rw [NonceCancels, nonceFrom_constHash _ (by norm_num), hashChallenge_constHash _ (by norm_num)]
  decide

end Sample

end ProviiCrypto
