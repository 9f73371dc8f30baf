import ProviiCrypto.Signature

/-!
# Keys and signatures as bytes

* `generateKeypair_decodes_iff`: a generated key pair decodes unless the 64 bytes drawn are a
  multiple of the group order; the generator does not reject zero, its decoders do.
* `signature_unique`: under one key and one message, a signature is determined by its first half.
-/

namespace ProviiCrypto

open Number

variable {P : Type} [AddCommGroup P] (H : Blake2s) (F : FrBytes) (G : SubgroupPoint P)

/-! ## Key generation -/

/-- `Fr::random`: 64 bytes of the generator, reduced. -/
def FrBytes.random (rng : RngStream) : Fr := F.fromBytesWide (fillBytes rng 64)

/-- `SigningKey::random_with_rng`. -/
def SigningKey.randomWithRng (rng : RngStream) : SigningKey := ⟨F.random rng⟩

/-- `SigningKey::random`, with what the system's generator delivers. -/
def SigningKey.random (osRng : RngStream) : SigningKey := ⟨F.random osRng⟩

/-- `generate_keypair_with_rng`: the bytes of the signing key and of the verification key. -/
def generateKeypairWithRng (rng : RngStream) : Bytes 32 × Bytes 32 :=
  let signingKey := SigningKey.randomWithRng F rng
  let verificationKey := signingKey.verificationKey G
  (signingKey.toBytes F, verificationKey.toBytes G)

/-- `generate_keypair`. -/
def generateKeypair (osRng : RngStream) : Bytes 32 × Bytes 32 :=
  let signingKey := SigningKey.random F osRng
  let verificationKey := signingKey.verificationKey G
  (signingKey.toBytes F, verificationKey.toBytes G)

variable [DecidableEq P]

/-- The decoders accept both halves of a key pair, and they belong together. -/
def KeypairDecodes (keypair : Bytes 32 × Bytes 32) : Prop :=
  ∃ key vk, SigningKey.fromBytes F keypair.1 = .ok key ∧
    (key.verificationKey G).toBytes G = keypair.2 ∧
    VerificationKey.fromBytes G keypair.2 = .ok vk

/-- A signing key's bytes decode to it, unless it is zero. -/
theorem SigningKey.fromBytes_toBytes {key key' : SigningKey} :
    SigningKey.fromBytes F (key.toBytes F) = .ok key' ↔ key' = key ∧ key.scalar ≠ 0 := by
  rw [SigningKey.fromBytes_eq_ok, SigningKey.toBytes, F.fromBytes_toBytes, Option.some_inj]
  constructor
  · rintro ⟨hscalar, hne⟩
    exact ⟨congrArg SigningKey.mk hscalar.symm, hscalar ▸ hne⟩
  · rintro ⟨rfl, hne⟩
    exact ⟨rfl, hne⟩

/-- A key pair decodes exactly when its scalar is not zero. -/
theorem keypairDecodes_iff (key : SigningKey) :
    KeypairDecodes F G (key.toBytes F, (key.verificationKey G).toBytes G) ↔ key.scalar ≠ 0 := by
  constructor
  · rintro ⟨key', -, hkey, -⟩
    exact ((SigningKey.fromBytes_toBytes F).mp hkey).2
  · intro hne
    have hpoint : (key.verificationKey G).point ≠ 0 := by
      intro h
      exact hne ((G.mul_eq_zero_iff (getSpendingKeyGenerator_ne_zero G) _).mp h)
    exact ⟨key, key.verificationKey G, (SigningKey.fromBytes_toBytes F).mpr ⟨rfl, hne⟩, rfl,
      (VerificationKey.fromBytes_eq_ok G).mpr ⟨rfl, hpoint⟩⟩

/-- The scalar drawn is zero when the number drawn is a multiple of the order. -/
theorem random_eq_zero_iff (rng : RngStream) :
    F.random rng = 0 ↔ subgroupOrder ∣ leNat (fillBytes rng 64).1 := by
  rw [FrBytes.random, F.fromBytesWide_eq, ZMod.natCast_eq_zero_iff]

/-- **Key generation and the decoders**: for every stream, the key pair decodes exactly when the
first 64 bytes are not a multiple of the group order. -/
theorem generateKeypair_decodes_iff (rng : RngStream) :
    (KeypairDecodes F G (generateKeypairWithRng F G rng) ↔
      ¬ subgroupOrder ∣ leNat (fillBytes rng 64).1) ∧
    (KeypairDecodes F G (generateKeypair F G rng) ↔
      ¬ subgroupOrder ∣ leNat (fillBytes rng 64).1) := by
  rw [← random_eq_zero_iff F]
  exact ⟨keypairDecodes_iff F G (SigningKey.randomWithRng F rng),
    keypairDecodes_iff F G (SigningKey.random F rng)⟩

/-- A generator that delivers zeros gives a key pair that its own decoders refuse. -/
theorem generateKeypair_zero :
    ¬ KeypairDecodes .standard Jubjub.standard.subgroup
        (generateKeypairWithRng .standard Jubjub.standard.subgroup fun _ => 0) ∧
      SigningKey.fromBytes .standard
        (generateKeypairWithRng .standard Jubjub.standard.subgroup fun _ => 0).1 =
          .error .invalidSigningKeyBytes := by
  have hzero : FrBytes.standard.random (fun _ => 0) = 0 := by
    rw [random_eq_zero_iff]
    decide
  constructor
  · exact fun h => (keypairDecodes_iff _ _ (SigningKey.randomWithRng _ _)).mp h hzero
  · unfold generateKeypairWithRng SigningKey.randomWithRng SigningKey.fromBytes SigningKey.toBytes
    simp only [FrBytes.fromBytes_toBytes, hzero, if_true]

/-! ## Signatures -/

/-- The bytes that decode to a signature are its encoding. -/
theorem Signature.toBytes_of_fromBytes {bytes : Bytes 64} {sig : Signature P}
    (h : Signature.fromBytes F G bytes = .ok sig) : sig.toBytes F G = bytes := by
  obtain ⟨hr, -, hs, -⟩ := (Signature.fromBytes_eq_ok F G).mp h
  have hscalar : F.toBytes sig.s = highHalf bytes := by
    refine Subtype.ext (leNat_injective ?_ ?_)
    · rw [(F.toBytes sig.s).2, (highHalf bytes).2]
    · rw [F.leNat_toBytes, hs]
  rw [Signature.toBytes, hr, hscalar, joinHalves_halves]

/-- **The first half of a signature determines it**, for any hash of the message. -/
theorem verify_unique {hash : Except RedJubjubError (List UInt8)} {sig sig' : Bytes 64}
    {verificationKey : Bytes 32} (hhalf : lowHalf sig = lowHalf sig')
    (h : verifyHashed H F G hash sig verificationKey = .ok ())
    (h' : verifyHashed H F G hash sig' verificationKey = .ok ()) : sig = sig' := by
  obtain ⟨vk, s, m, hvk, hsig, rfl, hver⟩ := (verifyHashed_eq_ok H F G).mp h
  obtain ⟨vk', s', m', hvk', hsig', hm, hver'⟩ := (verifyHashed_eq_ok H F G).mp h'
  obtain rfl := Except.ok.inj (hvk.symm.trans hvk')
  obtain rfl := Except.ok.inj hm
  rw [verifyHashInternal_eq_ok] at hver hver'
  -- one point `R`, so one challenge and one multiple of the generator
  have hr : s.r = s'.r := by
    refine G.toBytes_injective ?_
    rw [((Signature.fromBytes_eq_ok F G).mp hsig).1, hhalf,
      ((Signature.fromBytes_eq_ok F G).mp hsig').1]
  have hs : s.s = s'.s :=
    G.mul_injective (getSpendingKeyGenerator_ne_zero G) (by rw [hver, hver', hr])
  rw [← Signature.toBytes_of_fromBytes F G hsig, ← Signature.toBytes_of_fromBytes F G hsig',
    Signature.toBytes, Signature.toBytes, hr, hs]

/-- **Signatures are not malleable in `s`**: of the byte strings with one first half at most one
verifies for a credential, plain or bound to a relying party, under one key; and whatever decodes
to a signature is the encoding of it. -/
theorem signature_unique :
    (∀ msg verificationKey sig sig', lowHalf sig = lowHalf sig' →
      verifyCredV2 H F G msg sig verificationKey = .ok () →
      verifyCredV2 H F G msg sig' verificationKey = .ok () → sig = sig') ∧
    (∀ msg rp verificationKey sig sig', lowHalf sig = lowHalf sig' →
      verifyCredV2WithRp H F G msg rp sig verificationKey = .ok () →
      verifyCredV2WithRp H F G msg rp sig' verificationKey = .ok () → sig = sig') ∧
    ∀ bytes sig, Signature.fromBytes F G bytes = .ok sig → sig.toBytes F G = bytes :=
  ⟨fun _ _ _ _ hhalf h h' => verify_unique H F G hhalf h h',
    fun _ _ _ _ _ hhalf h h' => verify_unique H F G hhalf h h',
    fun _ _ h => Signature.toBytes_of_fromBytes F G h⟩

theorem signature_unique_sample :
    ∃ vk sig, verifyCredV2 (constHash 1 1) .standard Jubjub.standard.subgroup sampleMsg sig vk =
        .ok () ∧
      ∀ sig', lowHalf sig = lowHalf sig' →
        verifyCredV2 (constHash 1 1) .standard Jubjub.standard.subgroup sampleMsg sig' vk = .ok () →
        sig = sig' := by
  let F := FrBytes.standard
  let G := Jubjub.standard.subgroup
  let g := getSpendingKeyGenerator G
  -- the key of scalar one, the nonce one and the challenge one
  have hvk : VerificationKey.fromBytes G (((⟨1⟩ : SigningKey).verificationKey G).toBytes G) =
      .ok ((⟨1⟩ : SigningKey).verificationKey G) := sample_vk G
  have hr : SubgroupPoint.mul g 1 ≠ 0 := by
    intro h
    exact one_ne_zero ((G.mul_eq_zero_iff (getSpendingKeyGenerator_ne_zero G) _).mp h)
  have hsig : Signature.fromBytes F G
      (Signature.toBytes F G ⟨SubgroupPoint.mul g 1, 1 + 1⟩) = .ok ⟨SubgroupPoint.mul g 1, 1 + 1⟩ := by
    rw [Signature.fromBytes_toBytes, if_neg (not_or.mpr ⟨hr, by decide⟩)]
  have hver : ∀ hash, verifyHashInternal (constHash 1 1) F G hash ⟨SubgroupPoint.mul g 1, 1 + 1⟩
      ((⟨1⟩ : SigningKey).verificationKey G) = .ok () := by
    intro hash
    rw [verifyHashInternal_eq_ok, hashChallenge_constHash F (by norm_num), Nat.cast_one,
      SigningKey.verificationKey, ← G.mul_mul, mul_one, G.mul_add]
  have hcred : credHash (constHash 1 1) sampleMsg = .ok _ := rfl
  have hverify := (verifyCredV2_eq_ok (constHash 1 1) F G).mpr
    ⟨_, _, _, hvk, hsig, hcred, hver _⟩
  exact ⟨_, _, hverify, fun sig' hhalf h => (signature_unique (constHash 1 1) F G).1 _ _ _ _ hhalf
    hverify h⟩

end ProviiCrypto
