import ProviiCrypto.Circuit.Run
import ProviiCrypto.DomainSeparation
import ProviiCrypto.Snark.Agreement

/-!
# From the issuer to the verifier

An issuer commits to a date of birth and signs, the holder builds a witness, the prover proves and the
verifier checks. Along the way:

* `AgeWitness.new_eq_ok`: what the constructor lets through. What the issuer signs always passes: its
  commitment and its `R` are points of prime order, which are never encoded by zeros.
* `exists_signed_opening`: what the issuer signs is in the relation, whatever its `s`.
* `issued_credential_proves`: so with a complete proof system, and names of the sizes that the circuit
  has wires for, the prover returns a proof exactly when the statement allows the date of birth and the
  gate lets the values through, and the verifier accepts it. The issuer signs names of up to 255 bytes;
  the holder's constructor refuses those of other sizes (`AgeWitness.new_eq_ok`).
-/

namespace ProviiCrypto

open R1CS Number

/-! ## The witness -/

/-- **What the constructor lets through.** -/
theorem AgeWitness.new_eq_ok {dobDays : Int32} {rBits : List Bool} {issuerVkBytes : Bytes 32}
    {sigRjBytes : List UInt8} {v : UInt8} {kid : List UInt8} {cBytes : Bytes 32} {iat exp : UInt64}
    {schema : List UInt8} {x : AgeWitness} :
    AgeWitness.new dobDays rBits issuerVkBytes sigRjBytes v kid cBytes iat exp schema = .ok x ↔
      x = ⟨dobDays, rBits, issuerVkBytes, sigRjBytes, v, kid, cBytes, iat, exp, schema⟩ ∧
        x.Sized ∧ cBytes.1 ≠ List.replicate 32 0 ∧ sigRjBytes ≠ List.replicate 64 0 := by
  unfold AgeWitness.new
  constructor
  · intro h
    split_ifs at h with hkid hschema hr hsig hc hzero
    obtain rfl := Except.ok.inj h
    refine ⟨rfl, ⟨not_not.mp hkid, not_not.mp hschema, not_not.mp hsig, not_not.mp hr⟩, hc, ?_⟩
    rintro rfl
    exact hzero (by decide)
  · rintro ⟨rfl, hsized, hc, hzero⟩
    have hall : ¬ sigRjBytes.all (· == 0) = true := by
      intro h
      refine hzero (List.eq_replicate_iff.mpr ⟨hsized.sig, fun b hb => ?_⟩)
      simpa using List.all_eq_true.mp h b hb
    rw [if_neg (not_not.mpr hsized.kid), if_neg (not_not.mpr hsized.schema),
      if_neg (not_not.mpr hsized.r), if_neg (not_not.mpr hsized.sig), if_neg hc, if_neg hall]

/-- A commitment is a point of prime order, encoded. -/
theorem Sapling.commitBytes_ne_zeros {S : Sapling} {dobDays : Int32} {rBits : List Bool}
    {c : Bytes 32} (h : S.commitBytes dobDays rBits = some c) : c.1 ≠ List.replicate 32 0 := by
  rw [S.commitBytes_eq, S.pedersenHash_eq, Option.map_eq_some_iff] at h
  obtain ⟨P, hP, rfl⟩ := h
  have hmem : P ∈ primeSubgroup := segmentsSum_mem (fun g hg => (S.generators_prime g hg).1) hP
  exact PrimeOrder.toBytes_ne_zeros hmem

variable {H : Blake2s} {S : Sapling} {J : Jubjub}

/-! ## The issuer -/

/-- The signer only fails for want of a nonce. -/
theorem exists_signHashInternal {P : Type} [AddCommGroup P] {H : Blake2s} {F : FrBytes}
    {G : SubgroupPoint P} {hash : List UInt8} {key : SigningKey}
    (h : nonceFrom H F (key.toBytes F) hash ≠ 0) : ∃ s, signHashInternal H F G hash key = .ok s :=
  ⟨_, if_neg h⟩

/-- What the signer returns, in stages. -/
theorem signCredV2_eq_ok {P : Type} [AddCommGroup P] {F : FrBytes} {G : SubgroupPoint P}
    {msg : CredMsgV2} {sk : Bytes 32} {sig : Bytes 64} :
    signCredV2 H F G msg sk = .ok sig ↔ ∃ key hash s, SigningKey.fromBytes F sk = .ok key ∧
      credHash H msg = .ok hash ∧ signHashInternal H F G hash key = .ok s ∧ sig = s.toBytes F G :=
  signHashed_eq_ok H F G

/-- The bytes of a signing key's verification key. -/
def SigningKey.vkBytes (J : Jubjub) (key : SigningKey) : Bytes 32 :=
  (key.verificationKey J.subgroup).toBytes J.subgroup

/-- **What the issuer signs is in the relation**, over a commitment it computes: the opening's points
are of prime order and its `s` is canonical, zero or not. -/
theorem exists_signed_opening {msg : CredMsgV2} {dobDays : Int32} {rBits : List Bool} {sk : Bytes 32}
    {key : SigningKey} {sig : Bytes 64} (hkid : msg.kid.length = 14) (hschema : msg.schema.length = 12)
    (hr : rBits.length = 128) (hc : S.commitBytes dobDays rBits = some msg.c)
    (hkey : SigningKey.fromBytes J.fr sk = .ok key)
    (hsig : signCredV2 H J.fr J.subgroup msg sk = .ok sig) :
    ∃ o : Opening, (msg.witness dobDays rBits sig (key.vkBytes J)).Opens o ∧ o.Regular ∧
      PrimeOrder o.R ∧ ∀ (d : AgeDirection) (cutoff : Int32), d.Allows cutoff dobDays →
        Relation H S d cutoff (key.vkBytes J) (S.pedersenNullifier msg.c) o := by
  obtain ⟨key', hash, ⟨R, s⟩, hkey', hhash, hs, rfl⟩ := signCredV2_eq_ok.mp hsig
  obtain rfl := Except.ok.inj (hkey.symm.trans hkey')
  obtain ⟨hver, hR0, -⟩ := verifyHashInternal_sign H J.fr J.subgroup hs
  obtain ⟨bytes, hbytes, rfl⟩ := (credHash_eq_ok H).mp hhash
  have hver := verifyHashInternal_subgroup_eq_ok.mp hver
  -- the key is not zero, so its point is not the identity
  let VK := (key.verificationKey J.subgroup).point
  have hVK0 : VK.1 ≠ 0 := fun h => ((SigningKey.fromBytes_eq_ok J.fr).mp hkey).2
    ((J.subgroup.mul_eq_zero_iff (getSpendingKeyGenerator_ne_zero J.subgroup) _).mp (Subtype.ext h))
  have hs : leNat (J.fr.toBytes s).1 = s.val := J.fr.leNat_toBytes s
  refine ⟨⟨dobDays, rBits, VK.1, R.1, J.fr.toBytes s, msg.v, ⟨msg.kid, hkid⟩, msg.c, msg.iat, msg.exp,
    ⟨msg.schema, hschema⟩⟩, ⟨rfl, rfl, rfl, rfl, rfl, rfl, rfl, rfl, rfl, rfl⟩,
    ⟨hr, VK.2.eight_nsmul_u_ne_zero hVK0,
      PrimeOrder.eight_nsmul_u_ne_zero R.2 fun h => hR0 (Subtype.ext h), hs ▸ ZMod.val_lt s⟩,
    R.2, fun d cutoff hage => ⟨hc, rfl, rfl, hage, bytes, hbytes, ?_⟩⟩
  rw [hs]
  exact hver

/-! ## The holder, the prover and the verifier -/

variable (B : Bellman H) (S J) {G : Groth16}
variable (createRandomProof : ℕ → AgeCircuit → G.Parameters → Outcome SynthesisError G.Proof)

/-- The circuit accepts the witness of a regular opening in the relation. -/
theorem satisfied_of_opens {pub : AgePublic} {x : AgeWitness} {o : Opening} (hx : x.Opens o)
    (ho : o.Regular)
    (hrel : Relation H S pub.direction pub.cutoffDays pub.issuerVkBytes pub.credNullifier o) :
    Satisfied B S J pub x := by
  obtain ⟨r, ops, hrun, -, hw⟩ := synthesizeWires_complete B S J hx ho hrel
  exact ⟨ops, (synthesize_eq_ok B S J).mpr ⟨r, hrun⟩,
    (hw _ (TestConstraintSystem.agrees_assignment ops)).1⟩

/-- **What the proof system promises the prover**: the key can be written, and for a satisfied circuit
some attempt gives a proof, which verifies and survives being written and read. -/
structure CompleteKey (params : G.Parameters) : Prop where
  written : ∃ vkBytes, G.writeVk (G.vk params) = some vkBytes
  proves : ∀ pub x, Satisfied B S J pub x → ∃ proof proofBytes,
    generateProofWithRetry createRandomProof params pub x = .ok proof ∧
    G.verifyProof (G.prepareVerifyingKey (G.vk params)) proof (pub.bits.pack B) = true ∧
    G.writeProof proof = some proofBytes ∧ G.readProof proofBytes = some proof

/-- With a complete key the prover proves what the gate and the circuit let through. -/
theorem proveAgeSnark_of_satisfied {params : G.Parameters}
    (hcomplete : CompleteKey S J B createRandomProof params) {env : ProverEnv} {config : RuntimeConfig}
    (hconfig : env.config = some config) {pub : AgePublic} {x : AgeWitness} (vkId : UInt32)
    (hgate : (validateInputsDetailed pub x).inputValidation = true) (hsat : Satisfied B S J pub x) :
    ∃ p, proveAgeSnark B S J createRandomProof env params pub x vkId = .ok p := by
  obtain ⟨vkBytes, hvk⟩ := hcomplete.written
  obtain ⟨proof, proofBytes, hproof, hver, hwrite, hread⟩ := hcomplete.proves pub x hsat
  obtain ⟨ops, hrun, hholds⟩ := hsat
  exact ⟨_, (proveAgeSnark_eq_ok B S J createRandomProof).mpr ⟨vkBytes, config, _, proof, proofBytes,
    proof, hvk, hconfig, hgate, (testCircuitSynthesis_eq_ok B S J).mpr ⟨ops, hrun, hholds, rfl⟩,
    hproof, hver, hwrite, hread, hver, rfl⟩⟩

/-- What is proved is satisfied, and has passed the gate. -/
theorem satisfied_of_proveAgeSnark {env : ProverEnv} {params : G.Parameters} {pub : AgePublic}
    {x : AgeWitness} {vkId : UInt32} {p : AgeSnarkProofV2Extended}
    (h : proveAgeSnark B S J createRandomProof env params pub x vkId = .ok p) :
    Satisfied B S J pub x ∧ (validateInputsDetailed pub x).inputValidation = true := by
  obtain ⟨-, config, stats, -, -, -, -, -, hgate, hstats, -⟩ :=
    (proveAgeSnark_eq_ok B S J createRandomProof).mp h
  obtain ⟨ops, hrun, hholds, -⟩ := (testCircuitSynthesis_eq_ok B S J).mp hstats
  exact ⟨⟨ops, hrun, hholds⟩, hgate⟩

/-- The holder's constructor accepts what the issuer signs. -/
theorem new_of_signed {msg : CredMsgV2} {dobDays : Int32} {rBits : List Bool} {sig : Bytes 64}
    {vk : Bytes 32} {o : Opening} (hkid : msg.kid.length = 14) (hschema : msg.schema.length = 12)
    (hr : rBits.length = 128) (hc : S.commitBytes dobDays rBits = some msg.c)
    (ho : (msg.witness dobDays rBits sig vk).Opens o) (hR : PrimeOrder o.R) :
    AgeWitness.new dobDays rBits vk sig.1 msg.v msg.kid msg.c msg.iat msg.exp msg.schema =
      .ok (msg.witness dobDays rBits sig vk) := by
  refine AgeWitness.new_eq_ok.mpr ⟨rfl, ⟨hkid, hschema, sig.2, hr⟩, Sapling.commitBytes_ne_zeros hc, ?_⟩
  intro hzero
  have hsig : o.R.toBytes.1 ++ o.s.1 = List.replicate 32 0 ++ List.replicate 32 0 :=
    ho.sig.trans hzero
  exact PrimeOrder.toBytes_ne_zeros hR (List.append_inj_left hsig o.R.toBytes.2)

/-- **From the issuer to the verifier.** An issuer commits to a date of birth with 128 random bits and
signs a credential whose `kid` is 14 bytes long and whose `schema` is 12. Then the holder's constructor
accepts the credential; over a complete key the prover returns a proof for a challenge exactly when the
date of birth is allowed, the two days are within the gate's bounds and not 0, and the credential's
dates are in order; and the verifier accepts the proof for the statement under the key, whatever else
it has registered. -/
theorem issued_credential_proves {msg : CredMsgV2} {dobDays : Int32} {rBits : List Bool}
    {sk : Bytes 32} {key : SigningKey} {sig : Bytes 64} (hkid : msg.kid.length = 14)
    (hschema : msg.schema.length = 12) (hr : rBits.length = 128)
    (hc : S.pedersenCommitDobValidated dobDays rBits = .ok msg.c)
    (hkey : SigningKey.fromBytes J.fr sk = .ok key)
    (hsig : signCredV2 H J.fr J.subgroup msg sk = .ok sig) {params : G.Parameters}
    (hcomplete : CompleteKey S J B createRandomProof params) {env : ProverEnv} {config : RuntimeConfig}
    (hconfig : env.config = some config) :
    ∃ x, AgeWitness.new dobDays rBits (key.vkBytes J) sig.1 msg.v msg.kid msg.c msg.iat msg.exp
        msg.schema = .ok x ∧
      ∀ (d : AgeDirection) (cutoff : Int32) (rpChallenge : Bytes 32) (vkId : UInt32),
        ((∃ p, proveAgeSnarkAuto B S J createRandomProof env params cutoff rpChallenge x vkId d =
            .ok p) ↔
          d.Allows cutoff dobDays ∧ cutoff ≠ 0 ∧ cutoff ≤ 36500 ∧ dobDays ≠ 0 ∧ dobDays ≤ 36500 ∧
            msg.iat < msg.exp) ∧
        ∀ p, proveAgeSnarkAuto B S J createRandomProof env params cutoff rpChallenge x vkId d = .ok p →
          ∀ registry : Option (VkRegistry G),
            registry.bind (fun r => r vkId) = some (G.prepareVerifyingKey (G.vk params)) →
            verifyAgeSnark B G registry p.proof (d = .over) cutoff (H noPersonalization rpChallenge.1)
                (key.vkBytes J) (S.pedersenNullifier msg.c) vkId =
              .ok ⟨d = .over, cutoff, H noPersonalization rpChallenge.1, key.vkBytes J,
                S.pedersenNullifier msg.c, vkId⟩ := by
  obtain ⟨-, -, -, hcommit⟩ := S.pedersenCommitDobValidated_eq_ok.mp hc
  obtain ⟨o, hx, ho, hR, hrel⟩ := exists_signed_opening hkid hschema hr hcommit hkey hsig
  have hzeros := Sapling.commitBytes_ne_zeros hcommit
  refine ⟨_, new_of_signed S hkid hschema hr hcommit hx hR, fun d cutoff rpChallenge vkId => ?_⟩
  rw [proveAgeSnarkAuto_eq]
  refine ⟨⟨?_, ?_⟩, ?_⟩
  · rintro ⟨p, hp⟩
    obtain ⟨hsat, hgate⟩ := satisfied_of_proveAgeSnark S J B createRandomProof hp
    obtain ⟨h0, hcutoff, hd0, hdob, -, -, htime, -⟩ := (validateInputsDetailed_iff _ _).mp hgate
    exact ⟨hsat.allows, h0, hcutoff, hd0, hdob, htime⟩
  · rintro ⟨hage, h0, hcutoff, hd0, hdob, htime⟩
    have hsat : Satisfied B S J ⟨d, cutoff, H noPersonalization rpChallenge.1, key.vkBytes J,
        S.pedersenNullifier msg.c⟩ (msg.witness dobDays rBits sig (key.vkBytes J)) :=
      satisfied_of_opens S J B hx ho (hrel d cutoff hage)
    exact proveAgeSnark_of_satisfied S J B createRandomProof hcomplete hconfig vkId
      ((validateInputsDetailed_iff _ _).mpr ⟨h0, hcutoff, hd0, hdob, hr, sig.2, htime, hzeros⟩) hsat
  · intro p hp registry hregistry
    have hstands := proveAgeSnark_stands B S J createRandomProof hp
    obtain ⟨hvk, hd, hcut, hrp, hissuer, hnul⟩ := hstands.carries
    have haccepted := hstands.accepted registry
    rw [hvk, hd, hcut, hrp, hissuer, hnul] at haccepted
    exact haccepted hregistry

/-- The transparent proof system is complete, though its first attempt panics. -/
theorem completeKey_reference {H : Blake2s} (S : Sapling) (J : Jubjub) (B : Bellman H) :
    CompleteKey S J B (G := Reference.groth16 H) (Reference.createRandomProof B) () where
  written := ⟨[], rfl⟩
  proves pub _ _ := ⟨Reference.inputsTag H (pub.bits.pack B), _, rfl, Reference.verifyProof_inputsTag _,
    rfl, Reference.readProof_writeProof⟩

/-- The nonce of the sample credential is not zero. -/
theorem credNonce_ne_zero : nonceFrom Reference.blake2s .standard
    ((⟨1⟩ : SigningKey).toBytes .standard)
      (Reference.blake2s noPersonalization Reference.credTranscript).1 ≠ 0 := by
  unfold nonceFrom
  rw [FrBytes.fromBytesWide_eq, leNat_padTo64, ne_eq, ZMod.natCast_eq_zero_iff]
  decide +kernel

theorem issued_credential_proves_cred :
    ∃ sig x p, signCredV2 Reference.blake2s .standard Jubjub.standard.subgroup Reference.credMsg
        sampleSigningKey = .ok sig ∧
      AgeWitness.new Reference.credDob Reference.credR ((⟨1⟩ : SigningKey).vkBytes .standard) sig.1
        Reference.credMsg.v Reference.credMsg.kid Reference.credMsg.c Reference.credMsg.iat
        Reference.credMsg.exp Reference.credMsg.schema = .ok x ∧
      proveAgeSnarkAuto (Reference.bellman Reference.blake2s) Reference.sapling .standard
        (Reference.createRandomProof (Reference.bellman Reference.blake2s)) sampleEnv () 10000
        rpChallenge x 7 .over = .ok p := by
  obtain ⟨s, hsign⟩ := exists_signHashInternal (G := Jubjub.standard.subgroup) credNonce_ne_zero
  have hhash : credHash Reference.blake2s Reference.credMsg =
      .ok (Reference.blake2s noPersonalization Reference.credTranscript).1 :=
    (credHash_eq_ok Reference.blake2s).mpr
      ⟨Reference.credTranscript, show _ = Except.ok _ from rfl, rfl⟩
  have hsig := signCredV2_eq_ok.mpr ⟨⟨1⟩, _, s, sampleSigningKey_ok .standard, hhash, hsign, rfl⟩
  obtain ⟨x, hx, hflow⟩ := issued_credential_proves Reference.sapling .standard
    (Reference.bellman Reference.blake2s)
    (Reference.createRandomProof (Reference.bellman Reference.blake2s)) rfl rfl rfl
    Reference.commit_credMsg (sampleSigningKey_ok .standard) hsig
    (completeKey_reference _ _ _)
    (show sampleEnv.config = some ⟨.none⟩ from rfl)
  obtain ⟨p, hp⟩ := (hflow .over 10000 rpChallenge 7).1.mpr (by decide)
  exact ⟨_, x, p, hsig, hx, hp⟩

end ProviiCrypto
