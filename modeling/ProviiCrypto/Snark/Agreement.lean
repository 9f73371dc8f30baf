import ProviiCrypto.Circuit.Shape
import ProviiCrypto.Reference.Groth16
import ProviiCrypto.Snark.Verifier

/-!
# The prover and the verifier agree

Whatever path a proof comes out by, it stands for a satisfied circuit and the verifier accepts it
(`prover_verifier_agreement`).
-/

namespace ProviiCrypto

open R1CS Number

variable {H : Blake2s} (B : Bellman H) (S : Sapling) (J : Jubjub) {G : Groth16}
variable (createRandomProof : ℕ → AgeCircuit → G.Parameters → Outcome SynthesisError G.Proof)

/-- What a proof stands for that comes out for a statement and a witness. -/
structure ProofStands (params : G.Parameters) (pub : AgePublic) (witness : AgeWitness)
    (vkId : UInt32) (p : AgeSnarkProofV2Extended) : Prop where
  /-- It carries the statement. -/
  carries : p.vk = vkId ∧ p.direction = pub.direction ∧ p.cutoff = pub.cutoffDays ∧
    p.rpHash = pub.rpHash ∧ p.issuerVkBytes = pub.issuerVkBytes ∧
    p.credNullifier = pub.credNullifier
  /-- The values of the run on the witness satisfy the circuit, with the public inputs of the
  statement. -/
  satisfied : ∃ ops, synthesize B S J ⟨pub, some witness⟩ .prove .init = .ok ((), ops) ∧
    Holds (TestConstraintSystem.assignment ops) ops ∧
    assemblePublicInputsCanonical B (pub.direction = .over) pub.cutoffDays pub.rpHash
      pub.issuerVkBytes pub.credNullifier =
        .ok (publicInputs (TestConstraintSystem.assignment ops))
  /-- The verifier accepts it under the key of the parameters, and echoes it. -/
  accepted : ∀ registry : Option (VkRegistry G),
    registry.bind (fun r => r p.vk) = some (G.prepareVerifyingKey (G.vk params)) →
    verifyAgeSnark B G registry p.proof (p.direction = .over) p.cutoff p.rpHash p.issuerVkBytes
      p.credNullifier p.vk =
        .ok ⟨p.direction = .over, p.cutoff, p.rpHash, p.issuerVkBytes, p.credNullifier, p.vk⟩

/-- A run on the test constraint system has the public inputs of its statement. -/
theorem publicInputs_assignment {circuit : AgeCircuit} {ops : List (Op Scalar)}
    (hrun : synthesize B S J circuit .prove .init = .ok ((), ops)) :
    publicInputs (TestConstraintSystem.assignment ops) = circuit.pub.bits.pack B :=
  publicInputs_of_agrees B (TestConstraintSystem.agrees_assignment ops)
    (synthesize_inputValues B S J hrun)

/-- Whatever the attempts come to, a proof that comes out stands for its statement. -/
theorem proveAgeSnark_stands {env : ProverEnv} {params : G.Parameters} {pub : AgePublic}
    {witness : AgeWitness} {vkId : UInt32} {p : AgeSnarkProofV2Extended}
    (h : proveAgeSnark B S J createRandomProof env params pub witness vkId = .ok p) :
    ProofStands B S J params pub witness vkId p := by
  obtain ⟨-, config, stats, -, proofBytes, read, -, -, -, hstats, -, -, -, hread, hver, rfl⟩ :=
    (proveAgeSnark_eq_ok B S J createRandomProof).mp h
  refine ⟨⟨rfl, rfl, rfl, rfl, rfl, rfl⟩, ?_, fun registry hreg => ?_⟩
  · obtain ⟨ops, hrun, hsat, -⟩ := (testCircuitSynthesis_eq_ok B S J).mp hstats
    refine ⟨ops, hrun, hsat, ?_⟩
    rw [publicInputs_assignment B S J hrun]
    exact pub.assemble_eq B
  · -- the bytes returned are those verified after serialisation
    exact (verifyAgeSnark_eq_ok B G).mpr
      ⟨⟨_, _, read, hreg, pub.assemble_eq B, hread, hver⟩, rfl⟩

/-- **Prover and verifier agree.** A proof that either entry point returns, whatever became of the
attempts to create it, stands for the statement it was asked for; for the convenience function this
is the statement of the challenge and of the witness's own key and nullifier. -/
theorem prover_verifier_agreement (env : ProverEnv) (params : G.Parameters) (witness : AgeWitness)
    (vkId : UInt32) :
    (∀ pub p, proveAgeSnark B S J createRandomProof env params pub witness vkId = .ok p →
      ProofStands B S J params pub witness vkId p) ∧
    ∀ cutoffDays rpChallenge direction p,
      proveAgeSnarkAuto B S J createRandomProof env params cutoffDays rpChallenge witness vkId
        direction = .ok p →
      ProofStands B S J params ⟨direction, cutoffDays, H noPersonalization rpChallenge.1,
        witness.issuerVkBytes, S.pedersenNullifier witness.cBytes⟩ witness vkId p ∧
      p.cutoff = cutoffDays ∧ p.direction = direction ∧ p.vk = vkId ∧
      p.rpHash = H noPersonalization rpChallenge.1 ∧
      p.issuerVkBytes = witness.issuerVkBytes ∧
      p.credNullifier = S.pedersenNullifier witness.cBytes := by
  refine ⟨fun pub p h => proveAgeSnark_stands B S J createRandomProof h, ?_⟩
  intro cutoffDays rpChallenge direction p h
  rw [proveAgeSnarkAuto_eq] at h
  have hstands := proveAgeSnark_stands B S J createRandomProof h
  obtain ⟨hvk, hdir, hcutoff, hrp, hissuer, hnul⟩ := hstands.carries
  exact ⟨hstands, hcutoff, hdir, hvk, hrp, hissuer, hnul⟩

/-- The environment of a release build. -/
def sampleEnv : ProverEnv := ⟨some ⟨.none⟩, 0, 0, "linux", "0.1.0", ""⟩

theorem prover_verifier_agreement_cred :
    ∃ p q, proveAgeSnark (Reference.bellman Reference.blake2s) Reference.sapling .standard
        (Reference.createRandomProof (Reference.bellman Reference.blake2s)) sampleEnv ()
        (credPublic .over 10000) (Reference.credMsg.witness Reference.credDob Reference.credR
          Reference.credSig spendingKeyGenBytes) 7 = .ok p ∧
      verifyAgeSnark (Reference.bellman Reference.blake2s) (Reference.groth16 Reference.blake2s)
        (some fun _ => some ()) p.proof (p.direction = .over) p.cutoff p.rpHash p.issuerVkBytes
        p.credNullifier p.vk =
          .ok ⟨p.direction = .over, p.cutoff, p.rpHash, p.issuerVkBytes, p.credNullifier, p.vk⟩ ∧
      proveAgeSnarkAuto (Reference.bellman Reference.blake2s) Reference.sapling .standard
        (Reference.createRandomProof (Reference.bellman Reference.blake2s)) sampleEnv () 10000
        rpChallenge (Reference.credMsg.witness Reference.credDob Reference.credR Reference.credSig
          spendingKeyGenBytes) 7 .over = .ok q ∧
      q.cutoff = 10000 ∧ q.rpHash = Reference.blake2s noPersonalization rpChallenge.1 := by
  let B := Reference.bellman Reference.blake2s
  let witness := Reference.credMsg.witness Reference.credDob Reference.credR Reference.credSig
    spendingKeyGenBytes
  obtain ⟨r, ops, hrun, hw⟩ := credRun_complete .over 10000 (by decide)
  have hrun := (synthesize_eq_ok B Reference.sapling .standard).mpr ⟨r, hrun⟩
  have hstats : testCircuitSynthesis B Reference.sapling .standard sampleEnv
      (credPublic .over 10000) witness = .ok _ :=
    (testCircuitSynthesis_eq_ok B Reference.sapling .standard).mpr
      ⟨ops, hrun, (hw _ (TestConstraintSystem.agrees_assignment ops)).1, rfl⟩
  have hgate : (validateInputsDetailed (credPublic .over 10000) witness).inputValidation = true :=
    (validateInputsDetailed_iff _ _).mpr ⟨by decide, by decide, by decide, by decide, rfl,
      rfl, by decide, by decide +kernel⟩
  have hproof : proveAgeSnark B Reference.sapling .standard (Reference.createRandomProof B)
      sampleEnv () (credPublic .over 10000) witness 7 = .ok _ :=
    (proveAgeSnark_eq_ok B Reference.sapling .standard (Reference.createRandomProof B)).mpr
      ⟨[], ⟨.none⟩, _, _, _, _, rfl, rfl, hgate, hstats, rfl, Reference.verifyProof_inputsTag _,
        rfl, Reference.readProof_writeProof, Reference.verifyProof_inputsTag _, rfl⟩
  have hauto := (proveAgeSnarkAuto_eq B Reference.sapling .standard (Reference.createRandomProof B)
    sampleEnv () 10000 rpChallenge witness 7 .over).trans hproof
  obtain ⟨hprove, hproveAuto⟩ := prover_verifier_agreement B Reference.sapling .standard
    (Reference.createRandomProof B) sampleEnv () witness 7
  obtain ⟨-, hcutoff, -, -, hrp, -, -⟩ := hproveAuto _ _ _ _ hauto
  exact ⟨_, _, hproof, (hprove _ _ hproof).accepted _ rfl, hauto, hcutoff, hrp⟩

end ProviiCrypto
