import ProviiCrypto.Circuit.Wires
import ProviiCrypto.R1CS.TestSystem
import ProviiCrypto.Snark.Groth16

/-!
# `provii-crypto-prover`

The prover: it assembles the public inputs twice, gates the inputs, runs the circuit against the
test constraint system, creates the proof with one retry, and verifies it before and after
serialisation. `proveAgeSnark_eq_ok` says what all of that amounts to when a proof comes out.

What only goes to the log is left out.
-/

namespace ProviiCrypto

open R1CS Number

/-! ## The data -/

/-- `DebugLevel`. -/
inductive DebugLevel where
  | none
  | basic
  | verbose
  | extreme
  deriving DecidableEq, Repr

/-- `RuntimeConfig`. -/
structure RuntimeConfig where
  debugLevel : DebugLevel
  deriving DecidableEq, Repr

/-- `ValidationResults`. -/
structure ValidationResults where
  inputValidation : Bool
  witnessValidation : Bool
  constraintSatisfaction : Option Bool
  details : List String
  deriving DecidableEq, Repr

/-- `CircuitStats`. -/
structure CircuitStats where
  numConstraints : Option ℕ
  numVariables : Option ℕ
  synthesisTimeMs : Option UInt64
  deriving DecidableEq, Repr

/-- `DebugInfo`. -/
structure DebugInfo where
  validationResults : ValidationResults
  circuitStats : CircuitStats
  errorTrace : List String
  fullDebugLog : String
  publicInputsHex : List String
  deriving DecidableEq, Repr

/-- `ProofMetadata`. -/
structure ProofMetadata where
  generationTimeMs : UInt64
  platform : String
  version : String
  deriving DecidableEq, Repr

/-- `AgeSnarkProofV2Extended`. -/
structure AgeSnarkProofV2Extended where
  v : UInt8
  vk : UInt32
  rpHash : Bytes 32
  cutoff : Int32
  issuerVkBytes : Bytes 32
  credNullifier : Bytes 32
  direction : AgeDirection
  proof : List UInt8
  metadata : Option ProofMetadata
  debugInfo : Option DebugInfo
  deriving DecidableEq

/-- What a call finds around it: the configuration (`none` when its lock is poisoned), the clock,
the platform and the log. -/
structure ProverEnv where
  config : Option RuntimeConfig
  synthesisTimeMs : UInt64
  generationTimeMs : UInt64
  platform : String
  version : String
  debugLog : String

/-! ## The gate -/

namespace ValidationResults

/-- A failed check of the public inputs. -/
def flagInput (failed : Bool) (detail : String) (r : ValidationResults) : ValidationResults :=
  if failed then { r with inputValidation := false, details := r.details ++ [detail] } else r

/-- A failed check of the witness. -/
def flagWitness (failed : Bool) (detail : String) (r : ValidationResults) : ValidationResults :=
  if failed then { r with witnessValidation := false, details := r.details ++ [detail] } else r

/-- A warning. -/
def warn (cond : Bool) (detail : String) (r : ValidationResults) : ValidationResults :=
  if cond then { r with details := r.details ++ [detail] } else r

end ValidationResults

open ValidationResults in
/-- `validate_inputs_detailed`. -/
def validateInputsDetailed (pub : AgePublic) (witness : AgeWitness) : ValidationResults :=
  let results : ValidationResults := ⟨true, true, none, []⟩
  let results := results.flagInput (pub.cutoffDays == 0) "Cutoff days is 0"
  let results := results.flagInput (pub.cutoffDays > 36500)
    s!"Cutoff days too large: {pub.cutoffDays.toInt}"
  let results := results.flagWitness (witness.dobDays == 0) "DOB days is 0"
  let results := results.flagWitness (witness.dobDays > 36500) "DOB days exceeds maximum bound"
  let results := results.flagWitness (witness.rBits.length != 128)
    s!"R bits length is {witness.rBits.length} (expected 128)"
  let results := results.flagWitness (witness.sigRjBytes.length != 64)
    s!"Signature length is {witness.sigRjBytes.length} (expected 64)"
  let results := results.flagWitness (witness.iat ≥ witness.exp) "Invalid timestamps: iat >= exp"
  let results := results.flagWitness (witness.cBytes.1 == List.replicate 32 0)
    "Commitment is all zeros"
  let results := results.warn (witness.dobDays > pub.cutoffDays)
    "WARNING: Age check may fail (dob exceeds cutoff)"
  let results :=
    { results with inputValidation := results.inputValidation && results.witnessValidation }
  if results.details.isEmpty then { results with details := ["All validations passed"] }
  else results

namespace ValidationResults

variable (b : Bool) (s : String) (r : ValidationResults)

@[simp] theorem flagInput_inputValidation :
    (r.flagInput b s).inputValidation = (r.inputValidation && !b) := by
  cases b <;> simp [flagInput]

@[simp] theorem flagInput_witnessValidation :
    (r.flagInput b s).witnessValidation = r.witnessValidation := by
  cases b <;> rfl

@[simp] theorem flagWitness_inputValidation :
    (r.flagWitness b s).inputValidation = r.inputValidation := by
  cases b <;> rfl

@[simp] theorem flagWitness_witnessValidation :
    (r.flagWitness b s).witnessValidation = (r.witnessValidation && !b) := by
  cases b <;> simp [flagWitness]

@[simp] theorem warn_inputValidation : (r.warn b s).inputValidation = r.inputValidation := by
  cases b <;> rfl

@[simp] theorem warn_witnessValidation : (r.warn b s).witnessValidation = r.witnessValidation := by
  cases b <;> rfl

end ValidationResults

/-- **What the gate lets through.** -/
theorem validateInputsDetailed_iff (pub : AgePublic) (witness : AgeWitness) :
    (validateInputsDetailed pub witness).inputValidation = true ↔
      pub.cutoffDays ≠ 0 ∧ pub.cutoffDays ≤ 36500 ∧ witness.dobDays ≠ 0 ∧
      witness.dobDays ≤ 36500 ∧ witness.rBits.length = 128 ∧ witness.sigRjBytes.length = 64 ∧
      witness.iat < witness.exp ∧ witness.cBytes.1 ≠ List.replicate 32 0 := by
  unfold validateInputsDetailed
  dsimp only
  rw [apply_ite ValidationResults.inputValidation]
  simp [and_assoc]

/-- A hexadecimal digit. -/
def hexDigit (n : ℕ) : Char := "0123456789abcdef".toList.getD n '0'

/-- `hex::encode`. -/
def hexEncode (bytes : List UInt8) : String :=
  String.ofList (bytes.flatMap fun b => [hexDigit (b.toNat / 16), hexDigit (b.toNat % 16)])

/-- `Scalar::to_repr`. -/
def scalarRepr (x : Scalar) : List UInt8 := leBytes 32 x.val

section

variable {H : Blake2s} (B : Bellman H) (S : Sapling) (J : Jubjub) (G : Groth16)

/-- The block that `prove_age_snark`, `prove_age_snark_auto` and `test_circuit_synthesis` share:
assemble by both routines, and fall back on the manual one where they differ. -/
def publicsFinal (pub : AgePublic) : Except PublicInputError (List Scalar) := do
  let directionBool := pub.direction == .over
  let publics ← assemblePublicInputsDiagnostic B directionBool pub.cutoffDays pub.rpHash
    pub.issuerVkBytes pub.credNullifier
  let publicsManual ← assemblePublicInputsManual B directionBool pub.cutoffDays pub.rpHash
    pub.issuerVkBytes pub.credNullifier
  let useManual := (publics.zip publicsManual).any fun (mp, man) => mp != man
  return if useManual then publicsManual else publics

/-- The two routines agree, so the inputs used are those the verifier assembles. -/
theorem publicsFinal_eq (pub : AgePublic) : publicsFinal B pub =
    assemblePublicInputsCanonical B (pub.direction = .over) pub.cutoffDays pub.rpHash
      pub.issuerVkBytes pub.credNullifier := by
  have hdir : (pub.direction == .over) = decide (pub.direction = .over) := rfl
  have hsame : assemblePublicInputsDiagnostic B = assemblePublicInputsManual B := rfl
  have hcanonical : assemblePublicInputsCanonical B = assemblePublicInputsManual B := rfl
  rw [publicsFinal, hsame, hcanonical, hdir]
  cases assemblePublicInputsManual B (pub.direction = .over) pub.cutoffDays pub.rpHash
    pub.issuerVkBytes pub.credNullifier with
  | error e => rfl
  | ok publics => simp [bind, Except.bind, pure, Except.pure]

/-- So they never fail. -/
theorem publicsFinal_eq_ok (pub : AgePublic) : publicsFinal B pub = .ok (pub.bits.pack B) :=
  (publicsFinal_eq B pub).trans (assemble_eq_ok B _ _ _ _ _)

/-! ## The dry run -/

/-- `test_circuit_synthesis`. -/
def testCircuitSynthesis (env : ProverEnv) (pub : AgePublic) (witness : AgeWitness) :
    Outcome Error CircuitStats :=
  match synthesize B S J ⟨pub, some witness⟩ .prove .init with
  | .ok ((), ops) => do
    -- the inputs expected are assembled for the log, but a failure is returned
    let _ ← Outcome.mapErr (publicsFinal B pub) Error.invalidInput
    Outcome.ensure (TestConstraintSystem.isSatisfied ops) Error.proverFailed
    return {
      numConstraints := some (TestConstraintSystem.numConstraints ops)
      numVariables := some (TestConstraintSystem.numInputs ops)
      synthesisTimeMs := some env.synthesisTimeMs }
  | .error (.error _) => .err .proverFailed
  | .error .panic => .panic

/-- **A dry run that succeeds satisfies the circuit.** -/
theorem testCircuitSynthesis_eq_ok {env : ProverEnv} {pub : AgePublic} {witness : AgeWitness}
    {stats : CircuitStats} : testCircuitSynthesis B S J env pub witness = .ok stats ↔
      ∃ ops, synthesize B S J ⟨pub, some witness⟩ .prove .init = .ok ((), ops) ∧
        Holds (TestConstraintSystem.assignment ops) ops ∧
        stats = ⟨some (TestConstraintSystem.numConstraints ops),
          some (TestConstraintSystem.numInputs ops), some env.synthesisTimeMs⟩ := by
  unfold testCircuitSynthesis
  constructor
  · intro h
    split at h
    next ops hrun =>
      simp only [Outcome.bind_eq_ok, Outcome.ensure_eq_ok, Outcome.pure_eq_ok,
        TestConstraintSystem.isSatisfied_iff] at h
      obtain ⟨-, -, -, hsat, hstats⟩ := h
      exact ⟨ops, hrun, hsat, hstats.symm⟩
    · cases h
    · cases h
  · rintro ⟨ops, hrun, hsat, rfl⟩
    rw [hrun]
    simp only [Outcome.bind_eq_ok, Outcome.mapErr_eq_ok, Outcome.ensure_eq_ok, Outcome.pure_eq_ok,
      TestConstraintSystem.isSatisfied_iff]
    exact ⟨_, publicsFinal_eq_ok B pub, (), hsat, trivial⟩

/-- A dry run never blames the input: the assembly it repeats cannot fail. -/
theorem testCircuitSynthesis_ne_invalidInput {env : ProverEnv} {pub : AgePublic}
    {witness : AgeWitness} : testCircuitSynthesis B S J env pub witness ≠ .err .invalidInput := by
  unfold testCircuitSynthesis
  intro h
  split at h
  · simp [publicsFinal_eq_ok] at h
  · cases h
  · cases h

/-! ## The proof -/

variable {G}
variable (createRandomProof : ℕ → AgeCircuit → G.Parameters → Outcome SynthesisError G.Proof)

/-- `generate_proof_with_retry`, with what each attempt at `create_random_proof` comes to. The
first attempt and the one after a panic are caught when they panic; the one after an error is not. -/
def generateProofWithRetry (params : G.Parameters) (pub : AgePublic) (witness : AgeWitness) :
    Outcome Error G.Proof :=
  let circuit : AgeCircuit := ⟨pub, some witness⟩
  match createRandomProof 1 circuit params with
  | .ok proof => .ok proof
  | .err _ =>
    match createRandomProof 2 circuit params with
    | .ok proof => .ok proof
    | .err _ => .err .proverFailed
    | .panic => .panic
  | .panic =>
    match createRandomProof 3 circuit params with
    | .ok proof => .ok proof
    | .err _ => .err .proverFailed
    | .panic => .err .proverFailed

/-- The attempts never blame the input. -/
theorem generateProofWithRetry_ne_invalidInput {params : G.Parameters} {pub : AgePublic}
    {witness : AgeWitness} :
    generateProofWithRetry createRandomProof params pub witness ≠ .err .invalidInput := by
  dsimp only [generateProofWithRetry]
  cases createRandomProof 1 ⟨pub, some witness⟩ params with
  | ok proof' => simp
  | err e => cases createRandomProof 2 ⟨pub, some witness⟩ params <;> simp
  | panic => cases createRandomProof 3 ⟨pub, some witness⟩ params <;> simp

/-- The proof returned. -/
def ageSnarkProof (env : ProverEnv) (config : RuntimeConfig) (pub : AgePublic) (vkId : UInt32)
    (results : ValidationResults) (stats : CircuitStats) (publics : List Scalar)
    (proofBytes : List UInt8) : AgeSnarkProofV2Extended where
  v := 2
  vk := vkId
  rpHash := pub.rpHash
  cutoff := pub.cutoffDays
  issuerVkBytes := pub.issuerVkBytes
  credNullifier := pub.credNullifier
  direction := pub.direction
  proof := proofBytes
  metadata := some ⟨env.generationTimeMs, env.platform, env.version⟩
  debugInfo :=
    if config.debugLevel ≠ .none then
      some ⟨results, stats, [], env.debugLog, publics.map fun s => hexEncode (scalarRepr s)⟩
    else none

/-- `prove_age_snark`. -/
def proveAgeSnark (env : ProverEnv) (params : G.Parameters) (pub : AgePublic)
    (witness : AgeWitness) (vkId : UInt32) : Outcome Error AgeSnarkProofV2Extended := do
  -- the key is written twice, for its fingerprints
  let _ ← Outcome.okOr (G.writeVk (G.vk params)) Error.internal
  let _ ← Outcome.okOr (G.writeVk (G.vk params)) Error.internal
  let config ← Outcome.okOr env.config Error.internal
  let publics ← Outcome.mapErr (publicsFinal B pub) Error.invalidInput
  let results := validateInputsDetailed pub witness
  Outcome.ensure results.inputValidation Error.invalidInput
  let stats ← testCircuitSynthesis B S J env pub witness
  let proof ← generateProofWithRetry createRandomProof params pub witness
  -- before serialisation
  let pvk := G.prepareVerifyingKey (G.vk params)
  Outcome.ensure (G.verifyProof pvk proof publics) Error.proverFailed
  let proofBytes ← Outcome.okOr (G.writeProof proof) Error.proverFailed
  -- and after
  let proofToVerify ← Outcome.okOr (G.readProof proofBytes) Error.proverFailed
  Outcome.ensure (G.verifyProof pvk proofToVerify publics) Error.proverFailed
  return ageSnarkProof env config pub vkId results stats publics proofBytes

/-- `prove_age_snark_auto`. -/
def proveAgeSnarkAuto (env : ProverEnv) (params : G.Parameters) (cutoffDays : Int32)
    (rpChallenge : Bytes 32) (witness : AgeWitness) (vkId : UInt32) (direction : AgeDirection) :
    Outcome Error AgeSnarkProofV2Extended := do
  let nullifier := S.pedersenNullifier witness.cBytes
  let rpHash := H noPersonalization rpChallenge.1
  let pub : AgePublic := {
    cutoffDays := cutoffDays
    rpHash := rpHash
    issuerVkBytes := witness.issuerVkBytes
    credNullifier := nullifier
    direction := direction }
  let _ ← Outcome.mapErr (publicsFinal B pub) Error.invalidInput
  proveAgeSnark B S J createRandomProof env params pub witness vkId

/-- **When a proof comes out**: the inputs pass the gate, the circuit is satisfied, some attempt
gave a proof, and this proof and its bytes both verify for the packed statement. -/
theorem proveAgeSnark_eq_ok {env : ProverEnv} {params : G.Parameters} {pub : AgePublic}
    {witness : AgeWitness} {vkId : UInt32} {p : AgeSnarkProofV2Extended} :
    proveAgeSnark B S J createRandomProof env params pub witness vkId = .ok p ↔
      ∃ vkBytes config stats proof proofBytes read,
        G.writeVk (G.vk params) = some vkBytes ∧ env.config = some config ∧
        (validateInputsDetailed pub witness).inputValidation = true ∧
        testCircuitSynthesis B S J env pub witness = .ok stats ∧
        generateProofWithRetry createRandomProof params pub witness = .ok proof ∧
        G.verifyProof (G.prepareVerifyingKey (G.vk params)) proof (pub.bits.pack B) = true ∧
        G.writeProof proof = some proofBytes ∧ G.readProof proofBytes = some read ∧
        G.verifyProof (G.prepareVerifyingKey (G.vk params)) read (pub.bits.pack B) = true ∧
        p = ageSnarkProof env config pub vkId (validateInputsDetailed pub witness) stats
          (pub.bits.pack B) proofBytes := by
  unfold proveAgeSnark
  simp only [Outcome.bind_eq_ok, Outcome.okOr_eq_ok, Outcome.mapErr_eq_ok, Outcome.ensure_eq_ok,
    Outcome.pure_eq_ok, publicsFinal_eq_ok]
  constructor
  · rintro ⟨vkBytes, hvk, -, -, config, hconfig, _, hpub, -, hgate, stats, hstats, proof, hproof, -,
      hver, proofBytes, hwrite, read, hread, -, hver', rfl⟩
    obtain rfl := Except.ok.inj hpub
    exact ⟨vkBytes, config, stats, proof, proofBytes, read, hvk, hconfig, hgate, hstats, hproof,
      hver, hwrite, hread, hver', rfl⟩
  · rintro ⟨vkBytes, config, stats, proof, proofBytes, read, hvk, hconfig, hgate, hstats, hproof,
      hver, hwrite, hread, hver', rfl⟩
    exact ⟨vkBytes, hvk, vkBytes, hvk, config, hconfig, _, rfl, (), hgate, stats, hstats, proof,
      hproof, (), hver, proofBytes, hwrite, read, hread, (), hver', rfl⟩

/-- **When the prover blames the input**: the gate refused it, and nothing failed before the gate. -/
theorem proveAgeSnark_eq_invalidInput {env : ProverEnv} {params : G.Parameters} {pub : AgePublic}
    {witness : AgeWitness} {vkId : UInt32} :
    proveAgeSnark B S J createRandomProof env params pub witness vkId = .err .invalidInput ↔
      (∃ vkBytes, G.writeVk (G.vk params) = some vkBytes) ∧ (∃ config, env.config = some config) ∧
        (validateInputsDetailed pub witness).inputValidation = false := by
  unfold proveAgeSnark
  simp [publicsFinal_eq_ok, testCircuitSynthesis_ne_invalidInput,
    generateProofWithRetry_ne_invalidInput]

/-- The convenience function proves the statement it derives from the witness. -/
theorem proveAgeSnarkAuto_eq (env : ProverEnv) (params : G.Parameters) (cutoffDays : Int32)
    (rpChallenge : Bytes 32) (witness : AgeWitness) (vkId : UInt32) (direction : AgeDirection) :
    proveAgeSnarkAuto B S J createRandomProof env params cutoffDays rpChallenge witness vkId
        direction =
      proveAgeSnark B S J createRandomProof env params
        ⟨direction, cutoffDays, H noPersonalization rpChallenge.1, witness.issuerVkBytes,
          S.pedersenNullifier witness.cBytes⟩ witness vkId := by
  rw [proveAgeSnarkAuto, publicsFinal_eq_ok]
  rfl

end

end ProviiCrypto
