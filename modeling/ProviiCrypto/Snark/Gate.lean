import ProviiCrypto.Circuit.Run
import ProviiCrypto.Snark.Agreement

/-!
# The prover's gate

`validateInputsDetailed` stands before the circuit with range checks of its own. On what the circuit
accepts, the sizes are right already and every day within the bounds passes, but for one:
`gate_accepts_iff`.
-/

namespace ProviiCrypto

open R1CS Number

variable {H : Blake2s} (B : Bellman H) (S : Sapling) (J : Jubjub) {G : Groth16}
variable (createRandomProof : ℕ → AgeCircuit → G.Parameters → Outcome SynthesisError G.Proof)

/-- **What the gate refuses of the provable**: within the bounds of its range checks, the day 0,
as a cutoff or as a date of birth, and no other. The prover blames the input in that case only. -/
theorem gate_accepts_iff {pub : AgePublic} {x : AgeWitness} (hsat : Satisfied B S J pub x)
    (hcutoff : pub.cutoffDays ≤ 36500) (hdob : x.dobDays ≤ 36500) (htime : x.iat < x.exp)
    (hc : x.cBytes.1 ≠ List.replicate 32 0) :
    ((validateInputsDetailed pub x).inputValidation = true ↔
      pub.cutoffDays ≠ 0 ∧ x.dobDays ≠ 0) ∧
    ∀ (env : ProverEnv) (params : G.Parameters) (vkId : UInt32),
      proveAgeSnark B S J createRandomProof env params pub x vkId = .err .invalidInput ↔
        (∃ vkBytes, G.writeVk (G.vk params) = some vkBytes) ∧ (∃ config, env.config = some config) ∧
          (pub.cutoffDays = 0 ∨ x.dobDays = 0) := by
  obtain ⟨hsized, -⟩ := hsat.opens
  have hgate : (validateInputsDetailed pub x).inputValidation = true ↔
      pub.cutoffDays ≠ 0 ∧ x.dobDays ≠ 0 := by
    rw [validateInputsDetailed_iff]
    constructor
    · rintro ⟨h0, -, hd0, -⟩
      exact ⟨h0, hd0⟩
    · rintro ⟨h0, hd0⟩
      exact ⟨h0, hcutoff, hd0, hdob, hsized.r, hsized.sig, htime, hc⟩
  refine ⟨hgate, fun env params vkId => ?_⟩
  have hrefuse : (validateInputsDetailed pub x).inputValidation = false ↔
      pub.cutoffDays = 0 ∨ x.dobDays = 0 := by
    rw [← Bool.not_eq_true, hgate, not_and_or, not_not, not_not]
  rw [proveAgeSnark_eq_invalidInput, hrefuse]

theorem gate_accepts_iff_cred :
    (validateInputsDetailed (credPublic .over 10000) credWitness).inputValidation = true ∧
      proveAgeSnark (Reference.bellman Reference.blake2s) Reference.sapling .standard
        (Reference.createRandomProof (Reference.bellman Reference.blake2s)) sampleEnv ()
        (credPublic .over 10000) credWitness 7 ≠ .err .invalidInput := by
  obtain ⟨hgate, hprove⟩ := gate_accepts_iff (Reference.bellman Reference.blake2s) Reference.sapling
    .standard (Reference.createRandomProof (Reference.bellman Reference.blake2s))
    (satisfied_cred .over 10000 (by decide)) (by decide) (by decide) (by decide)
    (by decide +kernel)
  refine ⟨hgate.mpr (by decide), fun h => ?_⟩
  obtain ⟨-, -, h0⟩ := (hprove sampleEnv () 7).mp h
  exact absurd h0 (by decide)

/-- With the cutoff on the day 0, a statement that the circuit accepts does not reach it. -/
theorem gate_refuses_epoch :
    Satisfied (Reference.bellman Reference.blake2s) Reference.sapling .standard
        (credPublic .under 0) credWitness ∧
      (credPublic .under 0).cutoffDays ≤ 36500 ∧ credWitness.dobDays ≤ 36500 ∧
      credWitness.iat < credWitness.exp ∧ credWitness.Sized ∧
      credWitness.cBytes.1 ≠ List.replicate 32 0 ∧
      (validateInputsDetailed (credPublic .under 0) credWitness).inputValidation = false ∧
      proveAgeSnark (Reference.bellman Reference.blake2s) Reference.sapling .standard
        (Reference.createRandomProof (Reference.bellman Reference.blake2s)) sampleEnv ()
        (credPublic .under 0) credWitness 7 = .err .invalidInput := by
  have hgate : (validateInputsDetailed (credPublic .under 0) credWitness).inputValidation = false := by
    rw [← Bool.not_eq_true, validateInputsDetailed_iff]
    exact fun h => h.1 rfl
  refine ⟨satisfied_cred .under 0 (by decide), by decide, by decide, by decide, ⟨rfl, rfl, rfl, rfl⟩,
    by decide +kernel, hgate, ?_⟩
  exact (proveAgeSnark_eq_invalidInput _ _ _ _).mpr ⟨⟨_, rfl⟩, ⟨_, rfl⟩, hgate⟩

end ProviiCrypto
