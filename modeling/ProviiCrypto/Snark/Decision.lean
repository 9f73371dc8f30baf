import ProviiCrypto.Snark.Flow

/-!
# What the prover decides

`prove_age_snark` takes any witness, also one that no issuer made.

* `canonical_of_run`: a run of the circuit parses the signature, so the `s` of the witness is canonical.
* `satisfied_iff`: the prover's own values satisfy the circuit exactly when the witness spells a regular
  opening that the statement is true of.
* `prover_decides`: so over a complete key the prover decides the relation. A proof comes out exactly
  of such a witness within the gate's bounds; what the gate refuses is an invalid input, and everything
  else fails in the dry run.
-/

namespace ProviiCrypto

open R1CS R1CS.Synth Number Gadgets

variable {H : Blake2s} (B : Bellman H) (S : Sapling) (J : Jubjub)

/-! ## The signature is parsed -/

variable {md : Mode} {n : Counts} {ops : List (Op Scalar)}

theorem canonical_of_allocSig {bytes : Bytes 64} {sig : RJSignature}
    (h : allocSig B J (some bytes) md n = .ok (sig, ops)) :
    leNat (highHalf bytes).1 < subgroupOrder := by
  unfold allocSig at h
  obtain ⟨R, _, _, -, h, -⟩ := bind_eq_ok.mp h
  obtain ⟨s, _, _, hs, -, -⟩ := bind_eq_ok.mp h
  by_contra hlt
  rw [J.fr.fromBytes_eq, if_neg hlt] at hs
  cases hs

/-- **A run parses the signature.** -/
theorem canonical_of_run {pub : AgePublic} {x : AgeWitness} {r : PublicWires × WitnessWires}
    (h : synthesizeWires B S J ⟨pub, some x⟩ md n = .ok (r, ops)) :
    ∃ hlen : x.sigRjBytes.length = 64, leNat (highHalf ⟨x.sigRjBytes, hlen⟩).1 < subgroupOrder := by
  unfold synthesizeWires synthesizeWith at h
  obtain ⟨p, _, _, -, h, -⟩ := bind_eq_ok.mp h
  obtain ⟨ww, _, _, h, -, -⟩ := bind_eq_ok.mp h
  unfold witnessWires at h
  dsimp only at h
  split_ifs at h with hkid hschema hsig hr
  · cases h
  · cases h
  · cases h
  · cases h
  · refine ⟨not_not.mp hsig, ?_⟩
    unfold allocWitness at h
    obtain ⟨dob, _, _, -, h, -⟩ := bind_eq_ok.mp h
    obtain ⟨r, _, _, -, h, -⟩ := bind_eq_ok.mp h
    obtain ⟨vk, _, _, -, h, -⟩ := bind_eq_ok.mp h
    obtain ⟨sig, _, _, h, -, -⟩ := bind_eq_ok.mp h
    exact canonical_of_allocSig B J h

/-! ## What satisfies the circuit -/

/-- The `s` of an opening is the second half of the signature that it spells. -/
theorem AgeWitness.Opens.highHalf_eq {x : AgeWitness} {o : Opening} (h : x.Opens o)
    (hlen : x.sigRjBytes.length = 64) : highHalf ⟨x.sigRjBytes, hlen⟩ = o.s := by
  have hbytes : (⟨x.sigRjBytes, hlen⟩ : Bytes 64) = joinHalves o.R.toBytes o.s :=
    Subtype.ext h.sig.symm
  rw [hbytes, highHalf_joinHalves]

/-- **What the prover's values satisfy.** -/
theorem satisfied_iff {pub : AgePublic} {x : AgeWitness} : Satisfied B S J pub x ↔
    ∃ o, x.Opens o ∧ o.Regular ∧
      Relation H S pub.direction pub.cutoffDays pub.issuerVkBytes pub.credNullifier o := by
  constructor
  · rintro ⟨ops, hrun, hholds⟩
    have hag := TestConstraintSystem.agrees_assignment ops
    have hexp : inputValues ops = (pub.bits.pack B).map some :=
      @synthesize_inputValues H B S J ⟨pub, some x⟩ .init ops hrun
    obtain ⟨⟨p, ww⟩, hrun⟩ := (synthesize_eq_ok B S J).mp hrun
    obtain ⟨-, hspells⟩ := synthesizeWires_computes B S J pub x _ _ _ hrun _ hag
    obtain ⟨hlen, hlt⟩ := canonical_of_run B S J hrun
    have hassemble := publicInputs_of_agrees B hag hexp ▸ pub.assemble_eq B
    obtain ⟨-, o, hr, ho, hrel⟩ := synthesizeWires_sound B S J hrun hholds hassemble
    have hopens := hspells o ho
    exact ⟨o, hopens, ⟨hr, ho.vk.not_small, ho.sig.not_small, hopens.highHalf_eq hlen ▸ hlt⟩, hrel⟩
  · rintro ⟨o, hx, ho, hrel⟩
    exact satisfied_of_opens S J B hx ho hrel

/-! ## The prover -/

variable {G : Groth16}
variable (createRandomProof : ℕ → AgeCircuit → G.Parameters → Outcome SynthesisError G.Proof)

/-- A dry run that does not satisfy the circuit is the prover's failure, unless it panics. -/
theorem testCircuitSynthesis_cases (env : ProverEnv) (pub : AgePublic) (x : AgeWitness) :
    (Satisfied B S J pub x ∧ ∃ stats, testCircuitSynthesis B S J env pub x = .ok stats) ∨
    testCircuitSynthesis B S J env pub x = .err .proverFailed ∨
    testCircuitSynthesis B S J env pub x = .panic ∧
      synthesize B S J ⟨pub, some x⟩ .prove .init = .error .panic := by
  unfold testCircuitSynthesis Satisfied
  cases hrun : synthesize B S J ⟨pub, some x⟩ .prove .init with
  | error e =>
    cases e with
    | error e => exact .inr (.inl rfl)
    | panic => exact .inr (.inr ⟨rfl, rfl⟩)
  | ok r =>
    obtain ⟨⟨⟩, ops⟩ := r
    simp only [publicsFinal_eq_ok]
    cases hsat : TestConstraintSystem.isSatisfied ops with
    | false => exact .inr (.inl rfl)
    | true => exact .inl ⟨⟨ops, rfl, (TestConstraintSystem.isSatisfied_iff ops).mp hsat⟩, _, rfl⟩

/-- Past the key, the configuration and the gate, the dry run decides whether there is a proof to
make. -/
theorem proveAgeSnark_of_dryRun {params : G.Parameters} {vkBytes : List UInt8}
    (hvk : G.writeVk (G.vk params) = some vkBytes) {env : ProverEnv} {config : RuntimeConfig}
    (hconfig : env.config = some config) {pub : AgePublic} {x : AgeWitness} (vkId : UInt32)
    (hgate : (validateInputsDetailed pub x).inputValidation = true) :
    (∀ e, testCircuitSynthesis B S J env pub x = .err e →
      proveAgeSnark B S J createRandomProof env params pub x vkId = .err e) ∧
    (testCircuitSynthesis B S J env pub x = .panic →
      proveAgeSnark B S J createRandomProof env params pub x vkId = .panic) := by
  unfold proveAgeSnark
  simp only [hvk, hconfig, publicsFinal_eq_ok, hgate]
  constructor
  · intro e h
    rw [h]
    rfl
  · intro h
    rw [h]
    rfl

/-- **The prover decides the relation.** Over a complete key, whatever the witness: the input is
blamed exactly when the gate refuses it; a proof comes out exactly when the gate lets the values
through and the witness spells a regular opening that the statement is true of; and otherwise the
prover fails, or panics where the circuit does. -/
theorem prover_decides {params : G.Parameters} (hcomplete : CompleteKey S J B createRandomProof params)
    {env : ProverEnv} {config : RuntimeConfig} (hconfig : env.config = some config) (pub : AgePublic)
    (x : AgeWitness) (vkId : UInt32) :
    let gate := (validateInputsDetailed pub x).inputValidation
    let provable := ∃ o, x.Opens o ∧ o.Regular ∧
      Relation H S pub.direction pub.cutoffDays pub.issuerVkBytes pub.credNullifier o
    let outcome := proveAgeSnark B S J createRandomProof env params pub x vkId
    (outcome = .err .invalidInput ↔ gate = false) ∧
    ((∃ p, outcome = .ok p) ↔ gate = true ∧ provable) ∧
    (gate = true → ¬ provable → outcome = .err .proverFailed ∨
      outcome = .panic ∧ synthesize B S J ⟨pub, some x⟩ .prove .init = .error .panic) := by
  intro gate provable outcome
  obtain ⟨vkBytes, hvk⟩ := hcomplete.written
  refine ⟨?_, ⟨?_, ?_⟩, ?_⟩
  · rw [proveAgeSnark_eq_invalidInput]
    exact ⟨fun h => h.2.2, fun h => ⟨⟨vkBytes, hvk⟩, ⟨config, hconfig⟩, h⟩⟩
  · rintro ⟨p, hp⟩
    obtain ⟨hsat, hgate⟩ := satisfied_of_proveAgeSnark S J B createRandomProof hp
    exact ⟨hgate, (satisfied_iff B S J).mp hsat⟩
  · rintro ⟨hgate, hprovable⟩
    exact proveAgeSnark_of_satisfied S J B createRandomProof hcomplete hconfig vkId hgate
      ((satisfied_iff B S J).mpr hprovable)
  · intro hgate hprovable
    obtain ⟨hfails, hpanics⟩ := proveAgeSnark_of_dryRun B S J createRandomProof hvk hconfig
      vkId hgate
    rcases testCircuitSynthesis_cases B S J env pub x with
      ⟨hsat, -⟩ | herr | ⟨hpanic, hrun⟩
    · exact absurd ((satisfied_iff B S J).mp hsat) hprovable
    · exact .inl (hfails _ herr)
    · exact .inr ⟨hpanics hpanic, hrun⟩

/-- The sample credential is proved for a cutoff that its date of birth passes, and not for the day
before it. -/
theorem prover_decides_cred :
    (∃ p, proveAgeSnark (Reference.bellman Reference.blake2s) Reference.sapling .standard
      (Reference.createRandomProof (Reference.bellman Reference.blake2s)) sampleEnv ()
      (credPublic .over 10000) credWitness 7 = .ok p) ∧
    ¬ ∃ p, proveAgeSnark (Reference.bellman Reference.blake2s) Reference.sapling .standard
      (Reference.createRandomProof (Reference.bellman Reference.blake2s)) sampleEnv ()
      (credPublic .over (Reference.credDob - 1)) credWitness 7 = .ok p := by
  have hdecides := fun pub => prover_decides (Reference.bellman Reference.blake2s) Reference.sapling
    .standard (Reference.createRandomProof (Reference.bellman Reference.blake2s))
    (completeKey_reference _ _ _) (show sampleEnv.config = some ⟨.none⟩ from rfl) pub credWitness 7
  constructor
  · refine (hdecides _).2.1.mpr ⟨?_, (satisfied_iff _ _ _).mp (satisfied_cred .over 10000 (by decide))⟩
    refine (validateInputsDetailed_iff _ _).mpr ?_
    decide +kernel
  · rintro h
    obtain ⟨-, o, hx, -, hrel⟩ := (hdecides _).2.1.mp h
    have hage := hrel.age
    rw [hx.dob] at hage
    exact absurd hage (by decide)

end ProviiCrypto
