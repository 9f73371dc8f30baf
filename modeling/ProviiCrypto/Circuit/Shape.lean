import ProviiCrypto.Circuit.Completeness
import ProviiCrypto.Circuit.Setup

/-!
# The shape of the circuit, and its public inputs

What parameter generation and the verifier rely on without seeing a witness.

* `publicInputs_parity`: the circuit exposes the elements the host assembles, and these determine
  the statement.
* `synthesize_shape`: every two runs emit the same operations up to values, parameter generation's
  included.
-/

namespace ProviiCrypto

open R1CS R1CS.Synth Number Gadgets

variable {H : Blake2s} (B : Bellman H) (S : Sapling) (J : Jubjub)

/-! ## Public inputs -/

/-- Assembly on a statement's values yields the packings of its bits. -/
theorem AgePublic.assemble_eq (pub : AgePublic) :
    assemblePublicInputsCanonical B (pub.direction = .over) pub.cutoffDays pub.rpHash
      pub.issuerVkBytes pub.credNullifier = .ok (pub.bits.pack B) :=
  assemble_eq_ok B _ _ _ _ _

/-- A run of the circuit exposes the packings of the statement's bits. -/
theorem synthesize_inputValues {circuit : AgeCircuit} {n : Counts} {ops : List (Op Scalar)}
    (h : synthesize B S J circuit .prove n = .ok ((), ops)) :
    inputValues ops = (circuit.pub.bits.pack B).map some := by
  obtain ⟨r, hr⟩ := (synthesize_eq_ok B S J).mp h
  exact synthesizeWith_exposes B S J circuit.pub (witnessWires_auxOnly B J circuit.witness) _ _ _ hr

/-- Assembly is injective. -/
theorem assemble_injective {d d' : Bool} {c c' : Int32} {r r' v v' n n' : Bytes 32}
    (h : assemblePublicInputsCanonical B d c r v n =
      assemblePublicInputsCanonical B d' c' r' v' n') :
    d = d' ∧ c = c' ∧ r = r' ∧ v = v' ∧ n = n' := by
  rw [assemble_eq_ok, assemble_eq_ok, Except.ok.injEq] at h
  exact statementBits_injective (StatementBits.WellFormed.pack_injective B
    (wellFormed_statementBits _ _ _ _ _) (wellFormed_statementBits _ _ _ _ _) h)

/-- **Public-input parity and injectivity.** The five packings of step 0, and of every run that
goes on to succeed, expose the eight elements the host assembles; and the elements the host
assembles determine the statement. -/
theorem publicInputs_parity :
    (∀ pub : AgePublic, ∃ xs : List Scalar, xs.length = 8 ∧
      assemblePublicInputsCanonical B (pub.direction = .over) pub.cutoffDays pub.rpHash
        pub.issuerVkBytes pub.credNullifier = .ok xs ∧
      assemblePublicInputsManual B (pub.direction = .over) pub.cutoffDays pub.rpHash
        pub.issuerVkBytes pub.credNullifier = .ok xs ∧
      assemblePublicInputsDiagnostic B (pub.direction = .over) pub.cutoffDays pub.rpHash
        pub.issuerVkBytes pub.credNullifier = .ok xs ∧
      (∀ n, ∃ p ops, publicWires B pub .prove n = .ok (p, ops) ∧ inputValues ops = xs.map some) ∧
      ∀ witness n ops, synthesize B S J ⟨pub, witness⟩ .prove n = .ok ((), ops) →
        inputValues ops = xs.map some) ∧
    ∀ (d d' : Bool) (c c' : Int32) (r r' v v' n n' : Bytes 32),
      assemblePublicInputsCanonical B d c r v n = assemblePublicInputsCanonical B d' c' r' v' n' →
      d = d' ∧ c = c' ∧ r = r' ∧ v = v' ∧ n = n' := by
  refine ⟨fun pub => ⟨pub.bits.pack B, ?_, pub.assemble_eq B, pub.assemble_eq B,
    pub.assemble_eq B, fun n => ?_, fun witness n ops h => ?_⟩,
    fun d d' c c' r r' v v' n n' h => assemble_injective B h⟩
  · have hwf : pub.bits.WellFormed := wellFormed_statementBits _ _ _ _ _
    exact hwf.length_pack B
  · obtain ⟨p, ops, hrun, -⟩ := publicWires_honest B n pub fun _ => True
    exact ⟨p, ops, hrun, publicWires_exposes B pub _ _ _ hrun⟩
  · have hin := synthesize_inputValues B S J h
    exact hin

theorem publicInputs_parity_cred :
    ∃ ops xs, synthesize (Reference.bellman Reference.blake2s) Reference.sapling .standard
        (credCircuit .over 10000) .prove .init = .ok ((), ops) ∧
      assemblePublicInputsCanonical (Reference.bellman Reference.blake2s) true 10000
        (credPublic .over 10000).rpHash spendingKeyGenBytes (credPublic .over 10000).credNullifier =
          .ok xs ∧
      inputValues ops = xs.map some ∧
      ∀ d c r v n, assemblePublicInputsCanonical (Reference.bellman Reference.blake2s) d c r v n =
        .ok xs → d = true ∧ c = 10000 := by
  let B := Reference.bellman Reference.blake2s
  obtain ⟨r, ops, -, hrun, -⟩ := exists_credRun .over 10000 (by decide)
  have hrun := (synthesize_eq_ok B Reference.sapling .standard).mpr ⟨r, hrun⟩
  obtain ⟨hparity, hinj⟩ := publicInputs_parity B Reference.sapling .standard
  obtain ⟨xs, -, hxs, -, -, -, hrunXs⟩ := hparity (credPublic .over 10000)
  refine ⟨ops, xs, hrun, hxs, hrunXs _ _ _ hrun, fun d c r v n h => ?_⟩
  obtain ⟨hd, hc, -⟩ := hinj _ _ _ _ _ _ _ _ _ _ (h.trans hxs.symm)
  exact ⟨hd, hc⟩

/-! ## Layout -/

/-- **The shape of the circuit.** Every two runs that succeed, in whatever modes, with whatever
public values and with a witness or without, emit the same operations up to the values of their
variables; so do the allocations that have a branch for a missing witness. -/
theorem synthesize_shape :
    (∀ (circuit circuit' : AgeCircuit) (md md' : Mode) (n : Counts) (ops ops' : List (Op Scalar)),
      synthesize B S J circuit md n = .ok ((), ops) →
      synthesize B S J circuit' md' n = .ok ((), ops') → layout ops = layout ops') ∧
    (∀ vk vk', SameLayout RJVerificationKey.SameWires (allocVk B J vk) (allocVk B J vk')) ∧
    (∀ sig sig', SameLayout RJSignature.SameWires (allocSig B J sig) (allocSig B J sig')) ∧
    (∀ bytes bytes' k, SameLayout SameWires (allocBytesWitnessFixed B bytes k)
      (allocBytesWitnessFixed B bytes' k)) ∧
    ∀ bits bits' k, SameLayout SameWires (allocBoolVecWitnessFixed B bits k)
      (allocBoolVecWitnessFixed B bits' k) := by
  refine ⟨fun circuit circuit' md md' n ops ops' h h' => ?_, allocVk_layout B J,
    allocSig_layout B J,
    fun bytes bytes' k => (allocatesBits_bytes B bytes k).layout (allocatesBits_bytes B bytes' k),
    fun bits bits' k => (allocatesBits_boolVec B bits k).layout (allocatesBits_boolVec B bits' k)⟩
  obtain ⟨r, hr⟩ := (synthesize_eq_ok B S J).mp h
  obtain ⟨r', hr'⟩ := (synthesize_eq_ok B S J).mp h'
  exact (synthesizeWith_layout B S J circuit.pub circuit'.pub
    (witnessWires_layout B J circuit.witness circuit'.witness) md md' n r r' ops ops' hr hr').1

theorem synthesize_shape_cred :
    ∃ ops ops' ops'', synthesize (Reference.bellman Reference.blake2s) Reference.sapling .standard
        (credCircuit .over 10000) .prove .init = .ok ((), ops) ∧
      synthesize (Reference.bellman Reference.blake2s) Reference.sapling .standard
        (credCircuit .under 5000) .prove .init = .ok ((), ops') ∧
      synthesize (Reference.bellman Reference.blake2s) Reference.sapling .standard
        ⟨credPublic .over 10000, none⟩ .setup .init = .ok ((), ops'') ∧
      layout ops = layout ops' ∧ layout ops = layout ops'' := by
  let B := Reference.bellman Reference.blake2s
  obtain ⟨r, ops, -, hrun, -⟩ := exists_credRun .over 10000 (by decide)
  obtain ⟨r', ops', -, hrun', -⟩ := exists_credRun .under 5000 (by decide)
  have hrun := (synthesize_eq_ok B Reference.sapling .standard).mpr ⟨r, hrun⟩
  have hrun' := (synthesize_eq_ok B Reference.sapling .standard).mpr ⟨r', hrun'⟩
  obtain ⟨⟨⟩, ops'', hsetup, -⟩ := synthesize_setsUp (Reference.bellman_setsUp Reference.blake2s)
    Reference.sapling .standard (credPublic .over 10000) .init
  have hshape := (synthesize_shape B Reference.sapling .standard).1
  exact ⟨ops, ops', ops'', hrun, hrun', hsetup, hshape _ _ _ _ _ _ _ hrun hrun',
    hshape _ _ _ _ _ _ _ hrun hsetup⟩

end ProviiCrypto
