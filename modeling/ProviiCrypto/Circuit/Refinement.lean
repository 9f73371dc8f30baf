import ProviiCrypto.Circuit.Completeness

/-!
# The circuit refines the relation

The constraints of a run mention neither the statement nor the witness that the run was made for, so
parameter generation's are everybody's. What satisfies them is settled by `Relation` alone:

* `Opening.Admissible`: what the allocation of a witness asks of an opening.
* `spells_iff`: with the public inputs of a statement, the openings that satisfying assignments
  spell are the admissible openings the statement is true of, and no others.
* `circuit_refines_relation`: so a statement is provable exactly when it is true of an admissible
  opening.
-/

namespace ProviiCrypto

open R1CS R1CS.Synth Number Gadgets

/-! ## Small order -/

/-- **What `assert_not_small_order` asks**: not to be of order sixteen. -/
theorem eight_nsmul_u_ne_zero_iff (P : Point) : (8 • P).u ≠ 0 ↔ 16 • P ≠ 0 := by
  rw [ne_eq, ← Point.two_nsmul_eq_zero_iff, ← mul_nsmul']

/-- What the allocation of a witness asks of an opening: the length of the randomness, and points
that are not of small order. -/
structure Opening.Admissible (o : Opening) : Prop where
  length_r : o.r.length = 128
  vk : 16 • o.VK ≠ 0
  sig : 16 • o.R ≠ 0

instance (o : Opening) : Decidable o.Admissible :=
  decidable_of_iff (o.r.length = 128 ∧ 16 • o.VK ≠ 0 ∧ 16 • o.R ≠ 0)
    ⟨fun ⟨hr, hvk, hsig⟩ => ⟨hr, hvk, hsig⟩, fun h => ⟨h.length_r, h.vk, h.sig⟩⟩

/-- Openings on the wires are admissible. -/
theorem WitnessReads.admissible {w : Assignment Scalar} {x : WitnessWires} {o : Opening}
    (h : WitnessReads w x o) (hr : o.r.length = 128) : o.Admissible :=
  ⟨hr, (eight_nsmul_u_ne_zero_iff _).mp h.vk.not_small,
    (eight_nsmul_u_ne_zero_iff _).mp h.sig.not_small⟩

/-! ## The same wires spell the same opening -/

theorem Gadgets.EncodedReads.of_sameWires {w : Assignment Scalar} {p p' : EdwardsPoint}
    {bits bits' : List Boolean} {P : Point} (h : EncodedReads w p' bits' P)
    (hp : p.SameWires p') (hbits : SameWires bits bits') : EncodedReads w p bits P :=
  ⟨⟨hp.u.symm ▸ h.point.u, hp.v.symm ▸ h.point.v⟩, hbits.readsAll h.bits, h.not_small⟩

/-- An assignment spells one opening on wires that are the same. -/
theorem WitnessWires.SameWires.reads {w : Assignment Scalar} {x x' : WitnessWires} {o : Opening}
    (h : x.SameWires x') (ho : WitnessReads w x' o) : WitnessReads w x o where
  dob := h.dob.readsAll ho.dob
  r := h.r.readsAll ho.r
  s := h.sig.s.readsAll ho.s
  v := h.v.readsAll ho.v
  kid := h.kid.readsAll ho.kid
  c := h.c.readsAll ho.c
  iat := h.iat.readsAll ho.iat
  exp := h.exp.readsAll ho.exp
  schema := h.schema.readsAll ho.schema
  vk := ho.vk.of_sameWires h.vk.point h.vk.bits
  sig := ho.sig.of_sameWires h.sig.point h.sig.r

/-! ## Refinement -/

variable {H : Blake2s} (B : Bellman H) (S : Sapling) (J : Jubjub)

/-- A prover that parses nothing allocates any admissible opening. -/
theorem allocOpening_honest {o : Opening} (ho : o.Admissible) (n : Counts)
    (pre : Assignment Scalar → Prop) :
    Honest n (allocWitness B J (allocSigParsed B o.R (some o.R.toBytes) (some o.s)) o.values) pre
      (fun ww => WitnessKnown ww o) fun w ww => WitnessReads w ww o :=
  allocWitness_honest B J
    (fun n pre => allocSigParsed_honest B n ((eight_nsmul_u_ne_zero_iff _).mpr ho.sig) o.s pre)
    ho.length_r ((eight_nsmul_u_ne_zero_iff _).mpr ho.vk) n pre

/-- **The openings that satisfy the constraints.** Whatever run the constraints are of, an opening is
spelled by an assignment that satisfies them, with the public inputs of a statement, exactly when it
is admissible and in the relation. -/
theorem spells_iff {circuit : AgeCircuit} {md : Mode} {p : PublicWires} {x : WitnessWires}
    {ops : List (Op Scalar)} (hrun : synthesizeWires B S J circuit md .init = .ok ((p, x), ops))
    (d : AgeDirection) (cutoff : Int32) (rp vk nul : Bytes 32) (o : Opening) :
    (∃ w, Holds w ops ∧ assemblePublicInputsCanonical B (d = .over) cutoff rp vk nul =
        .ok (publicInputs w) ∧ WitnessReads w x o) ↔
      o.Admissible ∧ Relation H S d cutoff vk nul o := by
  constructor
  · rintro ⟨w, hw, hin, hreads⟩
    obtain ⟨-, o', hr, ho', hrel⟩ := synthesizeWires_sound B S J hrun hw hin
    obtain rfl := hreads.unique ho'
    exact ⟨ho'.admissible hr, hrel⟩
  · rintro ⟨ho, hrel⟩
    -- a prover for this statement who allocates the opening as it is
    let pub : AgePublic := ⟨d, cutoff, rp, vk, nul⟩
    let witness := allocWitness B J (allocSigParsed B o.R (some o.R.toBytes) (some o.s)) o.values
    have haux : AuxOnly witness := allocWitness_auxOnly B J (allocSigParsed_auxOnly B _ _ _) _
    have hrel : Relation H S pub.direction pub.cutoffDays pub.issuerVkBytes pub.credNullifier o :=
      hrel
    obtain ⟨⟨p', x'⟩, ops', hrun', -, hw⟩ := synthesizeWith_complete B S J haux
      (fun n pre => allocOpening_honest B J ho n pre) hrel
    obtain ⟨w, hag, -⟩ := exists_agrees .blank ops' .init le_rfl
    obtain ⟨hholds, hin, -, hreads⟩ := hw w hag
    -- its constraints and its wires are those of the given run
    obtain ⟨hlayout, -, hwires⟩ := synthesizeWith_layout B S J circuit.pub pub
      (witnessWires_layout_alloc B J circuit.witness
        (fun sig => allocSig_layout_parsed B J sig _ _ _) o.values) md .prove .init _ _ ops ops'
      hrun hrun'
    exact ⟨w, (holds_congr w hlayout).mpr hholds, hin ▸ assemble_eq_ok B _ _ _ _ _,
      hwires.reads hreads⟩

/-- **The circuit refines the relation.** Over the constraints of any run that succeeds, with a
witness or without, a statement can be proved exactly when it is true of an admissible opening; and
the assignments that prove it spell all these openings, and only these. -/
theorem circuit_refines_relation {circuit : AgeCircuit} {md : Mode} {p : PublicWires}
    {x : WitnessWires} {ops : List (Op Scalar)}
    (hrun : synthesizeWires B S J circuit md .init = .ok ((p, x), ops)) (d : AgeDirection)
    (cutoff : Int32) (rp vk nul : Bytes 32) :
    ((∃ w, Holds w ops ∧ assemblePublicInputsCanonical B (d = .over) cutoff rp vk nul =
        .ok (publicInputs w)) ↔
      ∃ o : Opening, o.Admissible ∧ Relation H S d cutoff vk nul o) ∧
    ∀ o, (∃ w, Holds w ops ∧ assemblePublicInputsCanonical B (d = .over) cutoff rp vk nul =
        .ok (publicInputs w) ∧ WitnessReads w x o) ↔
      o.Admissible ∧ Relation H S d cutoff vk nul o := by
  refine ⟨⟨?_, ?_⟩, spells_iff B S J hrun d cutoff rp vk nul⟩
  · rintro ⟨w, hw, hin⟩
    obtain ⟨-, o, hr, ho, hrel⟩ := synthesizeWires_sound B S J hrun hw hin
    exact ⟨o, ho.admissible hr, hrel⟩
  · rintro ⟨o, ho⟩
    obtain ⟨w, hw, hin, -⟩ := (spells_iff B S J hrun d cutoff rp vk nul o).mpr ho
    exact ⟨w, hw, hin⟩

/-- The sample credential's opening is admissible, whatever its `s`. -/
theorem admissible_credOpening (s : Bytes 32) : (credOpening s).Admissible :=
  ⟨rfl, (eight_nsmul_u_ne_zero_iff _).mp spendingKeyGenerator_regular,
    (eight_nsmul_u_ne_zero_iff _).mp spendingKeyGenerator_regular⟩

/-- The constraints of a run for one statement prove another. -/
theorem circuit_refines_relation_cred :
    ∃ p x ops, synthesizeWires (Reference.bellman Reference.blake2s) Reference.sapling .standard
        (credCircuit .over 10000) .prove .init = .ok ((p, x), ops) ∧
      ∃ w, Holds w ops ∧ assemblePublicInputsCanonical (Reference.bellman Reference.blake2s) false
        5000 rpChallenge spendingKeyGenBytes (credPublic .under 5000).credNullifier =
          .ok (publicInputs w) := by
  obtain ⟨⟨p, x⟩, ops, -, hrun, -⟩ := exists_credRun .over 10000 (by decide)
  obtain ⟨hprovable, -⟩ := circuit_refines_relation (Reference.bellman Reference.blake2s)
    Reference.sapling .standard hrun .under 5000 rpChallenge spendingKeyGenBytes
    (credPublic .under 5000).credNullifier
  let s : Bytes 32 := ⟨leBytes 32 Reference.credS, length_leBytes _ _⟩
  have hs : leNat s.1 = Reference.credS := leNat_leBytes_of_lt (Reference.credS_lt.trans (by norm_num))
  exact ⟨p, x, ops, hrun, hprovable.mpr ⟨credOpening s, admissible_credOpening s,
    relation_credOpening (d := .under) (by rw [hs]) (by decide)⟩⟩

end ProviiCrypto
