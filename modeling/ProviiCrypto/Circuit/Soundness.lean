import ProviiCrypto.Circuit.Completeness

/-!
# What a satisfied circuit proves

The three readings of an assignment that satisfies the constraints and whose public inputs are a
verifier's, whoever chose it:

* `age_sound`: the date of birth on the commitment's wires satisfies the verifier's cutoff, in the
  verifier's direction; and nothing else about it is constrained by the age check.
* `relation_sound`: the wires open a credential in the relation.
* `host_accepts_iff`: the signature on the wires is one the host accepts exactly when its points
  are of prime order and its `s` is canonical and not zero, which no constraint says.
-/

namespace ProviiCrypto

open R1CS R1CS.Synth Number Gadgets

variable {H : Blake2s} (B : Bellman H) (S : Sapling) (J : Jubjub)

/-! ## Age -/

/-- **Every allowed date of birth satisfies the age check**, on whatever wires. -/
theorem ageCheck_satisfiable {directionBit : Boolean} {cutoffBits dobBits : List Boolean} {md : Mode}
    {n : Counts} {ops : List (Op Scalar)}
    (hrun : ageCheck B directionBit cutoffBits dobBits md n = .ok ((), ops)) (hn : 1 ≤ n.inputs)
    (hb : ∀ b ∈ directionBit :: (cutoffBits ++ dobBits), b.Below n) {w₀ : Assignment Scalar}
    {d : AgeDirection} {cutoff dob : Int32} (hd : directionBit.Reads w₀ (d = .over))
    (hc : ReadsAll w₀ cutoffBits (toBits 32 (biasForCircuit cutoff).toNat))
    (hx : ReadsAll w₀ dobBits (toBits 32 (biasForCircuit dob).toNat)) (h : d.Allows cutoff dob) :
    ∃ w : Assignment Scalar, (∀ x : Variable, x.Below n → w x = w₀ x) ∧ Holds w ops := by
  -- the same wires with their values known: an honest run of the same layout
  obtain ⟨d', hdw, hdk⟩ := hd.exists_known
  obtain ⟨c', hcw, hck⟩ := hc.exists_known
  obtain ⟨x', hxw, hxk⟩ := hx.exists_known
  have hmem : ∀ b ∈ cutoffBits ++ dobBits, b.Below n := fun b h => hb b (List.mem_cons_of_mem _ h)
  refine (ageCheck_honest B n hdk hck hxk h).satisfiable_layout (ageCheck_layout B hdw hcw hxw) hn w₀
    (fun w hold => ?_) hrun
  have hdr := hd.congr (hb _ List.mem_cons_self) hold
  have hcr := hc.congr (fun b hb => hmem b (List.mem_append_left _ hb)) hold
  have hxr := hx.congr (fun b hb => hmem b (List.mem_append_right _ hb)) hold
  exact ⟨(hdw.reads_iff _).mp hdr, hcw.symm.readsAll hcr, hxw.symm.readsAll hxr⟩

/-- **Age soundness.** Under an assignment that satisfies the circuit and has the public inputs of a
statement, the date of birth on the commitment's wires satisfies the statement's cutoff in the
statement's direction. Conversely the age check is satisfiable for every date of birth that does. -/
theorem age_sound :
    (∀ (circuit : AgeCircuit) (md : Mode) (p : PublicWires) (x : WitnessWires)
      (ops : List (Op Scalar)) (w : Assignment Scalar),
      synthesizeWires B S J circuit md .init = .ok ((p, x), ops) → Holds w ops →
      ∀ (d : AgeDirection) (cutoff : Int32) (rp vk nul : Bytes 32),
        assemblePublicInputsCanonical B (d = .over) cutoff rp vk nul = .ok (publicInputs w) →
        x.dobBits.length = 32 ∧
          d.Allows cutoff (unbiasFromCircuit (UInt32.ofNat (ofBits (readBits w x.dobBits))))) ∧
    ∀ (directionBit : Boolean) (cutoffBits dobBits : List Boolean) (md : Mode) (n : Counts)
      (ops : List (Op Scalar)) (w₀ : Assignment Scalar) (d : AgeDirection) (cutoff dob : Int32),
      ageCheck B directionBit cutoffBits dobBits md n = .ok ((), ops) → 1 ≤ n.inputs →
      (∀ b ∈ directionBit :: (cutoffBits ++ dobBits), b.Below n) →
      directionBit.Reads w₀ (d = .over) →
      ReadsAll w₀ cutoffBits (toBits 32 (biasForCircuit cutoff).toNat) →
      ReadsAll w₀ dobBits (toBits 32 (biasForCircuit dob).toNat) → d.Allows cutoff dob →
      ∃ w : Assignment Scalar, (∀ x : Variable, x.Below n → w x = w₀ x) ∧ Holds w ops := by
  refine ⟨fun circuit md p x ops w hrun hw d cutoff rp vk nul hin => ?_,
    fun _ _ _ _ _ _ _ _ _ _ hrun hn hb hd hc hx h => ageCheck_satisfiable B hrun hn hb hd hc hx h⟩
  obtain ⟨-, o, -, ho, hrel⟩ := synthesizeWires_sound B S J hrun hw hin
  have hdob : ofBits (readBits w x.dobBits) = (biasForCircuit o.dob).toNat := by
    rw [ReadsAll.readBits_eq ho.dob, ofBits_toBits_of_lt (biasForCircuit o.dob).toNat_lt]
  refine ⟨ho.dob.length_eq.trans (length_toBits _ _), ?_⟩
  rw [hdob, UInt32.ofNat_toNat, unbias_bias]
  exact hrel.age

theorem age_sound_cred :
    (∃ p x ops w, synthesizeWires (Reference.bellman Reference.blake2s) Reference.sapling .standard
        (credCircuit .over 10000) .prove .init = .ok ((p, x), ops) ∧ Holds w ops ∧
      assemblePublicInputsCanonical (Reference.bellman Reference.blake2s) true 10000
        (credPublic .over 10000).rpHash spendingKeyGenBytes (credPublic .over 10000).credNullifier =
          .ok (publicInputs w) ∧ x.dobBits.length = 32 ∧
      unbiasFromCircuit (UInt32.ofNat (ofBits (readBits w x.dobBits))) ≤ 10000) ∧
    ∃ ops w, ageCheck (Reference.bellman Reference.blake2s) (.constant true)
        ((toBits 32 (biasForCircuit 10000).toNat).map .constant)
        ((toBits 32 (biasForCircuit (-5)).toNat).map .constant) .prove .init = .ok ((), ops) ∧
      Holds w ops := by
  constructor
  · obtain ⟨⟨p, x⟩, ops, w, hrun, hw, hin⟩ := exists_credRun .over 10000 (by decide)
    exact ⟨p, x, ops, w, hrun, hw, hin, (age_sound (Reference.bellman Reference.blake2s)
      Reference.sapling .standard).1 _ .prove p x ops w hrun hw .over 10000 _ _ _ hin⟩
  · obtain ⟨⟨⟩, ops, hrun, -⟩ := ageCheck_honest (Reference.bellman Reference.blake2s) .init
      (d := .over) ((Boolean.known_constant _ _).mpr rfl) (knownAll_constant _)
      (knownAll_constant _) (show AgeDirection.Allows .over 10000 (-5) by decide)
    obtain ⟨w, -, hw⟩ := (age_sound (Reference.bellman Reference.blake2s) Reference.sapling
      .standard).2 _ _ _ .prove .init ops .blank .over 10000 (-5) hrun le_rfl
      (by simp only [List.mem_cons, List.mem_append, List.mem_map]
          rintro _ (rfl | ⟨_, -, rfl⟩ | ⟨_, -, rfl⟩) <;> trivial)
      ((Boolean.reads_constant _).mpr rfl) (readsAll_constant _) (readsAll_constant _) (by decide)
    exact ⟨ops, w, hrun, hw⟩

/-! ## The relation -/

/-- **Soundness.** An assignment that satisfies the circuit and has the public inputs of a statement
spells on the witness wires an opening, and only one, that the statement is true of. -/
theorem relation_sound {circuit : AgeCircuit} {md : Mode} {p : PublicWires} {x : WitnessWires}
    {ops : List (Op Scalar)} {w : Assignment Scalar}
    (hrun : synthesizeWires B S J circuit md .init = .ok ((p, x), ops)) (hw : Holds w ops)
    {d : AgeDirection} {cutoff : Int32} {rp vk nul : Bytes 32}
    (hin : assemblePublicInputsCanonical B (d = .over) cutoff rp vk nul = .ok (publicInputs w)) :
    ∃ o : Opening, WitnessReads w x o ∧ (∀ o', WitnessReads w x o' → o' = o) ∧ o.r.length = 128 ∧
      Relation H S d cutoff vk nul o := by
  obtain ⟨-, o, hr, ho, hrel⟩ := synthesizeWires_sound B S J hrun hw hin
  exact ⟨o, ho, fun o' ho' => ho'.unique ho, hr, hrel⟩

theorem relation_sound_cred :
    ∃ p x ops w, synthesizeWires (Reference.bellman Reference.blake2s) Reference.sapling .standard
        (credCircuit .over 10000) .prove .init = .ok ((p, x), ops) ∧ Holds w ops ∧
      assemblePublicInputsCanonical (Reference.bellman Reference.blake2s) true 10000
        (credPublic .over 10000).rpHash spendingKeyGenBytes (credPublic .over 10000).credNullifier =
          .ok (publicInputs w) ∧
      ∃ o : Opening, WitnessReads w x o ∧ (∀ o', WitnessReads w x o' → o' = o) ∧ o.r.length = 128 ∧
        Relation Reference.blake2s Reference.sapling .over 10000 spendingKeyGenBytes
          (credPublic .over 10000).credNullifier o := by
  obtain ⟨⟨p, x⟩, ops, w, hrun, hw, hin⟩ := exists_credRun .over 10000 (by decide)
  exact ⟨p, x, ops, w, hrun, hw, hin, relation_sound _ _ _ hrun hw (d := .over) hin⟩

/-! ## The host's verifier -/

/-- The credential of an opening. -/
def Opening.msg (o : Opening) : CredMsgV2 where
  v := o.v
  kid := o.kid.1
  c := o.c
  iat := o.iat
  exp := o.exp
  schema := o.schema.1

/-- The signature of an opening, encoded. -/
def Opening.sigBytes (o : Opening) : Bytes 64 := joinHalves o.R.toBytes o.s

/-- The signature wires spell it. -/
theorem WitnessReads.sigBytes {w : Assignment Scalar} {x : WitnessWires} {o : Opening}
    (ho : WitnessReads w x o) :
    ReadsAll w (x.sigRj.rBytesBits ++ x.sigRj.sBytesBits) (bytesBits o.sigBytes.1) := by
  unfold Opening.sigBytes
  rw [joinHalves, bytesBits_append, Point.bytesBits_toBytes]
  exact ho.sig.bits.append ho.s

/-- The points of the opening are of prime order, and its `s` is canonical and not zero. -/
structure Opening.Canonical (o : Opening) : Prop where
  vk : PrimeOrder o.VK
  sig : PrimeOrder o.R
  pos : 0 < leNat o.s.1
  lt : leNat o.s.1 < subgroupOrder

/-- In the relation, the host accepts exactly the canonical openings. -/
theorem verify_opening_iff {d : AgeDirection} {cutoff : Int32} {vk nul : Bytes 32} {o : Opening}
    (hrel : Relation H S d cutoff vk nul o) (hvk : o.VK ≠ 0) (hR : o.R ≠ 0) :
    verifyCredV2 H J.fr J.subgroup o.msg o.sigBytes vk = .ok () ↔ o.Canonical := by
  obtain ⟨bytes, hbytes, heq⟩ := hrel.signature
  rw [verifyCredV2_subgroup_eq_ok, Opening.sigBytes, lowHalf_joinHalves, highHalf_joinHalves]
  constructor
  · rintro ⟨VK, R, -, ⟨hVK, hVKp, -⟩, ⟨hRe, hRp, -⟩, ⟨hpos, hlt⟩, -, -⟩
    obtain rfl := Point.toBytes_injective (hVK.trans hrel.key.symm)
    obtain rfl := Point.toBytes_injective hRe
    exact ⟨hVKp, hRp, hpos, hlt⟩
  · intro h
    exact ⟨o.VK, o.R, bytes, ⟨hrel.key, h.vk, hvk⟩, ⟨rfl, h.sig, hR⟩, ⟨h.pos, h.lt⟩, hbytes, heq⟩

/-- **What the host makes of a satisfied circuit**: an assignment that satisfies the constraints
spells a key, a signature and a credential, and the host decodes and verifies them exactly when the
points are of prime order and `s` is canonical and not zero. -/
theorem host_accepts_iff {circuit : AgeCircuit} {md : Mode} {p : PublicWires} {x : WitnessWires}
    {ops : List (Op Scalar)} {w : Assignment Scalar}
    (hrun : synthesizeWires B S J circuit md .init = .ok ((p, x), ops)) (hw : Holds w ops)
    {d : AgeDirection} {cutoff : Int32} {rp vk nul : Bytes 32}
    (hin : assemblePublicInputsCanonical B (d = .over) cutoff rp vk nul = .ok (publicInputs w)) :
    ∃ o : Opening, WitnessReads w x o ∧
      ReadsAll w (x.sigRj.rBytesBits ++ x.sigRj.sBytesBits) (bytesBits o.sigBytes.1) ∧
      (((∃ key, VerificationKey.fromBytes J.subgroup vk = .ok key) ∧
        (∃ sig, Signature.fromBytes J.fr J.subgroup o.sigBytes = .ok sig) ∧
        verifyCredV2 H J.fr J.subgroup o.msg o.sigBytes vk = .ok ()) ↔ o.Canonical) := by
  obtain ⟨-, o, -, ho, hrel⟩ := synthesizeWires_sound B S J hrun hw hin
  have h0 : ∀ {P : Point}, (8 • P).u ≠ 0 → P ≠ 0 := by
    rintro _ h rfl
    exact h (congrArg Edwards.Point.u (smul_zero 8))
  refine ⟨o, ho, ho.sigBytes, ?_⟩
  rw [← verify_opening_iff S J hrel (h0 ho.vk.not_small) (h0 ho.sig.not_small)]
  refine ⟨fun h => h.2.2, fun h => ?_⟩
  obtain ⟨key, sig, -, hkey, hsig, -⟩ := verifyCredV2_eq_ok H J.fr J.subgroup |>.mp h
  exact ⟨⟨key, hkey⟩, ⟨sig, hsig⟩, h⟩

theorem host_accepts_iff_cred :
    ∃ p x ops w, synthesizeWires (Reference.bellman Reference.blake2s) Reference.sapling .standard
        (credCircuit .over 10000) .prove .init = .ok ((p, x), ops) ∧ Holds w ops ∧
      ∃ o : Opening, WitnessReads w x o ∧
        ReadsAll w (x.sigRj.rBytesBits ++ x.sigRj.sBytesBits) (bytesBits o.sigBytes.1) ∧
        (((∃ key, VerificationKey.fromBytes Jubjub.standard.subgroup spendingKeyGenBytes = .ok key) ∧
          (∃ sig, Signature.fromBytes Jubjub.standard.fr Jubjub.standard.subgroup o.sigBytes =
            .ok sig) ∧
          verifyCredV2 Reference.blake2s Jubjub.standard.fr Jubjub.standard.subgroup o.msg
            o.sigBytes spendingKeyGenBytes = .ok ()) ↔ o.Canonical) := by
  obtain ⟨⟨p, x⟩, ops, w, hrun, hw, hin⟩ := exists_credRun .over 10000 (by decide)
  exact ⟨p, x, ops, w, hrun, hw, host_accepts_iff _ _ _ hrun hw (d := .over) hin⟩

/-- The signature of the sample credential with the order added to its `s`. -/
def malleatedS : Bytes 32 := ⟨leBytes 32 (Reference.credS + subgroupOrder), length_leBytes _ _⟩

theorem leNat_malleatedS : leNat malleatedS.1 = Reference.credS + subgroupOrder :=
  leNat_leBytes_of_lt ((Nat.add_lt_add_right Reference.credS_lt _).trans (by norm_num))

/-- The host does not decode it. -/
theorem fromBytes_malleatedS :
    Signature.fromBytes Jubjub.standard.fr Jubjub.standard.subgroup
      (joinHalves spendingKeyGenBytes malleatedS) = .error .invalidSignatureBytes := by
  have hs : Jubjub.standard.fr.fromBytes malleatedS = none := by
    rw [FrBytes.fromBytes_eq, leNat_malleatedS, if_neg (by omega)]
  unfold Signature.fromBytes
  rw [lowHalf_joinHalves, highHalf_joinHalves, hs]
  cases Jubjub.standard.subgroup.fromBytes spendingKeyGenBytes with
  | none => rfl
  | some r => by_cases h : r = 0 <;> simp [h]

/-- An assignment satisfies the circuit of the sample credential, with the statement's public inputs,
and spells a signature whose `s` is not canonical: the host refuses to decode it. -/
theorem host_rejects_malleated :
    ∃ p x ops w, synthesizeWires (Reference.bellman Reference.blake2s) Reference.sapling .standard
        (credCircuit .over 10000) .prove .init = .ok ((p, x), ops) ∧ Holds w ops ∧
      assemblePublicInputsCanonical (Reference.bellman Reference.blake2s) true 10000
        (credPublic .over 10000).rpHash spendingKeyGenBytes (credPublic .over 10000).credNullifier =
          .ok (publicInputs w) ∧
      ReadsAll w (x.sigRj.rBytesBits ++ x.sigRj.sBytesBits)
        (bytesBits (joinHalves spendingKeyGenBytes malleatedS).1) ∧
      Signature.fromBytes Jubjub.standard.fr Jubjub.standard.subgroup
        (joinHalves spendingKeyGenBytes malleatedS) = .error .invalidSignatureBytes := by
  obtain ⟨⟨p, x⟩, ops, -, hrun, -, -⟩ := exists_credRun .over 10000 (by decide)
  -- the prover allocates the same wires with another `s`
  let B := Reference.bellman Reference.blake2s
  let o := credOpening malleatedS
  let sigRj := allocSigParsed B o.R (some o.R.toBytes) (some o.s)
  have hhonest : ∀ n pre, Honest n (allocWitness B .standard sigRj o.values) pre
      (fun ww => WitnessKnown ww o) fun w ww => WitnessReads w ww o :=
    allocWitness_honest B .standard (fun n pre => allocSigParsed_honest B n
      spendingKeyGenerator_regular malleatedS pre) rfl spendingKeyGenerator_regular
  have hrel : Relation Reference.blake2s Reference.sapling (credPublic .over 10000).direction
      (credPublic .over 10000).cutoffDays (credPublic .over 10000).issuerVkBytes
      (credPublic .over 10000).credNullifier o := by
    refine relation_credOpening (d := .over) ?_ (by decide)
    rw [leNat_malleatedS, add_nsmul, primeOrder_spendingKeyGenerator, add_zero]
  have haux : AuxOnly (allocWitness B .standard sigRj o.values) :=
    allocWitness_auxOnly B .standard (allocSigParsed_auxOnly B _ _ _) _
  obtain ⟨⟨p', x'⟩, ops', hrun', -, hw⟩ := synthesizeWith_complete B Reference.sapling .standard
    haux hhonest hrel
  obtain ⟨w, hag, -⟩ := exists_agrees .blank ops' .init le_rfl
  obtain ⟨hholds, hin, -, hreads⟩ := hw w hag
  -- the constraints are those of the honest run
  obtain ⟨hlayout, -, hwires⟩ := synthesizeWith_layout B Reference.sapling .standard _ _
    (witnessWires_layout_alloc B .standard _ (fun sig => allocSig_layout_parsed B .standard sig _ _ _)
      o.values) .prove .prove .init _ _ ops ops' hrun hrun'
  refine ⟨p, x, ops, w, hrun, (holds_congr w hlayout).mpr hholds, hin ▸ assemble_eq_ok _ _ _ _ _ _,
    (hwires.sig.r.append hwires.sig.s).readsAll ?_, fromBytes_malleatedS⟩
  have hsig := hreads.sigBytes
  rwa [Opening.sigBytes, show o.R.toBytes = spendingKeyGenBytes from
    toBytes_spendingKeyGenerator] at hsig

end ProviiCrypto
