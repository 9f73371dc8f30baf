import ProviiCrypto.Circuit.Shape
import ProviiCrypto.R1CS.TestSystem

/-!
# The prover's own values

A run on a witness allocates the witness, so where its own values satisfy the constraints, the
opening they spell is the witness itself: `Satisfied.opens` turns "the circuit is satisfied" into
a statement about the prover's input.
-/

namespace ProviiCrypto

open R1CS R1CS.Synth Number Gadgets

variable {H : Blake2s} (B : Bellman H) (S : Sapling) (J : Jubjub)

/-- The sizes the circuit asks of a witness. -/
structure AgeWitness.Sized (x : AgeWitness) : Prop where
  kid : x.kid.length = kidSizeBytes
  schema : x.schema.length = schemaSizeBytes
  sig : x.sigRjBytes.length = 64
  r : x.rBits.length = 128

/-- The wires of a run on a witness spell it: of an opening they spell, this is the witness. -/
def SpellsWitness (x : AgeWitness) (w : Assignment Scalar) (ww : WitnessWires) : Prop :=
  ∀ o, WitnessReads w ww o → x.Opens o

/-- Wires that read the fields of a witness spell it. -/
theorem spellsWitness_of_reads {x : AgeWitness} {w : Assignment Scalar} {ww : WitnessWires}
    (hdob : ReadsAll w ww.dobBits (toBits 32 (biasForCircuit x.dobDays).toNat))
    (hr : ReadsAll w ww.rBits x.rBits)
    (hvk : ReadsAll w ww.issuerVk.vkBytesBits (bytesBits x.issuerVkBytes.1))
    (hsig : ReadsAll w (ww.sigRj.rBytesBits ++ ww.sigRj.sBytesBits) (bytesBits x.sigRjBytes))
    (hv : ReadsAll w ww.vBits (byteBits x.v)) (hkid : ReadsAll w ww.kidBits (bytesBits x.kid))
    (hc : ReadsAll w ww.cBytesBits (bytesBits x.cBytes.1))
    (hiat : ReadsAll w ww.iatBits (bytesBits (u64Be x.iat)))
    (hexp : ReadsAll w ww.expBits (bytesBits (u64Be x.exp)))
    (hschema : ReadsAll w ww.schemaBits (bytesBits x.schema)) : SpellsWitness x w ww := by
  intro o ho
  have huniq : ∀ {bits : List Boolean} {a b : List UInt8}, ReadsAll w bits (bytesBits a) →
      ReadsAll w bits (bytesBits b) → a = b := fun ha hb => bytesBits_injective (ha.unique hb)
  constructor
  · exact biasBits_injective (ReadsAll.unique ho.dob hdob)
  · exact ReadsAll.unique ho.r hr
  · refine Subtype.ext (huniq ?_ hvk)
    rw [Point.bytesBits_toBytes]
    exact ho.vk.bits
  · refine huniq ?_ hsig
    rw [bytesBits_append, Point.bytesBits_toBytes]
    exact ho.sig.bits.append ho.s
  · exact byteBits_injective (ReadsAll.unique ho.v hv)
  · exact huniq ho.kid hkid
  · exact Subtype.ext (huniq ho.c hc)
  · exact u64Be_injective (huniq ho.iat hiat)
  · exact u64Be_injective (huniq ho.exp hexp)
  · exact huniq ho.schema hschema

theorem allocWitness_computes {x : AgeWitness} (hx : x.Sized) :
    Computes (allocWitness B J (allocSig B J (some ⟨x.sigRjBytes, hx.sig⟩)) x.values)
      (SpellsWitness x) := by
  have hbytes : ∀ {k : ℕ} {bs : List UInt8}, bs.length = k →
      Computes (allocBytesWitnessFixed B (some bs) k) fun w bits => ReadsAll w bits (bytesBits bs) := by
    intro k bs h
    rw [allocBytesWitnessFixed_eq B _ k fun b hb => Option.mem_some.mp hb ▸ h]
    exact allocBits_computes B _
  have hr : Computes (allocBoolVecWitnessFixed B (some x.rBits) 128) fun w bits =>
      ReadsAll w bits x.rBits := by
    rw [allocBoolVecWitnessFixed_eq B _ 128 fun b hb => Option.mem_some.mp hb ▸ hx.r]
    exact allocBits_computes B _
  have hdob : ∀ v : UInt32, Computes (allocU32Witness B (some v)) fun w bits =>
      ReadsAll w bits (toBits 32 v.toNat) := by
    intro v
    rw [allocU32Witness_eq]
    exact allocBits_computes B _
  have hu8 : ∀ v : UInt8, Computes (allocU8Witness B (some v)) fun w bits =>
      ReadsAll w bits (byteBits v) := by
    intro v
    unfold allocU8Witness
    rw [allocU8Bits_eq]
    exact allocBits_computes B _
  have hu64 : ∀ v : UInt64, Computes (allocU64Witness B (some v)) fun w bits =>
      ReadsAll w bits (bytesBits (u64Be v)) := by
    intro v
    rw [allocU64Witness_eq]
    exact allocBits_computes B _
  refine (hdob _).bind fun dob => hr.bind fun r => (allocVk_computes B J _).bind fun vk =>
    (allocSig_computes B J _).bind fun sig => (hu8 _).bind fun v => (hbytes hx.kid).bind fun kid =>
    (hbytes x.cBytes.2).bind fun c => (hu64 _).bind fun iat => (hu64 _).bind fun exp =>
    (hbytes hx.schema).bind fun schema => Computes.pure ?_
  intro w hschema hexp hiat hc hkid hv hsig hvk hr hdob
  exact spellsWitness_of_reads hdob hr hvk hsig hv hkid hc hiat hexp hschema

/-- A run on a witness checks its sizes and allocates it. -/
theorem witnessWires_computes (x : AgeWitness) :
    Computes (witnessWires B J (some x)) fun w ww => x.Sized ∧ SpellsWitness x w ww := by
  unfold witnessWires
  dsimp only
  split_ifs with hkid hschema hsig hr
  · exact Computes.throw
  · exact Computes.throw
  · exact Computes.throw
  · exact Computes.throw
  · have hx : x.Sized := ⟨not_not.mp hkid, not_not.mp hschema, not_not.mp hsig, not_not.mp hr⟩
    exact (allocWitness_computes B J hx).mono fun w ww h => ⟨hx, h⟩

theorem synthesizeWires_computes (pub : AgePublic) (x : AgeWitness) :
    Computes (synthesizeWires B S J ⟨pub, some x⟩) fun w r => x.Sized ∧ SpellsWitness x w r.2 := by
  unfold synthesizeWires synthesizeWith
  refine Computes.skip fun p => (witnessWires_computes B J x).bind fun ww => ?_
  split_ifs
  · exact Computes.throw
  · exact Computes.throw
  · exact Computes.throw
  · exact Computes.skip fun _ => Computes.pure fun w h => h

/-- The circuit for a statement accepts a witness: the run on it succeeds and its own values satisfy
the constraints. -/
def Satisfied (pub : AgePublic) (x : AgeWitness) : Prop :=
  ∃ ops, synthesize B S J ⟨pub, some x⟩ .prove .init = .ok ((), ops) ∧
    Holds (TestConstraintSystem.assignment ops) ops

/-- **A satisfied circuit is about the witness**: it is of the right sizes, and an opening in the
relation. -/
theorem Satisfied.opens {pub : AgePublic} {x : AgeWitness} (h : Satisfied B S J pub x) :
    x.Sized ∧ ∃ o, x.Opens o ∧
      Relation H S pub.direction pub.cutoffDays pub.issuerVkBytes pub.credNullifier o := by
  obtain ⟨ops, hrun, hholds⟩ := h
  have hag := TestConstraintSystem.agrees_assignment ops
  have hexp : inputValues ops = (pub.bits.pack B).map some :=
    @synthesize_inputValues H B S J ⟨pub, some x⟩ .init ops hrun
  have hassemble : assemblePublicInputsCanonical B (pub.direction = .over) pub.cutoffDays
      pub.rpHash pub.issuerVkBytes pub.credNullifier =
        .ok (publicInputs (TestConstraintSystem.assignment ops)) := by
    rw [publicInputs_of_agrees B hag hexp]
    exact pub.assemble_eq B
  obtain ⟨⟨p, ww⟩, hrun⟩ := (synthesize_eq_ok B S J).mp hrun
  obtain ⟨hsized, hspells⟩ := synthesizeWires_computes B S J pub x _ _ _ hrun _ hag
  obtain ⟨-, o, -, ho, hrel⟩ := synthesizeWires_sound B S J hrun hholds hassemble
  exact ⟨hsized, o, hspells o ho, hrel⟩

/-- **A satisfied circuit allows the witness's date of birth.** -/
theorem Satisfied.allows {pub : AgePublic} {x : AgeWitness} (h : Satisfied B S J pub x) :
    pub.direction.Allows pub.cutoffDays x.dobDays := by
  obtain ⟨-, o, ho, hrel⟩ := h.opens
  rw [← ho.dob]
  exact hrel.age

/-- What the host issues satisfies the circuit, for every cutoff that allows it. -/
theorem satisfied_of_host {msg : CredMsgV2} {dobDays : Int32} {rBits : List Bool} {sig : Bytes 64}
    {vk : Bytes 32} (hkid : msg.kid.length = 14) (hschema : msg.schema.length = 12)
    (hr : rBits.length = 128) (hc : S.commitBytes dobDays rBits = some msg.c)
    (hver : verifyCredV2 H J.fr J.subgroup msg sig vk = .ok ()) {pub : AgePublic}
    (hvk : pub.issuerVkBytes = vk) (hnul : pub.credNullifier = S.pedersenNullifier msg.c)
    (hage : pub.direction.Allows pub.cutoffDays dobDays) :
    Satisfied B S J pub (msg.witness dobDays rBits sig vk) := by
  subst hvk
  obtain ⟨o, hx, ho, hrel⟩ := exists_opening S J hkid hschema hr hc hver
  have hrel := hrel pub.direction pub.cutoffDays hage
  rw [← hnul] at hrel
  obtain ⟨r, ops, hrun, -, hw⟩ := synthesizeWires_complete B S J hx ho hrel
  exact ⟨ops, (synthesize_eq_ok B S J).mpr ⟨r, hrun⟩,
    (hw _ (TestConstraintSystem.agrees_assignment ops)).1⟩

/-- The witness of the sample credential. -/
def credWitness : AgeWitness :=
  Reference.credMsg.witness Reference.credDob Reference.credR Reference.credSig spendingKeyGenBytes

theorem satisfied_cred (d : AgeDirection) (cutoff : Int32) (h : d.Allows cutoff Reference.credDob) :
    Satisfied (Reference.bellman Reference.blake2s) Reference.sapling .standard (credPublic d cutoff)
      credWitness :=
  satisfied_of_host _ _ _ rfl rfl rfl Reference.commitBytes_credMsg
    (Reference.verify_credMsg .standard) rfl rfl h

end ProviiCrypto
