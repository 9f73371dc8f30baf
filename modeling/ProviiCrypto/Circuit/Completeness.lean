import ProviiCrypto.Circuit.Relations
import ProviiCrypto.Reference.Bellman
import ProviiCrypto.Reference.Credential

/-!
# What the circuit can prove

A credential that the host issues and verifies is an opening in the relation, and the circuit's
witness for it is allocated without an error (`exists_opening`, `witnessWires_honest`). With
`synthesizeWith_honest` the prover's run on it succeeds, and its own values satisfy it.
-/

namespace ProviiCrypto

open R1CS R1CS.Synth Number Gadgets

variable {H : Blake2s} (B : Bellman H) (S : Sapling) (J : Jubjub)

/-- The witness made of a credential, the opening of its commitment, its signature and the issuer's
key. -/
def CredMsgV2.witness (msg : CredMsgV2) (dobDays : Int32) (rBits : List Bool) (sig : Bytes 64)
    (vk : Bytes 32) : AgeWitness where
  dobDays := dobDays
  rBits := rBits
  issuerVkBytes := vk
  sigRjBytes := sig.1
  v := msg.v
  kid := msg.kid
  cBytes := msg.c
  iat := msg.iat
  exp := msg.exp
  schema := msg.schema

/-- A witness spells an opening. -/
structure AgeWitness.Opens (x : AgeWitness) (o : Opening) : Prop where
  dob : o.dob = x.dobDays
  r : o.r = x.rBits
  vk : o.VK.toBytes = x.issuerVkBytes
  sig : o.R.toBytes.1 ++ o.s.1 = x.sigRjBytes
  v : o.v = x.v
  kid : o.kid.1 = x.kid
  c : o.c = x.cBytes
  iat : o.iat = x.iat
  exp : o.exp = x.exp
  schema : o.schema.1 = x.schema

/-- The points of the opening are not of small order, and its `s` is canonical. -/
structure Opening.Regular (o : Opening) : Prop where
  length_r : o.r.length = 128
  vk : (8 • o.VK).u ≠ 0
  sig : (8 • o.R).u ≠ 0
  s : leNat o.s.1 < subgroupOrder

/-- A signature parses when it is the encoding of a point and a canonical scalar. -/
theorem allocSig_honest {o : Opening} (ho : o.Regular) :
    SigHonest (allocSig B J (some (joinHalves o.R.toBytes o.s))) o := by
  intro n pre
  rw [allocSig_toBytes B J o.R ho.s]
  exact allocSigParsed_honest B n ho.sig o.s pre

/-- **The witness of a regular opening is allocated** without an error. -/
theorem witnessWires_honest {x : AgeWitness} {o : Opening} (hx : x.Opens o) (ho : o.Regular)
    (n : Counts) (pre : Assignment Scalar → Prop) :
    Honest n (witnessWires B J (some x)) pre (fun ww => WitnessKnown ww o)
      fun w ww => WitnessReads w ww o := by
  have hvalues : x.values = o.values := by
    unfold AgeWitness.values
    rw [Opening.values, ← hx.dob, ← hx.r, ← hx.vk, ← hx.v, ← hx.kid, ← hx.c,
      ← hx.iat, ← hx.exp, ← hx.schema]
  have hkid : x.kid.length = kidSizeBytes := by rw [← hx.kid, o.kid.2, kidSizeBytes]
  have hschema : x.schema.length = schemaSizeBytes := by
    rw [← hx.schema, o.schema.2, schemaSizeBytes]
  have hsig : x.sigRjBytes.length = 64 := by
    rw [← hx.sig, List.length_append, o.R.toBytes.2, o.s.2]
  have hr : x.rBits.length = 128 := by rw [← hx.r, ho.length_r]
  have hbytes : (⟨x.sigRjBytes, hsig⟩ : Bytes 64) = joinHalves o.R.toBytes o.s :=
    Subtype.ext hx.sig.symm
  simp only [witnessWires, hkid, hschema, hsig, hr, ne_eq, not_true_eq_false, if_false, dif_neg,
    not_false_eq_true, hbytes, hvalues]
  exact allocWitness_honest B J (allocSig_honest B J ho) ho.length_r ho.vk n pre

/-- **What the host issues is in the relation**: a credential it verifies, over a commitment it
computes, opens to points of prime order and a canonical `s`. -/
theorem exists_opening {msg : CredMsgV2} {dobDays : Int32} {rBits : List Bool} {sig : Bytes 64}
    {vk : Bytes 32} (hkid : msg.kid.length = 14) (hschema : msg.schema.length = 12)
    (hr : rBits.length = 128) (hc : S.commitBytes dobDays rBits = some msg.c)
    (hver : verifyCredV2 H J.fr J.subgroup msg sig vk = .ok ()) :
    ∃ o : Opening, (msg.witness dobDays rBits sig vk).Opens o ∧ o.Regular ∧
      ∀ (d : AgeDirection) (cutoff : Int32), d.Allows cutoff dobDays →
        Relation H S d cutoff vk (S.pedersenNullifier msg.c) o := by
  obtain ⟨VK, R, bytes, ⟨hvk, hVK, hVK0⟩, ⟨hR, hRp, hR0⟩, ⟨-, hlt⟩, hbytes, heq⟩ :=
    verifyCredV2_subgroup_eq_ok.mp hver
  refine ⟨⟨dobDays, rBits, VK, R, highHalf sig, msg.v, ⟨msg.kid, hkid⟩, msg.c, msg.iat, msg.exp,
    ⟨msg.schema, hschema⟩⟩, ⟨rfl, rfl, hvk, ?_, rfl, rfl, rfl, rfl, rfl, rfl⟩,
    ⟨hr, hVK.eight_nsmul_u_ne_zero hVK0, hRp.eight_nsmul_u_ne_zero hR0, hlt⟩,
    fun d cutoff hage => ⟨hc, rfl, hvk, hage, bytes, hbytes, heq⟩⟩
  rw [hR]
  exact congrArg Subtype.val (joinHalves_halves sig)

/-- The run without its wires. -/
theorem synthesize_eq_ok {circuit : AgeCircuit} {md : Mode} {n : Counts} {ops : List (Op Scalar)} :
    synthesize B S J circuit md n = .ok ((), ops) ↔
      ∃ r, synthesizeWires B S J circuit md n = .ok (r, ops) := by
  unfold synthesize
  rw [bind_eq_ok]
  constructor
  · rintro ⟨r, o₁, o₂, h₁, h₂, rfl⟩
    obtain ⟨-, rfl⟩ := pure_eq_ok.mp h₂
    exact ⟨r, by rwa [List.append_nil]⟩
  · rintro ⟨r, h⟩
    exact ⟨r, ops, [], h, rfl, (List.append_nil ops).symm⟩

/-- A run that exposes a packed statement gives the public inputs its values. -/
theorem publicInputs_of_agrees {w : Assignment Scalar} {ops : List (Op Scalar)} {pub : AgePublic}
    (hag : Agrees w .init ops) (hexp : inputValues ops = (pub.bits.pack B).map some) :
    publicInputs w = pub.bits.pack B := by
  have hwf : pub.bits.WellFormed := wellFormed_statementBits _ _ _ _ _
  have hlen : (inputValues ops).length = publicInputsLen := by
    rw [hexp, List.length_map]
    exact hwf.length_pack B
  rw [← inputsRead_of_agrees hag hexp, inputsRead, hlen]
  rfl

/-- **The prover's run on an opening**, for any honest way to allocate it: the run succeeds,
exposes the packed statement, and every assignment that takes the values it computes satisfies its
constraints and spells the statement and the opening. -/
theorem synthesizeWith_complete {pub : AgePublic} {witness : Synth Scalar WitnessWires} {o : Opening}
    (haux : AuxOnly witness) (hwit : ∀ n pre, Honest n witness pre (fun ww => WitnessKnown ww o)
      fun w ww => WitnessReads w ww o)
    (hrel : Relation H S pub.direction pub.cutoffDays pub.issuerVkBytes pub.credNullifier o) :
    ∃ r ops, synthesizeWith B S J pub witness .prove .init = .ok (r, ops) ∧
      inputValues ops = (pub.bits.pack B).map some ∧
      ∀ w, Agrees w .init ops → Holds w ops ∧ publicInputs w = pub.bits.pack B ∧
        PublicReads w r.1 pub.bits ∧ WitnessReads w r.2 o := by
  obtain ⟨r, ops, hrun, -, hw⟩ := synthesizeWith_honest B S J .init hwit hrel
  have hexp := synthesizeWith_exposes B S J pub haux .init r ops hrun
  refine ⟨r, ops, hrun, hexp, fun w hag => ?_⟩
  obtain ⟨hholds, hreads⟩ := hw w hag trivial
  exact ⟨hholds, publicInputs_of_agrees B hag hexp, hreads⟩

/-- The prover's run on the witness of a regular opening. -/
theorem synthesizeWires_complete {pub : AgePublic} {x : AgeWitness} {o : Opening} (hx : x.Opens o)
    (ho : o.Regular)
    (hrel : Relation H S pub.direction pub.cutoffDays pub.issuerVkBytes pub.credNullifier o) :
    ∃ r ops, synthesizeWires B S J ⟨pub, some x⟩ .prove .init = .ok (r, ops) ∧
      inputValues ops = (pub.bits.pack B).map some ∧
      ∀ w, Agrees w .init ops → Holds w ops ∧ publicInputs w = pub.bits.pack B ∧
        PublicReads w r.1 pub.bits ∧ WitnessReads w r.2 o :=
  synthesizeWith_complete B S J (witnessWires_auxOnly B J _)
    (fun n pre => witnessWires_honest B J hx ho n pre) hrel

/-- **Completeness.** Whatever the host issues, the circuit can prove: for a credential over a
commitment that `pedersenCommitDobValidated` computes, with a signature that `verifyCredV2`
accepts, and for a cutoff that the date of birth satisfies, the prover's run succeeds, exposes the
public inputs the verifier assembles, and is satisfied by the values it computes. -/
theorem synthesize_complete {msg : CredMsgV2} {dobDays : Int32} {rBits : List Bool} {sig : Bytes 64}
    {vk : Bytes 32} (hkid : msg.kid.length = 14) (hschema : msg.schema.length = 12)
    (hr : rBits.length = 128) (hc : S.pedersenCommitDobValidated dobDays rBits = .ok msg.c)
    (hver : verifyCredV2 H J.fr J.subgroup msg sig vk = .ok ()) (d : AgeDirection) (cutoff : Int32)
    (rpHash : Bytes 32) (hage : d.Allows cutoff dobDays) :
    ∃ ops xs, synthesize B S J ⟨⟨d, cutoff, rpHash, vk, S.pedersenNullifier msg.c⟩,
        some (msg.witness dobDays rBits sig vk)⟩ .prove .init = .ok ((), ops) ∧
      assemblePublicInputsCanonical B (d = .over) cutoff rpHash vk (S.pedersenNullifier msg.c) =
        .ok xs ∧ inputValues ops = xs.map some ∧
      (∀ w, Agrees w .init ops → Holds w ops ∧ publicInputs w = xs) ∧ ∃ w, Agrees w .init ops := by
  obtain ⟨-, -, -, hcommit⟩ := S.pedersenCommitDobValidated_eq_ok.mp hc
  obtain ⟨o, hx, ho, hrel⟩ := exists_opening S J hkid hschema hr hcommit hver
  have hrel : Relation H S (AgePublic.mk d cutoff rpHash vk (S.pedersenNullifier msg.c)).direction
      cutoff vk (S.pedersenNullifier msg.c) o := hrel d cutoff hage
  obtain ⟨r, ops, hrun, hexp, hw⟩ := synthesizeWires_complete B S J hx ho hrel
  obtain ⟨w, hag, -⟩ := exists_agrees .blank ops .init le_rfl
  exact ⟨ops, _, (synthesize_eq_ok B S J).mpr ⟨r, hrun⟩, assemble_eq_ok B _ _ _ _ _, hexp,
    fun w hag => ⟨(hw w hag).1, (hw w hag).2.1⟩, w, hag⟩

/-! ## A run -/

/-- A relying party's challenge. -/
def rpChallenge : Bytes 32 := ⟨(List.range 32).map UInt8.ofNat, by decide⟩

/-- A statement that the sample credential satisfies. -/
def credPublic (direction : AgeDirection) (cutoffDays : Int32) : AgePublic where
  direction := direction
  cutoffDays := cutoffDays
  rpHash := Reference.blake2s noPersonalization rpChallenge.1
  issuerVkBytes := spendingKeyGenBytes
  credNullifier := Reference.sapling.pedersenNullifier Reference.credMsg.c

/-- The circuit for it. -/
def credCircuit (direction : AgeDirection) (cutoffDays : Int32) : AgeCircuit where
  pub := credPublic direction cutoffDays
  witness := some (Reference.credMsg.witness Reference.credDob Reference.credR Reference.credSig
    spendingKeyGenBytes)

theorem synthesize_complete_cred :
    ∃ ops xs, synthesize (Reference.bellman Reference.blake2s) Reference.sapling .standard
        (credCircuit .over 10000) .prove .init = .ok ((), ops) ∧
      assemblePublicInputsCanonical (Reference.bellman Reference.blake2s) true 10000
        (credPublic .over 10000).rpHash spendingKeyGenBytes (credPublic .over 10000).credNullifier =
          .ok xs ∧ inputValues ops = xs.map some ∧
      (∀ w, Agrees w .init ops → Holds w ops ∧ publicInputs w = xs) ∧ ∃ w, Agrees w .init ops :=
  synthesize_complete (Reference.bellman Reference.blake2s) Reference.sapling .standard rfl rfl rfl
    Reference.commit_credMsg (Reference.verify_credMsg _) .over 10000 _ (by decide)

/-- Its opening, with any `s` in the signature. -/
def credOpening (s : Bytes 32) : Opening where
  dob := Reference.credDob
  r := Reference.credR
  VK := spendingKeyGenerator
  R := spendingKeyGenerator
  s := s
  v := Reference.credMsg.v
  kid := ⟨Reference.credMsg.kid, rfl⟩
  c := Reference.credMsg.c
  iat := Reference.credMsg.iat
  exp := Reference.credMsg.exp
  schema := ⟨Reference.credMsg.schema, rfl⟩

/-- The relation does not see the representative of `s`. -/
theorem relation_credOpening {s : Bytes 32}
    (hs : leNat s.1 • spendingKeyGenerator = Reference.credS • spendingKeyGenerator)
    {d : AgeDirection} {cutoff : Int32} (h : d.Allows cutoff Reference.credDob) :
    Relation Reference.blake2s Reference.sapling d cutoff spendingKeyGenBytes
      (credPublic d cutoff).credNullifier (credOpening s) where
  commitment := Reference.commitBytes_credMsg
  nullifier := rfl
  key := toBytes_spendingKeyGenerator
  age := h
  signature := by
    refine ⟨Reference.credTranscript, rfl, hs.trans ?_⟩
    show _ = spendingKeyGenerator + leNat (Reference.blake2s redjubjubPersonalization
      (spendingKeyGenerator.toBytes.1 ++ spendingKeyGenBytes.1 ++ _)).1 • spendingKeyGenerator
    rw [Reference.credS_smul, toBytes_spendingKeyGenerator]
    rfl

/-- The generator is not of small order. -/
theorem spendingKeyGenerator_regular : (8 • spendingKeyGenerator).u ≠ 0 :=
  primeOrder_spendingKeyGenerator.eight_nsmul_u_ne_zero spendingKeyGenerator_ne_zero

/-- The prover's run for the sample credential is satisfied by its own values. -/
theorem credRun_complete (d : AgeDirection) (cutoff : Int32)
    (h : d.Allows cutoff Reference.credDob) :
    ∃ r ops, synthesizeWires (Reference.bellman Reference.blake2s) Reference.sapling .standard
        (credCircuit d cutoff) .prove .init = .ok (r, ops) ∧
      ∀ w, Agrees w .init ops → Holds w ops ∧
        publicInputs w = (credPublic d cutoff).bits.pack (Reference.bellman Reference.blake2s) := by
  obtain ⟨o, hx, ho, hrel⟩ := exists_opening Reference.sapling .standard rfl rfl rfl
    Reference.commitBytes_credMsg (Reference.verify_credMsg .standard)
  have hrel : Relation Reference.blake2s Reference.sapling (credPublic d cutoff).direction
      (credPublic d cutoff).cutoffDays (credPublic d cutoff).issuerVkBytes
      (credPublic d cutoff).credNullifier o := hrel d cutoff h
  obtain ⟨r, ops, hrun, -, hw⟩ := synthesizeWires_complete (Reference.bellman Reference.blake2s)
    Reference.sapling .standard hx ho hrel
  exact ⟨r, ops, hrun, fun w hag => ⟨(hw w hag).1, (hw w hag).2.1⟩⟩

/-- A satisfied run of the circuit for the sample credential. -/
theorem exists_credRun (d : AgeDirection) (cutoff : Int32) (h : d.Allows cutoff Reference.credDob) :
    ∃ r ops w, synthesizeWires (Reference.bellman Reference.blake2s) Reference.sapling .standard
        (credCircuit d cutoff) .prove .init = .ok (r, ops) ∧ Holds w ops ∧
      assemblePublicInputsCanonical (Reference.bellman Reference.blake2s) (d = .over) cutoff
        (credPublic d cutoff).rpHash spendingKeyGenBytes (credPublic d cutoff).credNullifier =
          .ok (publicInputs w) := by
  obtain ⟨r, ops, hrun, hw⟩ := credRun_complete d cutoff h
  obtain ⟨w, hag, -⟩ := exists_agrees .blank ops .init le_rfl
  obtain ⟨hholds, hin⟩ := hw w hag
  exact ⟨r, ops, w, hrun, hholds, hin ▸ assemble_eq_ok _ _ _ _ _ _⟩

end ProviiCrypto
