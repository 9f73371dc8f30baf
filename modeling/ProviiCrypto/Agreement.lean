import ProviiCrypto.Gadgets.Pedersen
import ProviiCrypto.Gadgets.Prehash
import ProviiCrypto.Reference.Bellman
import ProviiCrypto.Reference.Credential

/-!
# The circuit and the host agree

The two hashes that are computed on both sides, as wires and as bytes: the Pedersen commitment with
its nullifier (`pedersen_agreement`), and the transcript of a credential (`prehash_agreement`).
-/

namespace ProviiCrypto

open R1CS R1CS.Synth Number Gadgets

variable {H : Blake2s} (B : Bellman H) (S : Sapling)

/-! ## Pedersen hashes -/

/-- The commitment gadget on wires whose values are known succeeds within the capacity. -/
theorem commit_succeeds_iff {dob : Int32} {r : List Bool} {dobBits rBits : List Boolean}
    (hd : KnownAll dobBits (toBits 32 (biasForCircuit dob).toNat)) (hr : KnownAll rBits r)
    (n : Counts) : (∃ out ops, commit B S dobBits rBits .prove n = .ok (out, ops)) ↔
      6 + (32 + r.length) ≤ 1134 := by
  constructor
  · rintro ⟨out, ops, hrun⟩
    have := commit_returns B S dobBits rBits .prove n out ops hrun
    rwa [hd.length_eq, hr.length_eq, length_toBits] at this
  · intro h
    obtain ⟨c, hc⟩ := Option.isSome_iff_exists.mp ((S.commitBytes_isSome dob r).mpr h)
    obtain ⟨out, ops, hrun, -⟩ := commit_honest B S n hd hr hc
    exact ⟨out, ops, hrun⟩

/-- The nullifier gadget on a commitment's wires always succeeds. -/
theorem pedersenNullifier_succeeds {c : Bytes 32} {bits : List Boolean}
    (hc : KnownAll bits (bytesBits c.1)) (n : Counts) :
    ∃ out ops, Gadgets.pedersenNullifier B S bits .prove n = .ok (out, ops) := by
  obtain ⟨out, ops, hrun, -⟩ := pedersenNullifier_honest B S n hc
  exact ⟨out, ops, hrun⟩

/-- **Pedersen agreement.** On the wires of a date of birth and of randomness of any length the
commitment gadget succeeds exactly within the capacity of the generators, which is where the host's
hash is defined, and its output is forced to spell the host's bytes; so for the nullifier, whose
input always fits. What the host accepts as randomness fits as well. -/
theorem pedersen_agreement :
    (∀ (dob : Int32) (r : List Bool) (dobBits rBits : List Boolean),
      (∀ n, KnownAll dobBits (toBits 32 (biasForCircuit dob).toNat) → KnownAll rBits r →
        ((∃ out ops, commit B S dobBits rBits .prove n = .ok (out, ops)) ↔
          6 + (32 + r.length) ≤ 1134)) ∧
      ((S.commitBytes dob r).isSome ↔ 6 + (32 + r.length) ≤ 1134) ∧
      ∀ md n out ops w, commit B S dobBits rBits md n = .ok (out, ops) → Holds w ops →
        ReadsAll w dobBits (toBits 32 (biasForCircuit dob).toNat) → ReadsAll w rBits r →
        6 + (32 + r.length) ≤ 1134 ∧
          ∃ c, S.commitBytes dob r = some c ∧ ReadsAll w out (bytesBits c.1)) ∧
    (∀ (c : Bytes 32) (bits : List Boolean),
      (∀ n, KnownAll bits (bytesBits c.1) →
        ((∃ out ops, Gadgets.pedersenNullifier B S bits .prove n = .ok (out, ops)) ↔
          6 + (224 + bits.length) ≤ 1134)) ∧
      ∀ md n out ops w, Gadgets.pedersenNullifier B S bits md n = .ok (out, ops) → Holds w ops →
        ReadsAll w bits (bytesBits c.1) → ReadsAll w out (bytesBits (S.pedersenNullifier c).1)) ∧
    ∀ (dob : Int32) (r : List Bool) (c : Bytes 32), S.pedersenCommitDobValidated dob r = .ok c →
      6 + (32 + r.length) ≤ 1134 ∧ S.commitBytes dob r = some c := by
  refine ⟨fun dob r dobBits rBits => ⟨fun n hd hr => commit_succeeds_iff B S hd hr n,
    S.commitBytes_isSome dob r, ?_⟩, fun c bits => ⟨fun n hc => ?_, ?_⟩, fun dob r c hc => ?_⟩
  · intro md n out ops w hrun hw hd hr
    have hlen := commit_returns B S dobBits rBits md n out ops hrun
    rw [hd.length_eq, hr.length_eq, length_toBits] at hlen
    exact ⟨hlen, commit_sound B S dobBits rBits md n out ops hrun w hw dob r hd hr⟩
  · refine ⟨?_, fun _ => pedersenNullifier_succeeds B S hc n⟩
    rintro ⟨out, ops, hrun⟩
    exact pedersenNullifier_returns B S bits .prove n out ops hrun
  · intro md n out ops w hrun hw hc
    exact pedersenNullifier_sound B S bits md n out ops hrun w hw c hc
  · obtain ⟨-, -, -, hcommit⟩ := S.pedersenCommitDobValidated_eq_ok.mp hc
    exact ⟨(S.commitBytes_isSome dob r).mp (by rw [hcommit]; rfl), hcommit⟩

theorem pedersen_agreement_cred :
    (∃ out ops w, commit (Reference.bellman Reference.blake2s) Reference.sapling
        ((toBits 32 (biasForCircuit Reference.credDob).toNat).map .constant)
        (Reference.credR.map .constant) .prove .init = .ok (out, ops) ∧ Holds w ops ∧
      ∃ c, Reference.sapling.commitBytes Reference.credDob Reference.credR = some c ∧
        ReadsAll w out (bytesBits c.1)) ∧
    (∃ out ops w, Gadgets.pedersenNullifier (Reference.bellman Reference.blake2s) Reference.sapling
        ((bytesBits Reference.credMsg.c.1).map .constant) .prove .init = .ok (out, ops) ∧
      Holds w ops ∧
      ReadsAll w out (bytesBits (Reference.sapling.pedersenNullifier Reference.credMsg.c).1)) ∧
    6 + (32 + Reference.credR.length) ≤ 1134 := by
  let B := Reference.bellman Reference.blake2s
  refine ⟨?_, ?_, ((pedersen_agreement B Reference.sapling).2.2 _ _ _ Reference.commit_credMsg).1⟩
  · obtain ⟨out, ops, w, hrun, -, -, -, hw, -⟩ := (commit_honest B Reference.sapling .init
      (knownAll_constant _) (knownAll_constant _) Reference.commitBytes_credMsg).satisfiable le_rfl
      .blank fun _ _ => ⟨readsAll_constant _, readsAll_constant _⟩
    exact ⟨out, ops, w, hrun, hw, (((pedersen_agreement B Reference.sapling).1 _ _ _ _).2.2 .prove
      .init out ops w hrun hw (readsAll_constant _) (readsAll_constant _)).2⟩
  · obtain ⟨out, ops, w, hrun, -, -, -, hw, -⟩ := (pedersenNullifier_honest B Reference.sapling .init
      (knownAll_constant (bytesBits Reference.credMsg.c.1))).satisfiable le_rfl .blank
      fun _ _ => readsAll_constant _
    exact ⟨out, ops, w, hrun, hw, ((pedersen_agreement B Reference.sapling).2.1 _ _).2 .prove .init
      out ops w hrun hw (readsAll_constant _)⟩

/-! ## Transcripts -/

/-- Allocated from a credential's fields, in whatever mode, the wires carry the fields' bits. -/
theorem prehashRel_of_alloc {v : UInt8} {kid schema : List UInt8} {c : Bytes 32} {iat exp : UInt64}
    {m₁ m₂ m₃ m₄ m₅ m₆ : Mode} {n₁ n₂ n₃ n₄ n₅ n₆ : Counts}
    {o₁ o₂ o₃ o₄ o₅ o₆ : List (Op Scalar)}
    {vBits kidBits cBits iatBits expBits schemaBits : List Boolean}
    (hv : allocU8Witness B (some v) m₁ n₁ = .ok (vBits, o₁))
    (hkid : allocBytesWitnessFixed B (some kid) kid.length m₂ n₂ = .ok (kidBits, o₂))
    (hc : allocBytesWitnessFixed B (some c.1) 32 m₃ n₃ = .ok (cBits, o₃))
    (hiat : allocU64Witness B (some iat) m₄ n₄ = .ok (iatBits, o₄))
    (hexp : allocU64Witness B (some exp) m₅ n₅ = .ok (expBits, o₅))
    (hschema : allocBytesWitnessFixed B (some schema) schema.length m₆ n₆ =
      .ok (schemaBits, o₆)) :
    PrehashRel Boolean.Known v kid c iat exp schema vBits kidBits cBits iatBits expBits
      schemaBits := by
  unfold allocU8Witness at hv
  rw [allocU8Bits_eq, Option.map_some] at hv
  rw [allocU64Witness_eq, Option.map_some] at hiat hexp
  rw [allocBytesWitnessFixed_eq B _ _ fun b hb => Option.mem_some.mp hb ▸ rfl, Option.map_some]
    at hkid hschema
  rw [allocBytesWitnessFixed_eq B _ _ fun b hb => Option.mem_some.mp hb ▸ c.2, Option.map_some]
    at hc
  exact ⟨allocBits_known B _ _ _ _ _ hv, allocBits_known B _ _ _ _ _ hkid,
    allocBits_known B _ _ _ _ _ hc, allocBits_known B _ _ _ _ _ hiat,
    allocBits_known B _ _ _ _ _ hexp, allocBits_known B _ _ _ _ _ hschema⟩

/-- **Transcript agreement.** On the wires allocated from a credential's fields, of any lengths,
the circuit's transcript is built exactly when the host's is, and its wires then carry the bits of
the host's bytes. -/
theorem prehash_agreement {v : UInt8} {kid schema : List UInt8} {c : Bytes 32} {iat exp : UInt64}
    {m₁ m₂ m₃ m₄ m₅ m₆ : Mode} {n₁ n₂ n₃ n₄ n₅ n₆ : Counts}
    {o₁ o₂ o₃ o₄ o₅ o₆ : List (Op Scalar)}
    {vBits kidBits cBits iatBits expBits schemaBits : List Boolean}
    (hv : allocU8Witness B (some v) m₁ n₁ = .ok (vBits, o₁))
    (hkid : allocBytesWitnessFixed B (some kid) kid.length m₂ n₂ = .ok (kidBits, o₂))
    (hc : allocBytesWitnessFixed B (some c.1) 32 m₃ n₃ = .ok (cBits, o₃))
    (hiat : allocU64Witness B (some iat) m₄ n₄ = .ok (iatBits, o₄))
    (hexp : allocU64Witness B (some exp) m₅ n₅ = .ok (expBits, o₅))
    (hschema : allocBytesWitnessFixed B (some schema) schema.length m₆ n₆ =
      .ok (schemaBits, o₆)) (md : Mode) (n : Counts) :
    ((∃ out ops, buildPrehashBits vBits kidBits cBits iatBits expBits schemaBits md n =
        .ok (out, ops)) ↔
      ∃ bytes, credV2PrehashBytes v kid c iat exp schema = .ok bytes) ∧
    ∀ out ops bytes,
      buildPrehashBits vBits kidBits cBits iatBits expBits schemaBits md n = .ok (out, ops) →
      credV2PrehashBytes v kid c iat exp schema = .ok bytes →
      out.map Boolean.getValue = (bytesBits bytes).map some := by
  rcases buildPrehashBits_rel (fun b => (Boolean.known_constant b b).mpr rfl)
    (prehashRel_of_alloc B hv hkid hc hiat hexp hschema) with
    ⟨out, bytes, hbytes, hpure, hout⟩ | ⟨herr, hthrow⟩
  · rw [hpure, hbytes]
    refine ⟨⟨fun _ => ⟨bytes, rfl⟩, fun _ => ⟨out, [], rfl⟩⟩, ?_⟩
    intro out' ops bytes' hrun hbytes'
    obtain ⟨rfl, -⟩ := pure_eq_ok.mp hrun
    obtain rfl := Except.ok.inj hbytes'
    exact KnownAll.map_getValue hout
  · rw [hthrow, herr]
    refine ⟨⟨?_, ?_⟩, ?_⟩
    · rintro ⟨out, ops, hrun⟩
      cases hrun
    · rintro ⟨bytes, hbytes⟩
      cases hbytes
    · intro out ops bytes hrun
      cases hrun

theorem prehash_agreement_cred :
    ∃ vBits kidBits cBits iatBits expBits schemaBits out ops bytes,
      buildPrehashBits vBits kidBits cBits iatBits expBits schemaBits .prove .init =
        .ok (out, ops) ∧
      credV2PrehashBytes Reference.credMsg.v Reference.credMsg.kid Reference.credMsg.c
        Reference.credMsg.iat Reference.credMsg.exp Reference.credMsg.schema = .ok bytes ∧
      out.map Boolean.getValue = (bytesBits bytes).map some := by
  let B := Reference.bellman Reference.blake2s
  have hrun : ∀ vs : List Bool, ∃ bs ops, allocBits B (vs.map some) .prove .init =
      .ok (bs, ops) := by
    intro vs
    obtain ⟨bs, ops, h, -⟩ := allocBits_honest B .init vs fun _ => True
    exact ⟨bs, ops, h⟩
  have hbytes : ∀ bs : List UInt8, allocBytesWitnessFixed B (some bs) bs.length =
      allocBits B ((bytesBits bs).map some) := fun bs =>
    allocBytesWitnessFixed_eq B _ _ fun b hb => Option.mem_some.mp hb ▸ rfl
  obtain ⟨vBits, _, hv⟩ := hrun (byteBits Reference.credMsg.v)
  obtain ⟨kidBits, _, hkid⟩ := hrun (bytesBits Reference.credMsg.kid)
  obtain ⟨cBits, _, hc⟩ := hrun (bytesBits Reference.credMsg.c.1)
  obtain ⟨iatBits, _, hiat⟩ := hrun (bytesBits (u64Be Reference.credMsg.iat))
  obtain ⟨expBits, _, hexp⟩ := hrun (bytesBits (u64Be Reference.credMsg.exp))
  obtain ⟨schemaBits, _, hschema⟩ := hrun (bytesBits Reference.credMsg.schema)
  obtain ⟨hiff, hvalues⟩ := prehash_agreement B (v := Reference.credMsg.v)
    (c := Reference.credMsg.c) (by rw [allocU8Witness, allocU8Bits_eq]; exact hv)
    (by rw [hbytes]; exact hkid) (by rw [← hbytes, Reference.credMsg.c.2] at hc; exact hc)
    (by rw [allocU64Witness_eq]; exact hiat) (by rw [allocU64Witness_eq]; exact hexp)
    (by rw [hbytes]; exact hschema) .prove .init
  obtain ⟨out, ops, h⟩ := hiff.mpr ⟨_, rfl⟩
  exact ⟨vBits, kidBits, cBits, iatBits, expBits, schemaBits, out, ops, _, h, rfl,
    hvalues _ _ _ h rfl⟩

end ProviiCrypto
