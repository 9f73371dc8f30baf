import ProviiCrypto.Circuit.Completeness

/-!
# The signature gadget and the host's verifier

The gadget works with raw 256-bit strings, curve coordinates and doublings; the host with reduced
scalars in the prime-order subgroup, and compares encodings. They decide the same predicate
(`signatureGadget_agrees`).

* `signatureGadget_sound`: whoever chose the assignment, the wires satisfy the curve equation.
* `signatureGadget_prove`: the prover's run succeeds on every signature the host decodes, and the
  values it computes satisfy the constraints exactly when the equation holds.
* `mul_digest_sound`, `mul_scalar_sound`: a multiplication by raw bits agrees with the host's.
-/

namespace ProviiCrypto

open R1CS R1CS.Synth Number Gadgets

variable {H : Blake2s} (B : Bellman H) (J : Jubjub)

/-- The steps of the circuit that check a signature: `alloc_vk`, `alloc_sig` and `verify`. -/
def signatureGadget (vk : Option (Bytes 32)) (sig : Option (Bytes 64)) (prehash : List Boolean) :
    Synth Scalar (RJVerificationKey × RJSignature) := do
  let vkVar ← allocVk B J vk
  let sigVar ← allocSig B J sig
  verify B J vkVar sigVar prehash
  return (vkVar, sigVar)

/-- The wires of a key and a signature spell these bytes. -/
structure SignatureReads (w : Assignment Scalar) (r : RJVerificationKey × RJSignature)
    (vk : Bytes 32) (sig : Bytes 64) : Prop where
  vk : ReadsAll w r.1.vkBytesBits (bytesBits vk.1)
  sig : ReadsAll w (r.2.rBytesBits ++ r.2.sBytesBits) (bytesBits sig.1)

/-- The equation the gadget checks, with the challenge as the number its digest spells. -/
def SignatureEquation (H : Blake2s) (VK R : Point) (s hash : Bytes 32) : Prop :=
  leNat s.1 • spendingKeyGenerator = R +
    leNat (H redjubjubPersonalization (R.toBytes.1 ++ VK.toBytes.1 ++ hash.1)).1 • VK

/-- **The constraints force the equation** on the bytes the wires spell. -/
theorem signatureGadget_sound (vk : Option (Bytes 32)) (sig : Option (Bytes 64))
    (prehash : List Boolean) :
    Sound (signatureGadget B J vk sig prehash) fun w r => ∀ (VK R : Point) (s hash : Bytes 32),
      SignatureReads w r VK.toBytes (joinHalves R.toBytes s) → ReadsAll w prehash (bytesBits hash.1) →
      SignatureEquation H VK R s hash := by
  refine Sound.bind (allocVk_sound B J vk) fun vkVar => Sound.bind (allocSig_sound B J sig)
    fun sigVar => Sound.bind (verify_sound B J vkVar sigVar prehash) fun _ => Sound.pure ?_
  intro w hver hsig hvk VK R s hash hreads hhash
  obtain ⟨VK', hVK⟩ := hvk
  obtain ⟨⟨R', hR⟩, vs, hlen, hvs⟩ := hsig
  -- the halves of the signature's wires
  have hsplit := hreads.sig
  rw [joinHalves, bytesBits_append] at hsplit
  have hboth := (hR.bits.append hvs).unique hsplit
  obtain ⟨hRbits, hsbits⟩ := List.append_inj hboth
    (by rw [Point.length_reprBits, length_bytesBits, R.toBytes.2])
  obtain rfl : VK' = VK := hVK.eq_of_toBytes hreads.vk
  obtain rfl : R' = R := hR.eq_of_toBytes (hRbits ▸ hR.bits)
  exact hver VK' R' s hash hVK hR (hsbits ▸ hvs) hhash

/-- **The prover's run**: it succeeds on the encodings of two points of prime order and a canonical
scalar, its values spell them, and they satisfy the constraints exactly when the equation holds. -/
theorem signatureGadget_prove (n : Counts) {VK R : Point} {s hash : Bytes 32}
    (hVK : (8 • VK).u ≠ 0) (hR : (8 • R).u ≠ 0) (hs : leNat s.1 < subgroupOrder)
    {prehash : List Boolean} (hhash : KnownAll prehash (bytesBits hash.1)) :
    ∃ r ops, signatureGadget B J (some VK.toBytes) (some (joinHalves R.toBytes s)) prehash .prove n =
        .ok (r, ops) ∧
      ∀ w, Agrees w n ops → ReadsAll w prehash (bytesBits hash.1) →
        SignatureReads w r VK.toBytes (joinHalves R.toBytes s) ∧
          (Holds w ops ↔ SignatureEquation H VK R s hash) := by
  obtain ⟨vkVar, o₁, hrun₁, hvkKnown, hw₁⟩ := allocVkParsed_honest B n hVK fun _ => True
  obtain ⟨sigVar, o₂, hrun₂, ⟨hRKnown, hsKnown⟩, hw₂⟩ :=
    allocSigParsed_honest B (n.advance o₁) hR s fun _ => True
  obtain ⟨⟨⟩, o₃, hrun₃, -, hw₃⟩ := verify_runs B J vkVar sigVar prehash
    ((n.advance o₁).advance o₂) hvkKnown hRKnown hsKnown hhash
  have hrun : signatureGadget B J (some VK.toBytes) (some (joinHalves R.toBytes s)) prehash .prove n =
      .ok ((vkVar, sigVar), o₁ ++ (o₂ ++ (o₃ ++ []))) := by
    unfold signatureGadget
    rw [allocVk_toBytes, allocSig_toBytes B J R hs]
    exact bind_eq_ok.mpr ⟨_, _, _, hrun₁, bind_eq_ok.mpr ⟨_, _, _, hrun₂,
      bind_eq_ok.mpr ⟨_, _, _, hrun₃, rfl, rfl⟩, rfl⟩, rfl⟩
  refine ⟨_, _, hrun, fun w hag hread => ?_⟩
  obtain ⟨hag₁, hag⟩ := (agrees_append w n o₁ _).mp hag
  obtain ⟨hag₂, hag⟩ := (agrees_append w _ o₂ _).mp hag
  obtain ⟨hag₃, -⟩ := (agrees_append w _ o₃ _).mp hag
  obtain ⟨hh₁, hvkReads⟩ := hw₁ w hag₁ trivial
  obtain ⟨hh₂, hRReads, hsReads⟩ := hw₂ w hag₂ trivial
  have hreads : SignatureReads w (vkVar, sigVar) VK.toBytes (joinHalves R.toBytes s) := by
    refine ⟨?_, ?_⟩
    · rw [Point.bytesBits_toBytes]
      exact hvkReads.bits
    · rw [joinHalves, bytesBits_append, Point.bytesBits_toBytes]
      exact hRReads.bits.append hsReads
  refine ⟨hreads, fun hw => ?_, fun heq => ?_⟩
  · exact signatureGadget_sound B J _ _ prehash .prove n _ _ hrun w hw VK R s hash hreads hread
  · obtain ⟨hh₃, -⟩ := hw₃ w hag₃ ⟨⟨hvkReads, hRReads, hsReads, hread⟩, heq⟩
    rw [holds_append, holds_append, holds_append]
    exact ⟨hh₁, hh₂, hh₃, holds_nil w⟩

/-- With and without a witness, on the same wires, the gadget has one layout. -/
theorem signatureGadget_layout (vk vk' : Option (Bytes 32)) (sig sig' : Option (Bytes 64))
    {prehash prehash' : List Boolean} (hpre : SameWires prehash prehash') :
    SameLayout (fun r r' => r.1.SameWires r'.1 ∧ r.2.SameWires r'.2)
      (signatureGadget B J vk sig prehash) (signatureGadget B J vk' sig' prehash') :=
  (allocVk_layout B J vk vk').bind fun _ _ hvk => (allocSig_layout B J sig sig').bind fun _ _ hsig =>
    (verify_layout B J hvk hsig hpre).bind fun _ _ _ => SameLayout.pure ⟨hvk, hsig⟩

/-- The same wires spell the same bytes. -/
theorem SignatureReads.congr {w : Assignment Scalar} {r r' : RJVerificationKey × RJSignature}
    {vk : Bytes 32} {sig : Bytes 64} (h : SignatureReads w r' vk sig)
    (hvk : r.1.SameWires r'.1) (hsig : r.2.SameWires r'.2) : SignatureReads w r vk sig where
  vk := hvk.bits.readsAll h.vk
  sig := (hsig.r.append hsig.s).readsAll h.sig

/-! ## The host -/

/-- What the host decodes, as points and a number. -/
theorem decoded_eq {vkBytes : Bytes 32} {sigBytes : Bytes 64} {vk : VerificationKey primeSubgroup}
    {sig : Signature primeSubgroup} (hvk : VerificationKey.fromBytes J.subgroup vkBytes = .ok vk)
    (hsig : Signature.fromBytes J.fr J.subgroup sigBytes = .ok sig) :
    vkBytes = vk.point.1.toBytes ∧ sigBytes = joinHalves sig.r.1.toBytes (highHalf sigBytes) ∧
      leNat (highHalf sigBytes).1 = sig.s.val ∧
      (8 • vk.point.1).u ≠ 0 ∧ (8 • sig.r.1).u ≠ 0 := by
  obtain ⟨hvk, hvk0⟩ := (VerificationKey.fromBytes_eq_ok _).mp hvk
  obtain ⟨hR, hR0, hs, -⟩ := (Signature.fromBytes_eq_ok _ _).mp hsig
  refine ⟨hvk.symm, ?_, hs, ?_, ?_⟩
  · rw [show sig.r.1.toBytes = lowHalf sigBytes from hR, joinHalves_halves]
  · exact vk.point.2.eight_nsmul_u_ne_zero fun h => hvk0 (Subtype.ext h)
  · exact sig.r.2.eight_nsmul_u_ne_zero fun h => hR0 (Subtype.ext h)

/-- The equation on the decoded values is the host's verdict. -/
theorem signatureEquation_iff {s hash : Bytes 32} {vk : VerificationKey primeSubgroup}
    {sig : Signature primeSubgroup} (hs : leNat s.1 = sig.s.val) :
    SignatureEquation H vk.point.1 sig.r.1 s hash ↔
      verifyHashInternal H J.fr J.subgroup hash.1 sig vk = .ok () := by
  unfold SignatureEquation
  rw [verifyHashInternal_subgroup_eq_ok, hs]

/-- Multiplying by the raw bits of a digest is multiplying by its wide reduction. -/
theorem mul_digest_sound (p : EdwardsPoint) (bits : List Boolean) (P : primeSubgroup) (c : Bytes 32) :
    Sound (p.mul B bits) fun w r => p.Reads w P.1 → ReadsAll w bits (bytesBits c.1) →
      r.Reads w (SubgroupPoint.mul P (J.fr.fromBytesWide (padTo64 c))).1 := by
  refine (EdwardsPoint.mul_sound B p bits).mono fun w r hmul hp hbits => ?_
  have hr := hmul _ _ hp hbits
  rwa [ofBits_bytesBits, ← mul_fromBytesWide (J := J)] at hr

/-- Multiplying by the raw bits of a canonical scalar is multiplying by the scalar. -/
theorem mul_scalar_sound (p : EdwardsPoint) (bits : List Boolean) (P : primeSubgroup) {s : Bytes 32}
    {x : Fr} (hs : leNat s.1 = x.val) :
    Sound (p.mul B bits) fun w r => p.Reads w P.1 → ReadsAll w bits (bytesBits s.1) →
      r.Reads w (SubgroupPoint.mul P x).1 := by
  refine (EdwardsPoint.mul_sound B p bits).mono fun w r hmul hp hbits => ?_
  have hr := hmul _ _ hp hbits
  rwa [ofBits_bytesBits, hs] at hr

/-- **The gadget and the host decide one predicate** of a key and a signature that the host decodes
and of any hash: in either mode, on whatever wires hold the hash, the constraints are satisfiable
with the key's and the signature's bytes exactly when the host verifies, and the values the prover
computes satisfy them exactly then. The raw bits of the challenge and of `s` multiply like the
host's reduced scalars. -/
theorem signatureGadget_agrees {vkBytes : Bytes 32} {sigBytes : Bytes 64}
    {vk : VerificationKey primeSubgroup} {sig : Signature primeSubgroup}
    (hvk : VerificationKey.fromBytes J.subgroup vkBytes = .ok vk)
    (hsig : Signature.fromBytes J.fr J.subgroup sigBytes = .ok sig) (hash : Bytes 32) :
    (∀ (vk' : Option (Bytes 32)) (sig' : Option (Bytes 64)) (prehash : List Boolean) (md : Mode)
      (n : Counts) (r : RJVerificationKey × RJSignature) (ops : List (Op Scalar))
      (w₀ : Assignment Scalar),
      signatureGadget B J vk' sig' prehash md n = .ok (r, ops) → 1 ≤ n.inputs →
      (∀ b ∈ prehash, b.Below n) → ReadsAll w₀ prehash (bytesBits hash.1) →
      ((∃ w : Assignment Scalar, (∀ x : Variable, x.Below n → w x = w₀ x) ∧ Holds w ops ∧
          SignatureReads w r vkBytes sigBytes) ↔
        verifyHashInternal H J.fr J.subgroup hash.1 sig vk = .ok ())) ∧
    (∀ (n : Counts) (prehash : List Boolean), KnownAll prehash (bytesBits hash.1) →
      ∃ r ops, signatureGadget B J (some vkBytes) (some sigBytes) prehash .prove n = .ok (r, ops) ∧
        ∀ w, Agrees w n ops → ReadsAll w prehash (bytesBits hash.1) →
          SignatureReads w r vkBytes sigBytes ∧
            (Holds w ops ↔ verifyHashInternal H J.fr J.subgroup hash.1 sig vk = .ok ())) ∧
    (∀ (p : EdwardsPoint) (bits : List Boolean) (c : Bytes 32), Sound (p.mul B bits) fun w r =>
      p.Reads w vk.point.1 → ReadsAll w bits (bytesBits c.1) →
        r.Reads w (SubgroupPoint.mul vk.point (J.fr.fromBytesWide (padTo64 c))).1) ∧
    ∀ (p : EdwardsPoint) (bits : List Boolean), Sound (p.mul B bits) fun w r =>
      p.Reads w (getSpendingKeyGenerator J.subgroup).1 →
      ReadsAll w bits (bytesBits (highHalf sigBytes).1) →
        r.Reads w (SubgroupPoint.mul (getSpendingKeyGenerator J.subgroup) sig.s).1 := by
  obtain ⟨hvkBytes, hsigBytes, hs, h8vk, h8R⟩ := decoded_eq J hvk hsig
  have hlt : leNat (highHalf sigBytes).1 < subgroupOrder := hs ▸ ZMod.val_lt sig.s
  have hiff : SignatureEquation H vk.point.1 sig.r.1 (highHalf sigBytes) hash ↔
      verifyHashInternal H J.fr J.subgroup hash.1 sig vk = .ok () := signatureEquation_iff J hs
  -- the prover's run on the decoded bytes
  have hprove := fun n {prehash : List Boolean} (h : KnownAll prehash (bytesBits hash.1)) =>
    signatureGadget_prove B J n h8vk h8R hlt h
  rw [← hvkBytes, ← hsigBytes, hiff] at hprove
  refine ⟨?_, fun n prehash h => hprove n h, fun p bits c => mul_digest_sound B J p bits vk.point c,
    fun p bits => mul_scalar_sound B p bits _ hs⟩
  intro vk' sig' prehash md n r ops w₀ hrun hn hbelow hread
  constructor
  · rintro ⟨w, hold, hw, hreads⟩
    rw [hvkBytes, hsigBytes] at hreads
    exact hiff.mp (signatureGadget_sound B J vk' sig' prehash md n r ops hrun w hw _ _ _ hash hreads
      (hread.congr hbelow hold))
  · intro hver
    -- the same wires with their values known: a run of the prover with the same layout
    obtain ⟨prehash', hwires, hknown⟩ := hread.exists_known
    obtain ⟨r', ops', hrun', hw'⟩ := hprove n hknown
    obtain ⟨w, hag, hold⟩ := exists_agrees w₀ ops' n hn
    obtain ⟨hreads, hholds⟩ := hw' w hag (hwires.symm.readsAll (hread.congr hbelow hold))
    obtain ⟨hlayout, hvkw, hsigw⟩ := signatureGadget_layout B J vk' (some vkBytes) sig' (some sigBytes)
      hwires md .prove n r r' ops ops' hrun hrun'
    exact ⟨w, hold, (holds_congr w hlayout).mpr (hholds.mpr hver), hreads.congr hvkw hsigw⟩

theorem signatureGadget_agrees_cred :
    ∃ hash : Bytes 32, credHash Reference.blake2s Reference.credMsg = .ok hash.1 ∧
      ∃ r ops w, signatureGadget (Reference.bellman Reference.blake2s) .standard
          (some spendingKeyGenBytes) (some Reference.credSig) ((bytesBits hash.1).map .constant)
          .prove .init = .ok (r, ops) ∧
        SignatureReads w r spendingKeyGenBytes Reference.credSig ∧ Holds w ops := by
  obtain ⟨vk, sig, _, hvk, hsig, hhash, hver⟩ := (verifyCredV2_eq_ok _ _ _).mp
    (Reference.verify_credMsg .standard)
  obtain ⟨-, hprove, -⟩ := signatureGadget_agrees (Reference.bellman Reference.blake2s) .standard
    hvk hsig (Reference.blake2s noPersonalization Reference.credTranscript)
  obtain rfl := Except.ok.inj hhash
  refine ⟨_, rfl, ?_⟩
  obtain ⟨r, ops, hrun, hw⟩ := hprove .init _ (knownAll_constant _)
  obtain ⟨w, hag, -⟩ := exists_agrees .blank ops .init le_rfl
  obtain ⟨hreads, hholds⟩ := hw w hag (readsAll_constant _)
  exact ⟨r, ops, w, hrun, hreads, hholds.mpr hver⟩

end ProviiCrypto
