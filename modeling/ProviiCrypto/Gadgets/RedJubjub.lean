import ProviiCrypto.Gadgets.Bits
import ProviiCrypto.Gadgets.SaplingEcc
import ProviiCrypto.Jubjub.Crate

/-!
# `gadgets::redjubjub` and `gadgets::blake2s`

The allocation of a key and a signature, and the check of the signature.

* `allocVkParsed_sound`, `allocSigParsed_sound`: the raw bits are the encoding of an allocated
  point that is on the curve and not of small order. Of `s` only that it is 256 bits: that it is
  canonical is checked while the witness is computed (`allocSig`), and not by a constraint.
* `verify_sound`: the constraints force `[s] G = R + [h] VK`, with `s` and `h` read as numbers.
-/

namespace ProviiCrypto.Gadgets

open R1CS R1CS.Synth Number

variable {H : Blake2s} (B : Bellman H) (J : Jubjub)

/-- `blake2s_256`. -/
def blake2s256 (bits : List Boolean) : Synth Scalar (List Boolean) :=
  B.blake2s bits noPersonalization

/-- `RJVerificationKey`. -/
structure RJVerificationKey where
  point : EdwardsPoint
  vkBytesBits : List Boolean

/-- `RJSignature`. -/
structure RJSignature where
  rPoint : EdwardsPoint
  sBytesBits : List Boolean
  rBytesBits : List Boolean

/-- `get_vk_bytes_bits`. -/
def getVkBytesBits (vk : RJVerificationKey) : Synth Scalar (List Boolean) := return vk.vkBytesBits

/-! ## Allocation -/

/-- A witnessed point that is not of small order. -/
def witnessChecked (P : Point) : Synth Scalar EdwardsPoint := do
  let p ← EdwardsPoint.witness B (some P)
  p.assertNotSmallOrder B
  return p

/-- `alloc_vk` once the bytes are parsed. -/
def allocVkParsed (P : Point) (bytes : Option (Bytes 32)) : Synth Scalar RJVerificationKey := do
  let point ← witnessChecked B P
  let vkBitsRaw ← allocBytesWitnessFixed B (bytes.map (·.1)) 32
  let reprBits ← point.repr B
  enforceBitsEqual reprBits vkBitsRaw
  return ⟨point, vkBitsRaw⟩

/-- `alloc_vk`: without a key, the generator's point and unknown bytes. -/
def allocVk (vkBytes32 : Option (Bytes 32)) : Synth Scalar RJVerificationKey :=
  match vkBytes32 with
  | some bytes => do
    let affine ← okOr (J.affineFromBytes bytes) .unsatisfiable
    allocVkParsed B affine (some bytes)
  | none => allocVkParsed B J.generator none

/-- `alloc_sig` once the bytes are parsed. -/
def allocSigParsed (R : Point) (rBytes sBytes : Option (Bytes 32)) : Synth Scalar RJSignature := do
  let rPoint ← witnessChecked B R
  let rBitsRaw ← allocBytesWitnessFixed B (rBytes.map (·.1)) 32
  let sBitsRaw ← allocBytesWitnessFixed B (sBytes.map (·.1)) 32
  let rReprBits ← rPoint.repr B
  enforceBitsEqual rReprBits rBitsRaw
  return ⟨rPoint, sBitsRaw, rBitsRaw⟩

/-- `alloc_sig`: `s` must be a canonical scalar, and only its bytes are used. -/
def allocSig (sigBytes64 : Option (Bytes 64)) : Synth Scalar RJSignature :=
  match sigBytes64 with
  | some bytes => do
    let rAffine ← okOr (J.affineFromBytes (lowHalf bytes)) .unsatisfiable
    let _sFr ← okOr (J.fr.fromBytes (highHalf bytes)) .unsatisfiable
    allocSigParsed B rAffine (some (lowHalf bytes)) (some (highHalf bytes))
  | none => allocSigParsed B J.generator none none

/-- The encoding of a point is parsed as that point. -/
theorem allocVk_toBytes (P : Point) :
    allocVk B J (some P.toBytes) = allocVkParsed B P (some P.toBytes) := by
  unfold allocVk
  simp only [J.affineFromBytes_toBytes, okOr, pure_bind]

/-- The encodings of a point and of a canonical scalar are parsed as such. -/
theorem allocSig_toBytes (R : Point) {s : Bytes 32} (hs : leNat s.1 < subgroupOrder) :
    allocSig B J (some (joinHalves R.toBytes s)) =
      allocSigParsed B R (some R.toBytes) (some s) := by
  have hfr : J.fr.fromBytes s = some ((leNat s.1 : ℕ) : Fr) := by
    rw [J.fr.fromBytes_eq, if_pos hs]
  unfold allocSig
  simp only [lowHalf_joinHalves, highHalf_joinHalves, J.affineFromBytes_toBytes, hfr, okOr, pure_bind]

/-- A point's wires with those of its encoding. -/
structure EncodedReads (w : Assignment Scalar) (p : EdwardsPoint) (bits : List Boolean) (P : Point) :
    Prop where
  point : p.Reads w P
  bits : ReadsAll w bits P.reprBits
  not_small : (8 • P).u ≠ 0

/-- A point is the one its wires' encoding spells. -/
theorem EncodedReads.eq_of_toBytes {w : Assignment Scalar} {p : EdwardsPoint} {bits : List Boolean}
    {P Q : Point} (h : EncodedReads w p bits P) (hQ : ReadsAll w bits (bytesBits Q.toBytes.1)) :
    P = Q := by
  rw [Point.bytesBits_toBytes] at hQ
  exact Point.reprBits_injective (h.bits.unique hQ)

/-- The prover knows a point and its encoding. -/
structure EncodedKnown (p : EdwardsPoint) (bits : List Boolean) (P : Point) : Prop where
  point : p.Known P
  bits : KnownAll bits P.reprBits

theorem witnessChecked_sound (P : Point) :
    Sound (witnessChecked B P) fun w p => ∃ Q, p.Reads w Q ∧ (8 • Q).u ≠ 0 :=
  Sound.bind (EdwardsPoint.witness_sound B _) fun p =>
    Sound.bind (EdwardsPoint.assertNotSmallOrder_sound B p) fun _ => Sound.pure fun _ h ⟨Q, hQ⟩ =>
      ⟨Q, hQ, h Q hQ⟩

theorem witnessChecked_honest (n : Counts) {P : Point} (h : (8 • P).u ≠ 0)
    (pre : Assignment Scalar → Prop) :
    Honest n (witnessChecked B P) pre (fun p => p.Known P) fun w p => p.Reads w P :=
  (EdwardsPoint.witness_honest B n P pre).bind fun _ n' hp =>
    ((EdwardsPoint.assertNotSmallOrder_honest B n' hp h).of_pre fun _ hw => hw.2).bind fun _ _ _ =>
      Honest.pure hp fun _ hw => hw.1.2

theorem witnessChecked_layout (P P' : Point) :
    SameLayout EdwardsPoint.SameWires (witnessChecked B P) (witnessChecked B P') :=
  (EdwardsPoint.witness_layout B _ _).bind fun _ _ h =>
    (EdwardsPoint.assertNotSmallOrder_layout B h).bind fun _ _ _ => SameLayout.pure h

theorem witnessChecked_auxOnly (P : Point) : AuxOnly (witnessChecked B P) :=
  (EdwardsPoint.witness_auxOnly B _).bind fun _ =>
    (EdwardsPoint.assertNotSmallOrder_auxOnly B _).bind fun _ => AuxOnly.pure _

/-- Thirty-two raw bytes, or none of them known. -/
private theorem allocatesBits_raw (bytes : Option (Bytes 32)) :
    AllocatesBits B 256 (allocBytesWitnessFixed B (bytes.map (·.1)) 32) :=
  allocatesBits_bytes B _ 32

private theorem allocRaw_honest (n : Counts) (bytes : Bytes 32) (pre : Assignment Scalar → Prop) :
    Honest n (allocBytesWitnessFixed B ((some bytes).map (·.1)) 32) pre
      (fun bs => KnownAll bs (bytesBits bytes.1)) fun w bs => ReadsAll w bs (bytesBits bytes.1) := by
  rw [Option.map_some, allocBytesWitnessFixed_eq B _ 32 fun bs hbs => Option.mem_some.mp hbs ▸ bytes.2]
  exact allocBits_honest B n _ pre

/-- **A key's bits are the encoding of its point**, whoever chose them. -/
theorem allocVkParsed_sound (P : Point) (bytes : Option (Bytes 32)) :
    Sound (allocVkParsed B P bytes) fun w vk => ∃ Q, EncodedReads w vk.point vk.vkBytesBits Q :=
  Sound.bind (witnessChecked_sound B P) fun point =>
    Sound.bind (allocatesBits_raw B bytes).sound fun raw =>
    Sound.bind (EdwardsPoint.repr_sound B point) fun out =>
    Sound.bind (enforceBitsEqual_sound out raw) fun _ => Sound.pure fun _ heq hrepr _ ⟨Q, hQ, h8⟩ =>
      ⟨Q, hQ, heq _ (hrepr Q hQ), h8⟩

/-- **A signature's `R` bits are the encoding of its point**; its `s` is any 256 bits. -/
theorem allocSigParsed_sound (R : Point) (rBytes sBytes : Option (Bytes 32)) :
    Sound (allocSigParsed B R rBytes sBytes) fun w sig =>
      (∃ Q, EncodedReads w sig.rPoint sig.rBytesBits Q) ∧
        ∃ vs, vs.length = 256 ∧ ReadsAll w sig.sBytesBits vs :=
  Sound.bind (witnessChecked_sound B R) fun point =>
    Sound.bind (allocatesBits_raw B rBytes).sound fun raw =>
    Sound.bind (allocatesBits_raw B sBytes).sound fun _ =>
    Sound.bind (EdwardsPoint.repr_sound B point) fun out =>
    Sound.bind (enforceBitsEqual_sound out raw) fun _ =>
    Sound.pure fun _ heq hrepr hs _ ⟨Q, hQ, h8⟩ => ⟨⟨Q, hQ, heq _ (hrepr Q hQ), h8⟩, hs⟩

theorem allocVk_sound (vkBytes32 : Option (Bytes 32)) :
    Sound (allocVk B J vkBytes32) fun w vk => ∃ Q, EncodedReads w vk.point vk.vkBytesBits Q := by
  cases vkBytes32 with
  | none => exact allocVkParsed_sound B _ _
  | some bytes =>
    exact Sound.bind Sound.okOr fun P => (allocVkParsed_sound B P _).mono fun _ _ h _ => h

theorem allocSig_sound (sigBytes64 : Option (Bytes 64)) :
    Sound (allocSig B J sigBytes64) fun w sig =>
      (∃ Q, EncodedReads w sig.rPoint sig.rBytesBits Q) ∧
        ∃ vs, vs.length = 256 ∧ ReadsAll w sig.sBytesBits vs := by
  cases sigBytes64 with
  | none => exact allocSigParsed_sound B _ _ _
  | some bytes =>
    exact Sound.bind Sound.okOr fun R => Sound.bind Sound.okOr fun _ =>
      (allocSigParsed_sound B R _ _).mono fun _ _ h _ _ => h

theorem allocVkParsed_honest (n : Counts) {P : Point} (h8 : (8 • P).u ≠ 0)
    (pre : Assignment Scalar → Prop) :
    Honest n (allocVkParsed B P (some P.toBytes)) pre
      (fun vk => EncodedKnown vk.point vk.vkBytesBits P)
      fun w vk => EncodedReads w vk.point vk.vkBytesBits P := by
  refine (witnessChecked_honest B n h8 pre).bind fun point n₁ hp => ?_
  refine (allocRaw_honest B n₁ P.toBytes _).bind fun raw n₂ hraw => ?_
  rw [Point.bytesBits_toBytes] at hraw
  refine Honest.bind ((EdwardsPoint.repr_honest B n₂ hp).of_pre fun _ hw => hw.1.2)
    fun out n₃ hout => ?_
  refine Honest.bind ((enforceBitsEqual_honest n₃ hout.length_eq hraw.length_eq).of_pre fun w hw =>
    ⟨hw.2, ?_⟩) fun _ _ _ =>
    Honest.pure ⟨hp, hraw⟩ fun w hw => ⟨hw.1.1.1.2, ?_, h8⟩
  · simpa only [Point.bytesBits_toBytes] using hw.1.2
  · simpa only [Point.bytesBits_toBytes] using hw.1.1.2

theorem allocSigParsed_honest (n : Counts) {R : Point} (h8 : (8 • R).u ≠ 0) (sBytes : Bytes 32)
    (pre : Assignment Scalar → Prop) :
    Honest n (allocSigParsed B R (some R.toBytes) (some sBytes)) pre
      (fun sig => EncodedKnown sig.rPoint sig.rBytesBits R ∧
        KnownAll sig.sBytesBits (bytesBits sBytes.1))
      fun w sig => EncodedReads w sig.rPoint sig.rBytesBits R ∧
        ReadsAll w sig.sBytesBits (bytesBits sBytes.1) := by
  refine (witnessChecked_honest B n h8 pre).bind fun point n₁ hp => ?_
  refine (allocRaw_honest B n₁ R.toBytes _).bind fun raw n₂ hraw => ?_
  rw [Point.bytesBits_toBytes] at hraw
  refine (allocRaw_honest B n₂ sBytes _).bind fun sRaw n₃ hs => ?_
  refine Honest.bind ((EdwardsPoint.repr_honest B n₃ hp).of_pre fun _ hw => hw.1.1.2)
    fun out n₄ hout => ?_
  refine Honest.bind ((enforceBitsEqual_honest n₄ hout.length_eq hraw.length_eq).of_pre fun w hw =>
    ⟨hw.2, ?_⟩) fun _ _ _ =>
    Honest.pure ⟨⟨hp, hraw⟩, hs⟩ fun w hw => ⟨⟨hw.1.1.1.1.2, ?_, h8⟩, hw.1.1.2⟩
  · simpa only [Point.bytesBits_toBytes] using hw.1.1.2
  · simpa only [Point.bytesBits_toBytes] using hw.1.1.1.2

private theorem allocRaw_computes (bytes : Bytes 32) :
    Computes (allocBytesWitnessFixed B ((some bytes).map (·.1)) 32) fun w bs =>
      ReadsAll w bs (bytesBits bytes.1) :=
  Honest.computes fun n => allocRaw_honest B n bytes _

/-- While proving, the key's bits are the bytes given. -/
theorem allocVk_computes (bytes : Bytes 32) :
    Computes (allocVk B J (some bytes)) fun w vk => ReadsAll w vk.vkBytesBits (bytesBits bytes.1) := by
  unfold allocVk
  refine Computes.skip fun P => Computes.skip fun point => (allocRaw_computes B bytes).bind fun raw =>
    Computes.skip fun out => Computes.skip fun _ => Computes.pure fun w h => h

/-- While proving, the signature's bits are the bytes given. -/
theorem allocSig_computes (bytes : Bytes 64) :
    Computes (allocSig B J (some bytes)) fun w sig =>
      ReadsAll w (sig.rBytesBits ++ sig.sBytesBits) (bytesBits bytes.1) := by
  unfold allocSig
  refine Computes.skip fun R => Computes.skip fun _ => Computes.skip fun point =>
    (allocRaw_computes B (lowHalf bytes)).bind fun rRaw =>
    (allocRaw_computes B (highHalf bytes)).bind fun sRaw => Computes.skip fun out =>
    Computes.skip fun _ => Computes.pure fun w hs hr => ?_
  have hbytes : bytes.1 = (lowHalf bytes).1 ++ (highHalf bytes).1 :=
    (congrArg Subtype.val (joinHalves_halves bytes)).symm
  rw [hbytes, bytesBits_append]
  exact hr.append hs

/-- The same wires of a key. -/
structure RJVerificationKey.SameWires (vk vk' : RJVerificationKey) : Prop where
  point : vk.point.SameWires vk'.point
  bits : ProviiCrypto.SameWires vk.vkBytesBits vk'.vkBytesBits

/-- The same wires of a signature. -/
structure RJSignature.SameWires (sig sig' : RJSignature) : Prop where
  point : sig.rPoint.SameWires sig'.rPoint
  s : ProviiCrypto.SameWires sig.sBytesBits sig'.sBytesBits
  r : ProviiCrypto.SameWires sig.rBytesBits sig'.rBytesBits

theorem allocVkParsed_layout (P P' : Point) (bytes bytes' : Option (Bytes 32)) :
    SameLayout RJVerificationKey.SameWires (allocVkParsed B P bytes) (allocVkParsed B P' bytes') :=
  (witnessChecked_layout B P P').bind fun _ _ hp =>
    ((allocatesBits_raw B bytes).layout (allocatesBits_raw B bytes')).bind fun _ _ hraw =>
    (EdwardsPoint.repr_layout B hp).bind fun _ _ hout =>
    (enforceBitsEqual_layout hout hraw).bind fun _ _ _ => SameLayout.pure ⟨hp, hraw⟩

theorem allocSigParsed_layout (R R' : Point) (r r' s s' : Option (Bytes 32)) :
    SameLayout RJSignature.SameWires (allocSigParsed B R r s) (allocSigParsed B R' r' s') :=
  (witnessChecked_layout B R R').bind fun _ _ hp =>
    ((allocatesBits_raw B r).layout (allocatesBits_raw B r')).bind fun _ _ hr =>
    ((allocatesBits_raw B s).layout (allocatesBits_raw B s')).bind fun _ _ hs =>
    (EdwardsPoint.repr_layout B hp).bind fun _ _ hout =>
    (enforceBitsEqual_layout hout hr).bind fun _ _ _ => SameLayout.pure ⟨hp, hs, hr⟩

/-- **With and without a witness**, the key's allocation has one layout. -/
theorem allocVk_layout (vk vk' : Option (Bytes 32)) :
    SameLayout RJVerificationKey.SameWires (allocVk B J vk) (allocVk B J vk') := by
  have hparsed : ∀ vk : Option (Bytes 32),
      (∃ P bytes, allocVk B J vk = allocVkParsed B P bytes) ∨
        allocVk B J vk = Synth.throw .unsatisfiable := by
    intro vk
    cases vk with
    | none => exact .inl ⟨_, _, rfl⟩
    | some bytes =>
      rw [allocVk]
      cases J.affineFromBytes bytes with
      | none => exact .inr rfl
      | some P => exact .inl ⟨P, some bytes, pure_bind _ _⟩
  rcases hparsed vk with ⟨P, b, h⟩ | h <;> rcases hparsed vk' with ⟨P', b', h'⟩ | h' <;> rw [h, h']
  · exact allocVkParsed_layout B P P' b b'
  · exact SameLayout.throw_right
  · exact SameLayout.throw_left
  · exact SameLayout.throw_left

/-- The signature's allocation is one of parsed bytes, or a refusal. -/
theorem allocSig_cases (sig : Option (Bytes 64)) :
    (∃ R r s, allocSig B J sig = allocSigParsed B R r s) ∨
      allocSig B J sig = Synth.throw .unsatisfiable := by
  cases sig with
  | none => exact .inl ⟨_, _, _, rfl⟩
  | some bytes =>
    rw [allocSig]
    cases J.affineFromBytes (lowHalf bytes) with
    | none => exact .inr rfl
    | some R =>
      cases J.fr.fromBytes (highHalf bytes) with
      | none => exact .inr rfl
      | some s => exact .inl ⟨R, _, _, (pure_bind _ _).trans (pure_bind _ _)⟩

/-- Parsed bytes have the layout of any signature. -/
theorem allocSig_layout_parsed (sig : Option (Bytes 64)) (R : Point) (r s : Option (Bytes 32)) :
    SameLayout RJSignature.SameWires (allocSig B J sig) (allocSigParsed B R r s) := by
  rcases allocSig_cases B J sig with ⟨R', r', s', h⟩ | h <;> rw [h]
  · exact allocSigParsed_layout B R' R r' r s' s
  · exact SameLayout.throw_left

/-- With and without a witness, the signature's allocation has one layout. -/
theorem allocSig_layout (sig sig' : Option (Bytes 64)) :
    SameLayout RJSignature.SameWires (allocSig B J sig) (allocSig B J sig') := by
  rcases allocSig_cases B J sig' with ⟨R, r, s, h⟩ | h <;> rw [h]
  · exact allocSig_layout_parsed B J sig R r s
  · exact SameLayout.throw_right

theorem allocVkParsed_auxOnly (P : Point) (bytes : Option (Bytes 32)) :
    AuxOnly (allocVkParsed B P bytes) :=
  (witnessChecked_auxOnly B P).bind fun _ => (allocatesBits_raw B bytes).auxOnly.bind fun _ =>
    (EdwardsPoint.repr_auxOnly B _).bind fun _ => (enforceBitsEqual_auxOnly _ _).bind fun _ =>
    AuxOnly.pure _

theorem allocSigParsed_auxOnly (R : Point) (r s : Option (Bytes 32)) :
    AuxOnly (allocSigParsed B R r s) :=
  (witnessChecked_auxOnly B R).bind fun _ => (allocatesBits_raw B r).auxOnly.bind fun _ =>
    (allocatesBits_raw B s).auxOnly.bind fun _ => (EdwardsPoint.repr_auxOnly B _).bind fun _ =>
    (enforceBitsEqual_auxOnly _ _).bind fun _ => AuxOnly.pure _

theorem allocVk_auxOnly (vk : Option (Bytes 32)) : AuxOnly (allocVk B J vk) := by
  cases vk with
  | none => exact allocVkParsed_auxOnly B _ _
  | some bytes => exact (AuxOnly.okOr _ _).bind fun _ => allocVkParsed_auxOnly B _ _

theorem allocSig_auxOnly (sig : Option (Bytes 64)) : AuxOnly (allocSig B J sig) := by
  cases sig with
  | none => exact allocSigParsed_auxOnly B _ _ _
  | some bytes =>
    exact (AuxOnly.okOr _ _).bind fun _ => (AuxOnly.okOr _ _).bind fun _ =>
      allocSigParsed_auxOnly B _ _ _

/-! ## Verification -/

/-- `get_generator_point`: the generator, pinned to its coordinates. -/
def getGeneratorPoint : Synth Scalar EdwardsPoint :=
  match J.affineFromBytes spendingKeyGenBytes with
  | none => Synth.panic
  | some affine => do
    let generator ← EdwardsPoint.witness B (some affine)
    enforce (.var generator.u.var) (.var .one) (.term affine.u .one)
    enforce (.var generator.v.var) (.var .one) (.term affine.v .one)
    return generator

/-- `enforce_points_equal`. -/
def enforcePointsEqual (p₁ p₂ : EdwardsPoint) : Synth Scalar Unit := do
  enforce (.var p₁.u.var - .var p₂.u.var) (.var .one) .zero
  enforce (.var p₁.v.var - .var p₂.v.var) (.var .one) .zero

/-- `verify_with_personalization`. -/
def verifyWithPersonalization (vk : RJVerificationKey) (sig : RJSignature)
    (prehashBits256 : List Boolean) (personalization : Bytes 8) : Synth Scalar Unit :=
  if prehashBits256.length ≠ 256 then throw .unsatisfiable
  else do
    -- R || VK || prehash
    let challengePreimage := sig.rBytesBits ++ vk.vkBytesBits ++ prehashBits256
    let challengeBits ← B.blake2s challengePreimage personalization
    let basePoint ← getGeneratorPoint B J
    let sTimesB ← basePoint.mul B sig.sBytesBits
    let cTimesVk ← vk.point.mul B challengeBits
    let rPlusCVk ← sig.rPoint.add B cTimesVk
    enforcePointsEqual sTimesB rPlusCVk

/-- `verify`. -/
def verify (vk : RJVerificationKey) (sig : RJSignature) (prehashBits256 : List Boolean) :
    Synth Scalar Unit :=
  verifyWithPersonalization B J vk sig prehashBits256 redjubjubPersonalization

theorem getGeneratorPoint_eq : getGeneratorPoint B J = (do
    let generator ← EdwardsPoint.witness B (some spendingKeyGenerator)
    enforce (.var generator.u.var) (.var .one) (.term spendingKeyGenerator.u .one)
    enforce (.var generator.v.var) (.var .one) (.term spendingKeyGenerator.v .one)
    return generator) := by
  simp only [getGeneratorPoint, J.affineFromBytes_generator]

/-- **The base point is pinned.** -/
theorem getGeneratorPoint_sound :
    Sound (getGeneratorPoint B J) fun w p => p.Reads w spendingKeyGenerator := by
  rw [getGeneratorPoint_eq]
  refine Sound.bind (EdwardsPoint.witness_sound B _) fun p => Sound.bind (Sound.enforce _ _ _)
    fun _ => Sound.bind (Sound.enforce _ _ _) fun _ => Sound.pure fun w hv hu _ => ⟨?_, ?_⟩
  · simpa using hu
  · simpa using hv

theorem getGeneratorPoint_honest (n : Counts) (pre : Assignment Scalar → Prop) :
    Honest n (getGeneratorPoint B J) pre (fun p => p.Known spendingKeyGenerator)
      fun w p => p.Reads w spendingKeyGenerator := by
  rw [getGeneratorPoint_eq]
  refine (EdwardsPoint.witness_honest B n _ pre).bind fun p _ hp => ?_
  refine (Honest.enforce fun w hw => ?_).bind fun _ _ _ => (Honest.enforce fun w hw => ?_).bind
    fun _ _ _ => Honest.pure hp fun w hw => hw.1.1.2
  · simpa using hw.2.u
  · simpa using hw.1.2.v

theorem getGeneratorPoint_layout :
    SameLayout EdwardsPoint.SameWires (getGeneratorPoint B J) (getGeneratorPoint B J) := by
  rw [getGeneratorPoint_eq]
  exact (EdwardsPoint.witness_layout B _ _).bind fun _ _ hp =>
    (SameLayout.enforce (by rw [hp.u]) rfl rfl).bind fun _ _ _ =>
    (SameLayout.enforce (by rw [hp.v]) rfl rfl).bind fun _ _ _ => SameLayout.pure hp

theorem getGeneratorPoint_auxOnly : AuxOnly (getGeneratorPoint B J) := by
  rw [getGeneratorPoint_eq]
  exact (EdwardsPoint.witness_auxOnly B _).bind fun _ => (AuxOnly.enforce _ _ _).bind fun _ =>
    (AuxOnly.enforce _ _ _).bind fun _ => AuxOnly.pure _

theorem enforcePointsEqual_sound (p₁ p₂ : EdwardsPoint) :
    Sound (enforcePointsEqual p₁ p₂) fun w _ => ∀ P, p₁.Reads w P → p₂.Reads w P := by
  refine Sound.bind (Sound.enforce _ _ _) fun _ => (Sound.enforce _ _ _).mono
    fun w _ hv hu P hP => ?_
  simp only [LinearCombination.eval_sub, LinearCombination.eval_var, LinearCombination.eval_zero,
    Assignment.apply_one, mul_one, sub_eq_zero] at hu hv
  exact ⟨hu.symm.trans hP.u, hv.symm.trans hP.v⟩

theorem enforcePointsEqual_honest (n : Counts) (p₁ p₂ : EdwardsPoint) (P : Point) :
    Honest n (enforcePointsEqual p₁ p₂) (fun w => p₁.Reads w P ∧ p₂.Reads w P) (fun _ => True)
      fun _ _ => True := by
  refine (Honest.enforce fun w hw => ?_).bind fun _ _ _ => Honest.enforce fun w hw => ?_
  · simp [hw.1.u, hw.2.u]
  · simp [hw.1.1.v, hw.1.2.v]

section

variable (vk : RJVerificationKey) (sig : RJSignature) (prehash : List Boolean)

/-- **The signature equation is forced**, with `s` and the challenge as the numbers their bits
spell. -/
theorem verify_sound : Sound (verify B J vk sig prehash) fun w _ => ∀ (VK R : Point) (s hash : Bytes 32),
    EncodedReads w vk.point vk.vkBytesBits VK → EncodedReads w sig.rPoint sig.rBytesBits R →
    ReadsAll w sig.sBytesBits (bytesBits s.1) → ReadsAll w prehash (bytesBits hash.1) →
    leNat s.1 • spendingKeyGenerator = R +
      leNat (H redjubjubPersonalization (R.toBytes.1 ++ VK.toBytes.1 ++ hash.1)).1 • VK := by
  unfold verify verifyWithPersonalization
  split
  · exact Sound.throw
  refine Sound.bind (B.blake2s_sound _ _) fun c => Sound.bind (getGeneratorPoint_sound B J) fun g =>
    Sound.bind (EdwardsPoint.mul_sound B g _) fun sg => Sound.bind (EdwardsPoint.mul_sound B vk.point c)
    fun cvk => Sound.bind (EdwardsPoint.add_sound B _ cvk) fun sum =>
    (enforcePointsEqual_sound sg sum).mono fun w _ heq hadd hcvk hsg hg hc VK R s hash hVK hR hs
      hhash => ?_
  have hpre : ReadsAll w (sig.rBytesBits ++ vk.vkBytesBits ++ prehash)
      (bytesBits (R.toBytes.1 ++ VK.toBytes.1 ++ hash.1)) := by
    rw [bytesBits_append, bytesBits_append, Point.bytesBits_toBytes, Point.bytesBits_toBytes]
    exact (hR.bits.append hVK.bits).append hhash
  have hlhs := heq _ (hsg _ _ hg hs)
  have hrhs := hadd _ _ hR.point (hcvk _ _ hVK.point (hc _ hpre))
  rw [ofBits_bytesBits] at hlhs hrhs
  exact hlhs.unique hrhs

/-- **The check runs on every signature**; its constraints hold when the equation does. -/
theorem verify_runs (n : Counts) {VK R : Point} {s hash : Bytes 32}
    (hVK : EncodedKnown vk.point vk.vkBytesBits VK)
    (hR : EncodedKnown sig.rPoint sig.rBytesBits R) (hs : KnownAll sig.sBytesBits (bytesBits s.1))
    (hhash : KnownAll prehash (bytesBits hash.1)) :
    Honest n (verify B J vk sig prehash)
      (fun w => (EncodedReads w vk.point vk.vkBytesBits VK ∧
        EncodedReads w sig.rPoint sig.rBytesBits R ∧ ReadsAll w sig.sBytesBits (bytesBits s.1) ∧
        ReadsAll w prehash (bytesBits hash.1)) ∧
        leNat s.1 • spendingKeyGenerator = R +
          leNat (H redjubjubPersonalization (R.toBytes.1 ++ VK.toBytes.1 ++ hash.1)).1 • VK)
      (fun _ => True) fun _ _ => True := by
  have hlen : prehash.length = 256 := by rw [hhash.length_eq, length_bytesBits, hash.2]
  have hbits : bytesBits (R.toBytes.1 ++ VK.toBytes.1 ++ hash.1) =
      R.reprBits ++ VK.reprBits ++ bytesBits hash.1 := by
    rw [bytesBits_append, bytesBits_append, Point.bytesBits_toBytes, Point.bytesBits_toBytes]
  have hne : ∀ {bits : List Boolean} {b : Bytes 32}, KnownAll bits (bytesBits b.1) → bits ≠ [] := by
    rintro bits b h rfl
    have := h.length_eq
    rw [length_bytesBits, b.2] at this
    cases this
  unfold verify verifyWithPersonalization
  rw [if_neg (not_not.mpr hlen)]
  refine Honest.bind ((B.blake2s_honest n _ _ _ (by
    rw [hbits]
    exact (hR.bits.append hVK.bits).append hhash)).of_pre fun w hw => ?_) fun c n₁ hc => ?_
  · rw [hbits]
    exact (hw.1.2.1.bits.append hw.1.1.bits).append hw.1.2.2.2
  refine (getGeneratorPoint_honest B J n₁ _).bind fun g n₂ hg => ?_
  refine Honest.bind ((EdwardsPoint.mul_honest B n₂ hg hs (hne hs)).of_pre fun w hw =>
    ⟨hw.2, hw.1.1.1.2.2.1⟩) fun sg n₃ hsg => ?_
  refine Honest.bind ((EdwardsPoint.mul_honest B n₃ hVK.point hc (hne hc)).of_pre fun w hw =>
    ⟨hw.1.1.1.1.1.point, hw.1.1.2⟩) fun cvk n₄ hcvk => ?_
  refine Honest.bind ((EdwardsPoint.add_honest B n₄ hR.point hcvk).of_pre fun w hw =>
    ⟨hw.1.1.1.1.1.2.1.point, hw.2⟩) fun sum n₅ _ => ?_
  refine (enforcePointsEqual_honest n₅ sg sum (leNat s.1 • spendingKeyGenerator)).of_pre fun w hw =>
    ⟨?_, ?_⟩
  · have := hw.1.1.2
    rwa [ofBits_bytesBits] at this
  · have := hw.2
    rwa [ofBits_bytesBits, ← hw.1.1.1.1.1.2] at this

theorem verify_honest (n : Counts) {VK R : Point} {s hash : Bytes 32}
    (hVK : EncodedKnown vk.point vk.vkBytesBits VK)
    (hR : EncodedKnown sig.rPoint sig.rBytesBits R) (hs : KnownAll sig.sBytesBits (bytesBits s.1))
    (hhash : KnownAll prehash (bytesBits hash.1))
    (heq : leNat s.1 • spendingKeyGenerator = R +
      leNat (H redjubjubPersonalization (R.toBytes.1 ++ VK.toBytes.1 ++ hash.1)).1 • VK) :
    Honest n (verify B J vk sig prehash)
      (fun w => EncodedReads w vk.point vk.vkBytesBits VK ∧
        EncodedReads w sig.rPoint sig.rBytesBits R ∧ ReadsAll w sig.sBytesBits (bytesBits s.1) ∧
        ReadsAll w prehash (bytesBits hash.1)) (fun _ => True) fun _ _ => True :=
  (verify_runs B J vk sig prehash n hVK hR hs hhash).of_pre fun _ hw => ⟨hw, heq⟩

end

theorem verify_layout {vk vk' : RJVerificationKey} {sig sig' : RJSignature}
    {prehash prehash' : List Boolean} (hvk : vk.SameWires vk') (hsig : sig.SameWires sig')
    (hpre : SameWires prehash prehash') :
    SameLayout (fun _ _ => True) (verify B J vk sig prehash) (verify B J vk' sig' prehash') := by
  unfold verify verifyWithPersonalization
  rw [hpre.length_eq]
  split
  · exact SameLayout.throw_left
  exact (B.blake2s_layout _ ((hsig.r.append hvk.bits).append hpre)).bind fun _ _ hc =>
    (getGeneratorPoint_layout B J).bind fun _ _ hg => (EdwardsPoint.mul_layout B hg hsig.s).bind
    fun _ _ hsg => (EdwardsPoint.mul_layout B hvk.point hc).bind fun _ _ hcvk =>
    (EdwardsPoint.add_layout B hsig.point hcvk).bind fun _ _ hsum =>
    (SameLayout.enforce (by rw [hsg.u, hsum.u]) rfl rfl).bind fun _ _ _ =>
    SameLayout.enforce (by rw [hsg.v, hsum.v]) rfl rfl

theorem verify_auxOnly (vk : RJVerificationKey) (sig : RJSignature) (prehash : List Boolean) :
    AuxOnly (verify B J vk sig prehash) := by
  unfold verify verifyWithPersonalization
  split
  · exact AuxOnly.throw _
  exact (B.blake2s_auxOnly _ _).bind fun _ => (getGeneratorPoint_auxOnly B J).bind fun _ =>
    (EdwardsPoint.mul_auxOnly B _ _).bind fun _ => (EdwardsPoint.mul_auxOnly B _ _).bind fun _ =>
    (EdwardsPoint.add_auxOnly B _ _).bind fun _ => (AuxOnly.enforce _ _ _).bind fun _ =>
    AuxOnly.enforce _ _ _

end ProviiCrypto.Gadgets
