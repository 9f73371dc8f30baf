import ProviiCrypto.Commit
import ProviiCrypto.Gadgets.Bits
import ProviiCrypto.Gadgets.SaplingPedersen

/-!
# `gadgets::pedersen`

The nullifier and the commitment as wires. Both hash a string and encode the point; what the
constraints force is the encoding of the point the host computes (`hashRepr_sound`).
-/

namespace ProviiCrypto.Gadgets

open R1CS R1CS.Synth Number

variable {H : Blake2s} (B : Bellman H) (S : Sapling)

/-- `pedersen_nullifier`. -/
def pedersenNullifier (cBytesBits : List Boolean) : Synth Scalar (List Boolean) := do
  let inputBits := nullifierDst.flatMap constantByte ++ cBytesBits
  let nullifierPoint ← pedersenHash B S (.merkleTree 0) inputBits
  let nullifierBitsFull ← nullifierPoint.repr B
  return nullifierBitsFull.take 256

/-- `commit`. -/
def commit (dobBits rBits : List Boolean) : Synth Scalar (List Boolean) := do
  let commitment ← pedersenHash B S .noteCommitment (dobBits ++ rBits)
  commitment.repr B

/-- `enforce_bytes_equal`. -/
def enforceBytesEqual (computed witnessed : List Boolean) : Synth Scalar Unit :=
  if computed.length ≠ witnessed.length then throw .unsatisfiable
  else (computed.zip witnessed).forM fun (c, w) => enforce (c.lc 1) (.var .one) (w.lc 1)

theorem enforceBytesEqual_eq (computed witnessed : List Boolean) :
    enforceBytesEqual computed witnessed = enforceBitsEqual computed witnessed := rfl

/-! ## A hash and its encoding -/

/-- The encoding of a string's hash. -/
def hashRepr (p : Personalization) (bits : List Boolean) : Synth Scalar (List Boolean) := do
  let point ← pedersenHash B S p bits
  point.repr B

section

variable {p : Personalization} (hp : (S.getBits p).length = 6)
include hp

/-- **The constraints force the encoding of the host's hash.** -/
theorem hashRepr_sound (bits : List Boolean) :
    Sound (hashRepr B S p bits) fun w out => ∀ vs, ReadsAll w bits vs →
      ∃ Q, S.pedersenHash p vs = some Q ∧ ReadsAll w out Q.reprBits :=
  Sound.bind (pedersenHash_sound B S p hp bits) fun point =>
    (EdwardsPoint.repr_sound B point).mono fun w out hrepr hhash vs hvs => by
      obtain ⟨Q, hQ, hread⟩ := hhash vs hvs
      exact ⟨Q, hQ, hrepr Q hread⟩

theorem hashRepr_honest (n : Counts) {bits : List Boolean} {vs : List Bool} {Q : Point}
    (hvs : KnownAll bits vs) (hQ : S.pedersenHash p vs = some Q) :
    Honest n (hashRepr B S p bits) (fun w => ReadsAll w bits vs)
      (fun out => KnownAll out Q.reprBits) fun w out => ReadsAll w out Q.reprBits :=
  (pedersenHash_honest B S n p hp hvs hQ).bind fun _ n' hk =>
    (EdwardsPoint.repr_honest B n' hk).of_pre fun _ h => h.2

theorem hashRepr_returns (bits : List Boolean) :
    Returns (hashRepr B S p bits) fun _ => 6 + bits.length ≤ 1134 :=
  (pedersenHash_returns B S p hp bits).bind fun _ h => (Returns.trivial _).mono fun _ _ => h

omit hp

theorem hashRepr_layout (p : Personalization) {bits bits' : List Boolean}
    (h : SameWires bits bits') :
    SameLayout SameWires (hashRepr B S p bits) (hashRepr B S p bits') :=
  (pedersenHash_layout B S p h).bind fun _ _ hp => EdwardsPoint.repr_layout B hp

theorem hashRepr_auxOnly (p : Personalization) (bits : List Boolean) :
    AuxOnly (hashRepr B S p bits) :=
  (pedersenHash_auxOnly B S p bits).bind fun _ => EdwardsPoint.repr_auxOnly B _

end

/-! ## The commitment -/

theorem commit_sound (dobBits rBits : List Boolean) :
    Sound (commit B S dobBits rBits) fun w out => ∀ dob r,
      ReadsAll w dobBits (toBits 32 (biasForCircuit dob).toNat) → ReadsAll w rBits r →
      ∃ c, S.commitBytes dob r = some c ∧ ReadsAll w out (bytesBits c.1) :=
  (hashRepr_sound B S S.length_getBits_noteCommitment _).mono fun w out h dob r hd hr => by
    obtain ⟨Q, hQ, hout⟩ := h _ (hd.append hr)
    refine ⟨Q.toBytes, ?_, by rwa [Point.bytesBits_toBytes]⟩
    rw [S.commitBytes_eq, hQ, Option.map_some]

theorem commit_honest (n : Counts) {dobBits rBits : List Boolean} {dob : Int32} {r : List Bool}
    {c : Bytes 32} (hd : KnownAll dobBits (toBits 32 (biasForCircuit dob).toNat))
    (hr : KnownAll rBits r) (hc : S.commitBytes dob r = some c) :
    Honest n (commit B S dobBits rBits)
      (fun w => ReadsAll w dobBits (toBits 32 (biasForCircuit dob).toNat) ∧ ReadsAll w rBits r)
      (fun out => KnownAll out (bytesBits c.1)) fun w out => ReadsAll w out (bytesBits c.1) := by
  rw [S.commitBytes_eq] at hc
  obtain ⟨Q, hQ, rfl⟩ := Option.map_eq_some_iff.mp hc
  rw [Point.bytesBits_toBytes]
  exact (hashRepr_honest B S S.length_getBits_noteCommitment n (hd.append hr) hQ).of_pre fun _ h =>
    h.1.append h.2

theorem commit_returns (dobBits rBits : List Boolean) :
    Returns (commit B S dobBits rBits) fun _ => 6 + (dobBits.length + rBits.length) ≤ 1134 := by
  rw [← List.length_append]
  exact hashRepr_returns B S S.length_getBits_noteCommitment _

theorem commit_layout {d d' r r' : List Boolean} (hd : SameWires d d') (hr : SameWires r r') :
    SameLayout SameWires (commit B S d r) (commit B S d' r') :=
  hashRepr_layout B S _ (hd.append hr)

theorem commit_auxOnly (d r : List Boolean) : AuxOnly (commit B S d r) := hashRepr_auxOnly B S _ _

/-! ## The nullifier -/

private theorem pedersenNullifier_hashRepr (bits : List Boolean) :
    pedersenNullifier B S bits =
      hashRepr B S (.merkleTree 0) (nullifierDst.flatMap constantByte ++ bits) >>= fun out =>
        pure (out.take 256) := by
  simp [pedersenNullifier, hashRepr]

private theorem nullifierDst_bits : nullifierDst.flatMap constantByte =
    (bytesBits nullifierDst).map .constant := by
  rw [bytesBits, List.map_flatMap]
  exact List.flatMap_congr fun b _ => by rw [constantByte, u8Bits_eq]

private theorem forall₂_take {R : Boolean → Bool → Prop} {out : List Boolean} {Q : Point}
    (h : List.Forall₂ R out Q.reprBits) : List.Forall₂ R (out.take 256) (bytesBits Q.toBytes.1) := by
  rw [Point.bytesBits_toBytes, ← List.take_of_length_le (Q.length_reprBits).le]
  exact List.forall₂_take 256 h

theorem pedersenNullifier_sound (bits : List Boolean) :
    Sound (pedersenNullifier B S bits) fun w out => ∀ c : Bytes 32, ReadsAll w bits (bytesBits c.1) →
      ReadsAll w out (bytesBits (S.pedersenNullifier c).1) := by
  rw [pedersenNullifier_hashRepr, nullifierDst_bits]
  refine Sound.bind (hashRepr_sound B S S.length_getBits_merkleTree _) fun out =>
    Sound.pure fun w h c hc => ?_
  obtain ⟨Q, hQ, hout⟩ := h _ ((readsAll_constant (bytesBits nullifierDst)).append hc)
  rw [S.pedersenNullifier_eq c hQ]
  exact forall₂_take hout

theorem pedersenNullifier_honest (n : Counts) {bits : List Boolean} {c : Bytes 32}
    (hc : KnownAll bits (bytesBits c.1)) :
    Honest n (pedersenNullifier B S bits) (fun w => ReadsAll w bits (bytesBits c.1))
      (fun out => KnownAll out (bytesBits (S.pedersenNullifier c).1))
      fun w out => ReadsAll w out (bytesBits (S.pedersenNullifier c).1) := by
  rw [pedersenNullifier_hashRepr, nullifierDst_bits]
  obtain ⟨Q, hQ⟩ := Option.isSome_iff_exists.mp (S.nullifier_isSome c)
  rw [Sapling.nullifierBits_eq] at hQ
  rw [S.pedersenNullifier_eq c hQ]
  refine ((hashRepr_honest B S S.length_getBits_merkleTree n ((knownAll_constant _).append hc)
    hQ).of_pre fun w h => (readsAll_constant _).append h).bind
    fun out _ hk => Honest.pure (forall₂_take hk) fun w h => forall₂_take h.2

theorem pedersenNullifier_returns (bits : List Boolean) :
    Returns (pedersenNullifier B S bits) fun _ => 6 + (224 + bits.length) ≤ 1134 := by
  rw [pedersenNullifier_hashRepr, nullifierDst_bits]
  refine (hashRepr_returns B S S.length_getBits_merkleTree _).bind fun out h => Returns.pure ?_
  simpa [length_nullifierDst] using h

theorem pedersenNullifier_layout {bits bits' : List Boolean} (h : SameWires bits bits') :
    SameLayout SameWires (pedersenNullifier B S bits) (pedersenNullifier B S bits') := by
  rw [pedersenNullifier_hashRepr, pedersenNullifier_hashRepr]
  exact (hashRepr_layout B S _ ((SameWires.refl _).append h)).bind fun _ _ ho =>
    SameLayout.pure (List.forall₂_take 256 ho)

theorem pedersenNullifier_auxOnly (bits : List Boolean) : AuxOnly (pedersenNullifier B S bits) := by
  rw [pedersenNullifier_hashRepr]
  exact (hashRepr_auxOnly B S _ _).bind fun _ => AuxOnly.pure _

end ProviiCrypto.Gadgets
