import ProviiCrypto.Commit.Binding

/-!
# What a nullifier binds

The nullifier is hashed from a tag and the 32 bytes of a commitment, 486 bits that fill their windows:
no padding is left to choose.

* `pedersenNullifier_collision_iff`: two commitments share a nullifier exactly when the coefficients
  that their bits give the generators are a relation between these.
* `opening_eq_or_isRelation`: two openings of one commitment with equally long randomness are equal,
  or theirs are.
-/

namespace ProviiCrypto

open Number

namespace Sapling

variable {S : Sapling}

/-- What the generators are multiplied with in two nullifiers: the differences. -/
def nullifierDifferences (c c' : Bytes 32) : List ℤ :=
  coefficientDifferences pedersenHashChunksPerGenerator 6 (nullifierPreimage c) (nullifierPreimage c')

/-- A nullifier is the sum over the windows of its preimage. -/
theorem exists_segmentsSum_nullifier (S : Sapling) (c : Bytes 32) :
    ∃ p : Point, segmentsSum 63 S.generators (nullifierPreimage c) = some p ∧
      p.toBytes = S.pedersenNullifier c := by
  obtain ⟨p, hp⟩ := Option.isSome_iff_exists.mp (S.nullifier_isSome c)
  rw [nullifierBits_eq] at hp
  refine ⟨p, ?_, (S.pedersenNullifier_eq c hp).symm⟩
  rwa [S.pedersenHash_eq, S.getBits_merkleTree] at hp

/-- The windows of a nullifier's preimage determine the commitment. -/
theorem windowDigits_nullifierPreimage_inj {c c' : Bytes 32} :
    windowDigits (nullifierPreimage c) = windowDigits (nullifierPreimage c') ↔ c = c' := by
  rw [windowDigits_inj, paddedWindows_inj, length_nullifierPreimage, length_nullifierPreimage,
    List.append_cancel_right_eq]
  constructor
  · intro h
    unfold nullifierPreimage at h
    rw [List.append_cancel_left_eq, List.append_cancel_left_eq] at h
    exact Subtype.ext (bytesBits_injective h)
  · rintro rfl
    rfl

/-- **A shared nullifier is a relation between the generators**, and the other way round: two
different commitments have one nullifier exactly when the differences of the coefficients that their
bits give the generators are a relation. -/
theorem pedersenNullifier_collision_iff (S : Sapling) (c c' : Bytes 32) :
    S.pedersenNullifier c = S.pedersenNullifier c' ∧ c ≠ c' ↔
      IsRelation subgroupOrder (nullifierDifferences c c') S.generators := by
  obtain ⟨p, hp, hnul⟩ := exists_segmentsSum_nullifier S c
  obtain ⟨p', hp', hnul'⟩ := exists_segmentsSum_nullifier S c'
  have hcollision := isRelation_iff_collision (by decide) segment_lt_subgroupOrder hp hp'
  rw [S.length_generators, ne_eq, windowDigits_nullifierPreimage_inj] at hcollision
  rw [nullifierDifferences, hcollision, ← hnul, ← hnul', Point.toBytes_injective.eq_iff]

/-- Two openings of one commitment with equally long randomness are equal, or the differences of
their coefficients are a relation. -/
theorem opening_eq_or_isRelation {dobDays dobDays' : Int32} {rBits rBits' : List Bool} {c : Bytes 32}
    (h : S.commitBytes dobDays rBits = some c) (h' : S.commitBytes dobDays' rBits' = some c)
    (hlen : rBits.length = rBits'.length) :
    dobDays = dobDays' ∧ rBits = rBits' ∨
      IsRelation subgroupOrder (openingDifferences dobDays dobDays' rBits rBits') S.generators := by
  by_cases hwindows : paddedWindows (commitmentPreimage dobDays rBits) =
    paddedWindows (commitmentPreimage dobDays' rBits')
  · obtain ⟨hdob, hr | hpads | hpads⟩ := paddedWindows_commitmentPreimage_inj.mp hwindows
    · exact .inl ⟨hdob, hr⟩
    · exact absurd hpads.length_lt (by omega)
    · exact absurd hpads.length_lt (by omega)
  · exact .inr (isRelation_of_commitBytes_eq h h' hwindows)

end Sapling

end ProviiCrypto
