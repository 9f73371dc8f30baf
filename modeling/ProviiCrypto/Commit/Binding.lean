import ProviiCrypto.Commit
import ProviiCrypto.Reference.Sapling

/-!
# What a commitment binds

The hash behind a commitment reads its input in windows of three bits and fills up the last one with
zeros, and the host takes randomness of any length from 128 to 1096 bits.

* `padsTo_iff`: two accepted openings have the same windows exactly when they are equal, or one is
  the other with zeros in the rest of its last window.
* `commitment_windows_iff`: such openings share their commitment; any others that share one are a
  relation between the generators.
-/

namespace ProviiCrypto

open Number

namespace Sapling

/-- The second randomness is the first with zeros in the rest of its last window. -/
def PadsTo (rBits rBits' : List Bool) : Prop :=
  ∃ k, 0 < k ∧ k ≤ windowPadding (38 + rBits.length) ∧ rBits' = rBits ++ List.replicate k false

theorem length_commitmentPreimage (dobDays : Int32) (rBits : List Bool) :
    (commitmentPreimage dobDays rBits).length = 38 + rBits.length := by
  simp only [commitmentPreimage, List.length_append, List.length_replicate, length_toBits]
  omega

theorem PadsTo.length_lt {rBits rBits' : List Bool} (h : PadsTo rBits rBits') :
    rBits.length < rBits'.length := by
  obtain ⟨k, hpos, -, rfl⟩ := h
  rw [List.length_append, List.length_replicate]
  omega

/-- Zeros in the rest of the last window do not change the windows. -/
theorem PadsTo.paddedWindows_eq {rBits rBits' : List Bool} (h : PadsTo rBits rBits')
    (dobDays : Int32) : paddedWindows (commitmentPreimage dobDays rBits) =
      paddedWindows (commitmentPreimage dobDays rBits') := by
  obtain ⟨k, -, hk, rfl⟩ := h
  rw [paddedWindows_inj, length_commitmentPreimage, length_commitmentPreimage]
  have hsplit : windowPadding (38 + rBits.length) =
      k + windowPadding (38 + (rBits ++ List.replicate k false).length) := by
    rw [List.length_append, List.length_replicate]
    unfold windowPadding at hk ⊢
    omega
  rw [hsplit, List.replicate_add]
  simp [commitmentPreimage]

/-- Strings that become equal with zeros after them are one of them with zeros after it. -/
private theorem eq_append_replicate {xs ys : List Bool} {m n : ℕ}
    (h : xs ++ List.replicate m false = ys ++ List.replicate n false) (hle : xs.length ≤ ys.length) :
    ∃ k, m = k + n ∧ ys = xs ++ List.replicate k false := by
  have hlen := congrArg List.length h
  simp only [List.length_append, List.length_replicate] at hlen
  refine ⟨ys.length - xs.length, by omega, ?_⟩
  rw [show m = ys.length - xs.length + n by omega, List.replicate_add, ← List.append_assoc] at h
  exact (List.append_inj_left' h (by simp)).symm

/-- **The windows of two openings** are the same exactly when the openings are equal or differ in
the zeros that fill up a window. -/
theorem paddedWindows_commitmentPreimage_inj {dobDays dobDays' : Int32} {rBits rBits' : List Bool} :
    paddedWindows (commitmentPreimage dobDays rBits) =
        paddedWindows (commitmentPreimage dobDays' rBits') ↔
      dobDays = dobDays' ∧ (rBits = rBits' ∨ PadsTo rBits rBits' ∨ PadsTo rBits' rBits) := by
  constructor
  · intro h
    rw [paddedWindows_inj, length_commitmentPreimage, length_commitmentPreimage] at h
    simp only [commitmentPreimage, List.append_assoc, List.append_cancel_left_eq] at h
    obtain ⟨hdob, hrest⟩ := List.append_inj h (by simp)
    refine ⟨biasBits_injective hdob, ?_⟩
    rcases le_total rBits.length rBits'.length with hle | hle
    · obtain ⟨k, hk, heq⟩ := eq_append_replicate hrest hle
      rcases Nat.eq_zero_or_pos k with rfl | hpos
      · exact .inl (by simpa using heq.symm)
      · exact .inr (.inl ⟨k, hpos, by omega, heq⟩)
    · obtain ⟨k, hk, heq⟩ := eq_append_replicate hrest.symm hle
      rcases Nat.eq_zero_or_pos k with rfl | hpos
      · exact .inl (by simpa using heq)
      · exact .inr (.inr ⟨k, hpos, by omega, heq⟩)
  · rintro ⟨rfl, rfl | hpads | hpads⟩
    · rfl
    · exact hpads.paddedWindows_eq dobDays
    · exact (hpads.paddedWindows_eq dobDays).symm

variable {S : Sapling}

/-- A commitment is the sum over the windows of its preimage. -/
theorem exists_segmentsSum_of_commitBytes {dobDays : Int32} {rBits : List Bool} {c : Bytes 32}
    (h : S.commitBytes dobDays rBits = some c) :
    ∃ p : Point, segmentsSum 63 S.generators (commitmentPreimage dobDays rBits) = some p ∧
      p.toBytes = c := by
  rw [commitBytes_eq, S.pedersenHash_eq, S.getBits_noteCommitment, Option.map_eq_some_iff] at h
  exact h

/-- The windows decide the commitment. -/
theorem commitBytes_congr {dobDays dobDays' : Int32} {rBits rBits' : List Bool}
    (h : paddedWindows (commitmentPreimage dobDays rBits) =
      paddedWindows (commitmentPreimage dobDays' rBits')) :
    S.commitBytes dobDays rBits = S.commitBytes dobDays' rBits' := by
  rw [commitBytes_eq, commitBytes_eq, S.pedersenHash_eq, S.pedersenHash_eq,
    S.getBits_noteCommitment]
  exact congrArg _ (segmentsSum_congr _ _ (windowDigits_inj.mpr h))

/-- The differences between what two openings multiply the generators with. -/
def openingDifferences (dobDays dobDays' : Int32) (rBits rBits' : List Bool) : List ℤ :=
  coefficientDifferences 63 6 (commitmentPreimage dobDays rBits) (commitmentPreimage dobDays' rBits')

/-- One commitment of other windows is a relation between the generators. -/
theorem isRelation_of_commitBytes_eq {dobDays dobDays' : Int32} {rBits rBits' : List Bool}
    {c : Bytes 32} (h : S.commitBytes dobDays rBits = some c)
    (h' : S.commitBytes dobDays' rBits' = some c)
    (hne : paddedWindows (commitmentPreimage dobDays rBits) ≠
      paddedWindows (commitmentPreimage dobDays' rBits')) :
    IsRelation subgroupOrder (openingDifferences dobDays dobDays' rBits rBits') S.generators := by
  obtain ⟨p, hp, rfl⟩ := exists_segmentsSum_of_commitBytes h
  obtain ⟨p', hp', heq⟩ := exists_segmentsSum_of_commitBytes h'
  obtain rfl := Point.toBytes_injective heq
  have hrelation := isRelation_of_segmentsSum_eq (by decide) segment_lt_subgroupOrder hp hp'
    fun hdigits => hne (windowDigits_inj.mp hdigits)
  rwa [S.length_generators] at hrelation

/-- **When the windows bind an opening**: unless the dates are equal and one randomness is the other
with zeros in the rest of its last window. Those openings do share their commitment; any others that
share one give a relation between the generators, by what they multiply them with. -/
theorem commitment_windows_iff (S : Sapling) {dobDays dobDays' : Int32} {rBits rBits' : List Bool}
    {c c' : Bytes 32} (h : S.pedersenCommitDobValidated dobDays rBits = .ok c)
    (h' : S.pedersenCommitDobValidated dobDays' rBits' = .ok c') :
    ((paddedWindows (commitmentPreimage dobDays rBits) =
          paddedWindows (commitmentPreimage dobDays' rBits') →
        dobDays = dobDays' ∧ rBits = rBits') ↔
      ¬ (dobDays = dobDays' ∧ (PadsTo rBits rBits' ∨ PadsTo rBits' rBits))) ∧
    (dobDays = dobDays' → PadsTo rBits rBits' ∨ PadsTo rBits' rBits → c = c') ∧
    (c = c' → ¬ (dobDays = dobDays' ∧ (PadsTo rBits rBits' ∨ PadsTo rBits' rBits)) →
      (dobDays, rBits) ≠ (dobDays', rBits') →
      IsRelation subgroupOrder (openingDifferences dobDays dobDays' rBits rBits') S.generators) := by
  obtain ⟨-, -, -, hc⟩ := S.pedersenCommitDobValidated_eq_ok.mp h
  obtain ⟨-, -, -, hc'⟩ := S.pedersenCommitDobValidated_eq_ok.mp h'
  refine ⟨⟨?_, ?_⟩, ?_, ?_⟩
  · rintro hbinds ⟨hdob, hpads⟩
    have heq := (hbinds (paddedWindows_commitmentPreimage_inj.mpr ⟨hdob, .inr hpads⟩)).2
    rcases hpads with hpads | hpads
    · exact absurd hpads.length_lt (by rw [heq]; exact lt_irrefl _)
    · exact absurd hpads.length_lt (by rw [heq]; exact lt_irrefl _)
  · intro hnot hwindows
    obtain ⟨hdob, heq | hpads⟩ := paddedWindows_commitmentPreimage_inj.mp hwindows
    · exact ⟨hdob, heq⟩
    · exact absurd ⟨hdob, hpads⟩ hnot
  · intro hdob hpads
    have hwindows := paddedWindows_commitmentPreimage_inj.mpr ⟨hdob, .inr hpads⟩
    rw [commitBytes_congr hwindows, hc'] at hc
    exact (Option.some.inj hc).symm
  · rintro rfl hnot hne
    refine isRelation_of_commitBytes_eq hc hc' fun hwindows => ?_
    obtain ⟨rfl, rfl | hpads⟩ := paddedWindows_commitmentPreimage_inj.mp hwindows
    · exact hne rfl
    · exact hnot ⟨rfl, hpads⟩

/-- Randomness of sixteen bytes, no two of them equal. -/
def sampleRandomness : List Bool := bytesBits ((List.range 16).map UInt8.ofNat)

theorem length_sampleRandomness : sampleRandomness.length = 128 := by
  simp [sampleRandomness]

theorem exists_commitment_sampleRandomness (S : Sapling) (dobDays : Int32) :
    ∃ c, S.pedersenCommitDobValidated dobDays sampleRandomness = .ok c := by
  have hlen := length_sampleRandomness
  exact S.pedersenCommitDobValidated_isOk.mpr ⟨by decide +kernel, by omega, by omega⟩

theorem exists_commitment_padded (S : Sapling) (dobDays : Int32) :
    ∃ c, S.pedersenCommitDobValidated dobDays (sampleRandomness ++ [false]) = .ok c := by
  have hlen : (sampleRandomness ++ [false]).length = 129 := by
    rw [List.length_append, length_sampleRandomness]
    rfl
  exact S.pedersenCommitDobValidated_isOk.mpr ⟨by decide +kernel, by omega, by omega⟩

theorem padsTo_sampleRandomness : PadsTo sampleRandomness (sampleRandomness ++ [false]) :=
  ⟨1, by decide, by rw [length_sampleRandomness]; decide, rfl⟩

theorem commitment_windows_iff_sample :
    ∃ c c', Reference.sapling.pedersenCommitDobValidated 7300 sampleRandomness = .ok c ∧
      Reference.sapling.pedersenCommitDobValidated 7300 (sampleRandomness ++ [false]) = .ok c' ∧
      c = c' := by
  obtain ⟨c, hc⟩ := exists_commitment_sampleRandomness Reference.sapling 7300
  obtain ⟨c', hc'⟩ := exists_commitment_padded Reference.sapling 7300
  exact ⟨c, c', hc, hc', (commitment_windows_iff Reference.sapling hc hc').2.1 rfl
    (.inl padsTo_sampleRandomness)⟩

/-- Two accepted openings with the same windows: the second has a zero bit more. -/
theorem commitment_windows_shared :
    ¬ ∀ (dobDays dobDays' : Int32) (rBits rBits' : List Bool) (c c' : Bytes 32),
      Reference.sapling.pedersenCommitDobValidated dobDays rBits = .ok c →
      Reference.sapling.pedersenCommitDobValidated dobDays' rBits' = .ok c' →
      paddedWindows (commitmentPreimage dobDays rBits) =
        paddedWindows (commitmentPreimage dobDays' rBits') →
      dobDays = dobDays' ∧ rBits = rBits' := by
  intro h
  obtain ⟨c, hc⟩ := exists_commitment_sampleRandomness Reference.sapling 7300
  obtain ⟨c', hc'⟩ := exists_commitment_padded Reference.sapling 7300
  have heq := (h 7300 7300 _ _ c c' hc hc' (padsTo_sampleRandomness.paddedWindows_eq 7300)).2
  exact absurd (congrArg List.length heq) (by simp)

end Sapling

end ProviiCrypto
