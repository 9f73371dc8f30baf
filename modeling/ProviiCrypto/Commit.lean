import ProviiCrypto.Commons.Basic
import ProviiCrypto.Jubjub.Sapling

/-!
# `provii-crypto-commit`

The host's Pedersen commitment to a date of birth and its nullifier.

* `Sapling.commitBytes_isSome`: the hash behind a commitment is defined within the capacity of the
  generators, and `pedersenCommitDobValidated` only asks for it there.
* `Sapling.pedersenNullifier` is total: the nullifier's input always fits.
-/

namespace ProviiCrypto

open Number

/-- `MAX_PEDERSEN_RANDOMNESS_BITS`. -/
def maxPedersenRandomnessBits : ℕ := 1096

/-- `MIN_PEDERSEN_RANDOMNESS_BITS`. -/
def minPedersenRandomnessBits : ℕ := 128

/-! ## Randomness -/

/-- A byte from at most eight bits: `byte |= 1 << i` for the bits that are set. -/
def chunkByte : ℕ → UInt8 → List Bool → UInt8
  | _, byte, [] => byte
  | i, byte, bit :: chunk =>
    chunkByte (i + 1) (if bit then byte ||| ((1 : UInt8) <<< i.toUInt8) else byte) chunk

/-- `u16::saturating_add`. -/
def u16SaturatingAdd (x y : UInt16) : UInt16 := UInt16.ofNat (min (x.toNat + y.toNat) (2 ^ 16 - 1))

/-- The counting loop of `validate_commitment_randomness`, with its table of flags and its
counter. -/
def countSeen : List UInt8 → List Bool → UInt16 → UInt16
  | [], _, unique => unique
  | b :: bytes, seen, unique =>
    if seen.getD b.toNat false then countSeen bytes seen unique
    else countSeen bytes (seen.set b.toNat true) (u16SaturatingAdd unique 1)

/-- `validate_commitment_randomness`. -/
def validateCommitmentRandomness (rBits : List Bool) : Except Error Unit :=
  if rBits.length < 32 then .error .invalidInput
  else
    let bytes := (chunks 8 rBits).map (chunkByte 0 0)
    if countSeen bytes (List.replicate 256 false) 0 ≥ 8 then .ok () else .error .invalidInput

/-! ## Bits -/

/-- The lowest `k` bits of a word, by shifting it down. -/
def shiftBits : ℕ → UInt32 → List Bool
  | 0, _ => []
  | k + 1, value => (value &&& 1 != 0) :: shiftBits k (value >>> 1)

theorem shiftBits_eq (k : ℕ) (value : UInt32) : shiftBits k value = toBits k value.toNat := by
  induction k generalizing value with
  | zero => rfl
  | succ k ih =>
    have hbit : (value &&& 1 != 0) = value.toNat.testBit 0 := by
      rw [Bool.eq_iff_iff, bne_iff_ne, ne_eq, ← UInt32.toNat_inj, UInt32.toNat_and,
        show (1 : UInt32).toNat = 1 from rfl, Nat.and_one_is_mod, Nat.testBit_zero]
      simp
    unfold shiftBits
    rw [ih, toBits_succ, hbit, UInt32.toNat_shiftRight]
    rfl

/-- The bits of a byte string, `((byte >> i) & 1) != 0` for each of the eight positions. -/
def leBits (bytes : List UInt8) : List Bool :=
  bytes.flatMap fun byte => (List.range 8).map fun i => (byte >>> i.toUInt8) &&& 1 != 0

theorem leBits_eq (bytes : List UInt8) : leBits bytes = bytesBits bytes := by
  rw [← flatMap_u8Bits]
  refine List.flatMap_congr fun b _ => List.map_congr_left fun i _ => ?_
  have h2 : ((b >>> i.toUInt8) &&& 1).toNat = 0 ∨ ((b >>> i.toUInt8) &&& 1).toNat = 1 := by
    rw [UInt8.toNat_and, show (1 : UInt8).toNat = 1 from rfl, Nat.and_one_is_mod]
    omega
  rw [Bool.eq_iff_iff, bne_iff_ne, beq_iff_eq, ne_eq, ← UInt8.toNat_inj, ← UInt8.toNat_inj]
  rcases h2 with h | h <;> simp [h]

namespace Sapling

variable (S : Sapling)

/-- The host's hash is defined within the capacity of the generators. -/
theorem pedersenHash_isSome (p : Personalization) (vs : List Bool) :
    (S.pedersenHash p vs).isSome ↔ (S.getBits p).length + vs.length ≤ 1134 := by
  rw [S.pedersenHash_eq, segmentsSum_isSome _ (by decide), List.length_append, S.length_generators]
  rfl

theorem length_getBits_noteCommitment : (S.getBits .noteCommitment).length = 6 := by
  rw [S.getBits_noteCommitment, List.length_replicate]

theorem length_getBits_merkleTree : (S.getBits (.merkleTree 0)).length = 6 := by
  rw [S.getBits_merkleTree, List.length_replicate]

/-! ## Commitment -/

/-- The body of `pedersen_commit_dob_validated` after its checks; none when the hash panics. -/
def commitBytes (dobDays : Int32) (rBits : List Bool) : Option (Bytes 32) :=
  let dobBits := shiftBits 32 (biasForCircuit dobDays)
  (S.pedersenHash .noteCommitment (dobBits ++ rBits)).map Point.toBytes

theorem commitBytes_eq (dobDays : Int32) (rBits : List Bool) :
    S.commitBytes dobDays rBits = (S.pedersenHash .noteCommitment
      (toBits 32 (biasForCircuit dobDays).toNat ++ rBits)).map Point.toBytes := by
  unfold commitBytes
  rw [shiftBits_eq]

/-- **Capacity**: a commitment is defined exactly when its input fits the generators. -/
theorem commitBytes_isSome (dobDays : Int32) (rBits : List Bool) :
    (S.commitBytes dobDays rBits).isSome ↔ 6 + (32 + rBits.length) ≤ 1134 := by
  rw [commitBytes_eq, Option.isSome_map, pedersenHash_isSome, length_getBits_noteCommitment,
    List.length_append, length_toBits]

/-- The bits of a commitment, with those of its personalisation. -/
def commitmentPreimage (dobDays : Int32) (rBits : List Bool) : List Bool :=
  List.replicate 6 true ++ (toBits 32 (biasForCircuit dobDays).toNat ++ rBits)

/-- A commitment with 128 bits of randomness is one segment. -/
theorem commitBytes_eq_segmentSum {g : Point} {gs : List Point} (hgens : S.generators = g :: gs)
    (dobDays : Int32) {rBits : List Bool} (hr : rBits.length = 128) :
    S.commitBytes dobDays rBits = some (segmentSum g (commitmentPreimage dobDays rBits)).toBytes := by
  have hlen : (commitmentPreimage dobDays rBits).length = 166 := by
    simp [commitmentPreimage, hr]
  have hne : commitmentPreimage dobDays rBits ≠ [] := fun h => by simp [h] at hlen
  have hsum : S.pedersenHash .noteCommitment (toBits 32 (biasForCircuit dobDays).toNat ++ rBits) =
      some (segmentSum g (commitmentPreimage dobDays rBits)) := by
    rw [S.pedersenHash_eq, S.getBits_noteCommitment, hgens]
    exact segmentsSum_one 63 g gs hne (hlen.trans_le (by norm_num))
  rw [commitBytes_eq, hsum, Option.map_some]

/-- `pedersen_commit_dob_validated`. -/
def pedersenCommitDobValidated (dobDays : Int32) (rBits : List Bool) : Except Error (Bytes 32) :=
  match validateCommitmentRandomness rBits with
  | .error e => .error e
  | .ok () =>
    if rBits.length < minPedersenRandomnessBits then .error .invalidInput
    else if h : rBits.length > maxPedersenRandomnessBits then .error .invalidInput
    else .ok ((S.commitBytes dobDays rBits).get ((S.commitBytes_isSome dobDays rBits).mpr (by
      unfold maxPedersenRandomnessBits at h
      omega)))

/-- What the host accepts and returns. -/
theorem pedersenCommitDobValidated_eq_ok {dobDays : Int32} {rBits : List Bool} {c : Bytes 32} :
    S.pedersenCommitDobValidated dobDays rBits = .ok c ↔
      validateCommitmentRandomness rBits = .ok () ∧ 128 ≤ rBits.length ∧ rBits.length ≤ 1096 ∧
        S.commitBytes dobDays rBits = some c := by
  unfold pedersenCommitDobValidated minPedersenRandomnessBits maxPedersenRandomnessBits
  cases validateCommitmentRandomness rBits with
  | error e => simp
  | ok u =>
    simp only [true_and]
    by_cases hlo : rBits.length < 128
    · rw [if_pos hlo]
      simp only [reduceCtorEq, false_iff]
      omega
    by_cases hhi : rBits.length > 1096
    · rw [if_neg hlo, dif_pos hhi]
      simp only [reduceCtorEq, false_iff]
      omega
    rw [if_neg hlo, dif_neg hhi, Except.ok.injEq]
    exact ⟨fun h => ⟨by omega, by omega, Option.eq_some_iff_get_eq.mpr ⟨_, h⟩⟩,
      fun h => Option.get_of_eq_some _ h.2.2⟩

/-- What the host accepts does not depend on the date. -/
theorem pedersenCommitDobValidated_isOk {dobDays : Int32} {rBits : List Bool} :
    (∃ c, S.pedersenCommitDobValidated dobDays rBits = .ok c) ↔
      validateCommitmentRandomness rBits = .ok () ∧ 128 ≤ rBits.length ∧ rBits.length ≤ 1096 := by
  simp only [pedersenCommitDobValidated_eq_ok]
  constructor
  · rintro ⟨c, hvalid, hlo, hhi, -⟩
    exact ⟨hvalid, hlo, hhi⟩
  · rintro ⟨hvalid, hlo, hhi⟩
    obtain ⟨c, hc⟩ := Option.isSome_iff_exists.mp ((S.commitBytes_isSome dobDays rBits).mpr (by omega))
    exact ⟨c, hvalid, hlo, hhi, hc⟩

/-! ## Nullifier -/

/-- The input bits of `pedersen_nullifier`. -/
def nullifierBits (cBytes : Bytes 32) : List Bool := leBits nullifierDst ++ leBits cBytes.1

theorem nullifierBits_eq (cBytes : Bytes 32) :
    nullifierBits cBytes = bytesBits nullifierDst ++ bytesBits cBytes.1 := by
  unfold nullifierBits
  rw [leBits_eq, leBits_eq]

theorem nullifier_isSome (cBytes : Bytes 32) :
    (S.pedersenHash (.merkleTree 0) (nullifierBits cBytes)).isSome := by
  rw [pedersenHash_isSome, nullifierBits_eq, length_getBits_merkleTree, List.length_append,
    length_bytesBits, length_bytesBits, length_nullifierDst, cBytes.2]
  norm_num

/-- `pedersen_nullifier`. -/
def pedersenNullifier (cBytes : Bytes 32) : Bytes 32 :=
  Point.toBytes ((S.pedersenHash (.merkleTree 0) (nullifierBits cBytes)).get
    (S.nullifier_isSome cBytes))

theorem pedersenNullifier_eq (cBytes : Bytes 32) {Q : Point}
    (h : S.pedersenHash (.merkleTree 0) (bytesBits nullifierDst ++ bytesBits cBytes.1) = some Q) :
    S.pedersenNullifier cBytes = Q.toBytes := by
  rw [← nullifierBits_eq] at h
  exact congrArg Point.toBytes (Option.get_of_eq_some _ h)

/-- The bits of a nullifier's input, with those of its personalisation. -/
def nullifierPreimage (cBytes : Bytes 32) : List Bool :=
  List.replicate 6 false ++ (bytesBits nullifierDst ++ bytesBits cBytes.1)

theorem length_nullifierPreimage (cBytes : Bytes 32) : (nullifierPreimage cBytes).length = 486 := by
  simp [nullifierPreimage, length_nullifierDst, cBytes.2]

end Sapling

end ProviiCrypto
