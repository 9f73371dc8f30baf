import ProviiCrypto.Jubjub.Curve
import ProviiCrypto.Number.Windows

/-!
# The Pedersen hash of sapling-crypto

`Sapling` is what the repository relies on about the `sapling_crypto` crate: six generators of
prime order, the bits of a personalisation, and the host's Pedersen hash as the sum of signed
windows over segments.

`segment_lt_subgroupOrder` is the bound that keeps the partial sums of a segment apart.
-/

namespace ProviiCrypto

open Number

/-- `pedersen_hash::Personalization`. -/
inductive Personalization where
  | noteCommitment
  | merkleTree (depth : ℕ)
  deriving DecidableEq, Repr

/-- `constants::PEDERSEN_HASH_CHUNKS_PER_GENERATOR`. -/
def pedersenHashChunksPerGenerator : ℕ := 63

/-- What the repository uses of `sapling_crypto`. -/
structure Sapling where
  /-- `constants::PEDERSEN_HASH_GENERATORS`. -/
  generators : List Point
  length_generators : generators.length = 6
  generators_prime : ∀ g ∈ generators, PrimeOrder g ∧ g ≠ 0
  /-- `Personalization::get_bits`. -/
  getBits : Personalization → List Bool
  getBits_noteCommitment : getBits .noteCommitment = List.replicate 6 true
  getBits_merkleTree : getBits (.merkleTree 0) = List.replicate 6 false
  /-- `pedersen_hash::pedersen_hash`; none when it panics for want of generators. -/
  pedersenHash : Personalization → List Bool → Option Point
  pedersenHash_eq : ∀ p bits, pedersenHash p bits =
    segmentsSum pedersenHashChunksPerGenerator generators (getBits p ++ bits)

/-- The order is larger than the difference of any two segments' digit sums. -/
theorem segment_lt_subgroupOrder :
    8 * (16 ^ pedersenHashChunksPerGenerator - 1) < 15 * (subgroupOrder : ℤ) := by
  unfold pedersenHashChunksPerGenerator
  norm_num

/-- A nonempty segment's digits never sum to a multiple of the order. -/
theorem not_dvd_signedSum {ds : List ℤ} (h : ∀ d ∈ ds, IsDigit d) (hne : ds ≠ [])
    (hlen : ds.length ≤ 63) : ¬ (subgroupOrder : ℤ) ∣ signedSum ds :=
  not_dvd_of_isDigit segment_lt_subgroupOrder h hne hlen

end ProviiCrypto
