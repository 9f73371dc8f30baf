import Mathlib.Data.Fintype.Vector
import Mathlib.Data.Vector.Mem
import ProviiCrypto.Coding.Words
import ProviiCrypto.Commit.Randomness

/-!
# Nonces

`generate_nonce` draws 32 bytes, `validate_nonce` asks for a byte that is not zero and for eight
different ones, which is what `validate_commitment_randomness` asks of a blinding factor.

* `validateNonce_iff`: the eight different bytes are all that is asked for.
* `nonce_heuristic`: a nonce is accepted exactly when the 256 bits drawn from the same stream are
  accepted as a blinding factor; and how few nonces, and blinding factors of 128 bits, are refused.
-/

namespace ProviiCrypto.Protocol

open Number Coding

/-- `generate_nonce`, from the generator of the system, which fails in a browser only. -/
def generateNonce (osRng : Option RngStream) : Except Error (Bytes 32) :=
  match osRng with
  | some rng => .ok (fillBytes rng 32)
  | none => .error .internal

/-- `has_sufficient_entropy`, with its table of flags and its counter of 16 bits. -/
def hasSufficientEntropy (nonce : Bytes 32) : Bool :=
  countSeen nonce.1 (List.replicate 256 false) 0 ≥ 8

/-- `validate_nonce`. -/
def validateNonce (nonce : Bytes 32) : Bool := nonce.1.any (· != 0) && hasSufficientEntropy nonce

theorem hasSufficientEntropy_iff (nonce : Bytes 32) :
    hasSufficientEntropy nonce = true ↔ 8 ≤ nonce.1.toFinset.card := by
  rw [hasSufficientEntropy, decide_eq_true_eq, ge_iff_le, eight_le_countSeen]

/-- **What is accepted**: eight different bytes, one of which is then not zero. -/
theorem validateNonce_iff (nonce : Bytes 32) :
    validateNonce nonce = true ↔ 8 ≤ nonce.1.toFinset.card := by
  rw [validateNonce, Bool.and_eq_true, hasSufficientEntropy_iff, and_iff_right_iff_imp]
  intro hcard
  by_contra hzero
  have hsub : nonce.1.toFinset ⊆ {0} := by
    intro b hb
    by_contra hne
    refine hzero (List.any_eq_true.mpr ⟨b, List.mem_toFinset.mp hb, ?_⟩)
    simpa using hne
  have hle := Finset.card_le_card hsub
  rw [Finset.card_singleton] at hle
  omega

/-- The bits of whole bytes are rebuilt into them. -/
theorem rebuiltBytes_whole (rng : RngStream) (k : ℕ) :
    rebuiltBytes (generateCommitmentRandomness rng (8 * k)) = (fillBytes rng k).1 := by
  have hcount : (8 * k + 7) / 8 = k := by omega
  rw [rebuiltBytes_generate, hcount, fillBytes]
  refine List.map_congr_left fun i hi => lowBits_of_le ?_ _
  have := List.mem_range.mp hi
  omega

theorem validateCommitmentRandomness_whole (rng : RngStream) {k : ℕ} (hk : 4 ≤ k) :
    validateCommitmentRandomness (generateCommitmentRandomness rng (8 * k)) = .ok () ↔
      8 ≤ (fillBytes rng k).1.toFinset.card := by
  rw [validateCommitmentRandomness_eq_ok, rebuiltBytes_whole, and_iff_right_iff_imp]
  intro _
  rw [generateCommitmentRandomness_eq, List.length_map, List.length_range]
  omega

/-- Every string is drawn from some stream. -/
theorem exists_fillBytes {k : ℕ} (bytes : Bytes k) : ∃ rng, fillBytes rng k = bytes := by
  refine ⟨fun i => bytes.1.getD i 0, Subtype.ext (List.ext_getElem ?_ fun i hi hi' => ?_)⟩
  · rw [(fillBytes _ k).2, bytes.2]
  · simp [fillBytes, hi']

/-! ## How few are refused -/

section Count

private def byteEquiv : Fin 256 ≃ UInt8 where
  toFun := UInt8.ofFin
  invFun := UInt8.toFin
  left_inv _ := rfl
  right_inv _ := rfl

local instance fintypeUInt8 : Fintype UInt8 := .ofEquiv (Fin 256) byteEquiv

private theorem card_byte : Fintype.card UInt8 = 256 :=
  (Fintype.ofEquiv_card byteEquiv).trans (Fintype.card_fin 256)

private theorem card_bytes (k : ℕ) : Nat.card (Bytes k) = 256 ^ k := by
  have hcard : Fintype.card (List.Vector UInt8 k) = 256 ^ k := by rw [card_vector, card_byte]
  rw [← hcard]
  exact Nat.card_eq_fintype_card (α := List.Vector UInt8 k)

/-- A string of bytes, by position. -/
private def bytesEquiv (k : ℕ) : Bytes k ≃ (Fin k → UInt8) := Equiv.vectorEquivFin UInt8 k

private theorem toFinset_eq_image {k : ℕ} (bytes : Bytes k) :
    bytes.1.toFinset = Finset.univ.image (bytesEquiv k bytes) := by
  ext b
  simp only [List.mem_toFinset, Finset.mem_image, Finset.mem_univ, true_and]
  exact List.Vector.mem_iff_get b bytes

/-- Strings of `k` bytes with fewer than eight different ones. -/
theorem card_refused_le (k : ℕ) :
    Nat.card {bytes : Bytes k // ¬ 8 ≤ bytes.1.toFinset.card} ≤ Nat.choose 256 7 * 7 ^ k := by
  have hword : ∀ bytes : Bytes k, ¬ 8 ≤ bytes.1.toFinset.card ↔
      (Finset.univ.image (bytesEquiv k bytes)).card ≤ 7 := by
    intro bytes
    rw [toFinset_eq_image]
    omega
  rw [Nat.card_congr ((bytesEquiv k).subtypeEquiv
    (q := fun w => (Finset.univ.image w).card ≤ 7) hword), Nat.card_eq_fintype_card,
    Fintype.card_subtype]
  have hle := card_few_letters_le (α := UInt8) k 7 (by rw [card_byte]; norm_num)
  rwa [card_byte] at hle

end Count

/-- **The heuristic.** The test for a byte that is not zero refuses nothing more; a nonce drawn from a
stream is accepted exactly when 256 bits drawn from it are accepted as a blinding factor; and of all
strings of 32 bytes at most one in `2 ^ 122` is refused as a nonce, of all strings of 16 bytes at most
one in `2 ^ 39` as the blinding factor of 128 bits. -/
theorem nonce_heuristic :
    (∀ nonce, validateNonce nonce = hasSufficientEntropy nonce ∧
      (validateNonce nonce = true ↔ 8 ≤ nonce.1.toFinset.card)) ∧
    (∀ osRng nonce, generateNonce osRng = .ok nonce → ∃ rng, osRng = some rng ∧
      (validateNonce nonce = true ↔
        validateCommitmentRandomness (generateCommitmentRandomness rng 256) = .ok ())) ∧
    Nat.card {nonce // validateNonce nonce = false} * 2 ^ 122 ≤ Nat.card (Bytes 32) ∧
    Nat.card {drawn : Bytes 16 // ∀ rng, fillBytes rng 16 = drawn →
      validateCommitmentRandomness (generateCommitmentRandomness rng 128) ≠ .ok ()} * 2 ^ 39 ≤
        Nat.card (Bytes 16) := by
  have hchoose : Nat.choose 256 7 ≤ 2 ^ 44 := by
    rw [Nat.choose_eq_descFactorial_div_factorial]
    decide
  refine ⟨fun nonce => ⟨?_, validateNonce_iff nonce⟩, ?_, ?_, ?_⟩
  · rw [Bool.eq_iff_iff, validateNonce_iff, hasSufficientEntropy_iff]
  · intro osRng nonce h
    cases osRng with
    | none => cases h
    | some rng =>
      obtain rfl := Except.ok.inj h
      refine ⟨rng, rfl, ?_⟩
      rw [validateNonce_iff]
      exact (validateCommitmentRandomness_whole rng (k := 32) (by norm_num)).symm
  · have hrefused : ∀ nonce, validateNonce nonce = false ↔ ¬ 8 ≤ nonce.1.toFinset.card := by
      intro nonce
      rw [← validateNonce_iff, Bool.not_eq_true]
    rw [Nat.card_congr (Equiv.subtypeEquivRight hrefused), card_bytes]
    calc _ ≤ (Nat.choose 256 7 * 7 ^ 32) * 2 ^ 122 := Nat.mul_le_mul_right _ (card_refused_le 32)
      _ ≤ (2 ^ 44 * 7 ^ 32) * 2 ^ 122 := by gcongr
      _ ≤ 256 ^ 32 := by norm_num
  · have hrefused : ∀ drawn : Bytes 16, (∀ rng, fillBytes rng 16 = drawn →
        validateCommitmentRandomness (generateCommitmentRandomness rng 128) ≠ .ok ()) ↔
        ¬ 8 ≤ drawn.1.toFinset.card := by
      intro drawn
      have hwhole : ∀ rng, validateCommitmentRandomness (generateCommitmentRandomness rng 128) =
          .ok () ↔ 8 ≤ (fillBytes rng 16).1.toFinset.card := fun rng =>
        validateCommitmentRandomness_whole rng (k := 16) (by norm_num)
      constructor
      · intro h hcard
        obtain ⟨rng, rfl⟩ := exists_fillBytes drawn
        exact h rng rfl ((hwhole rng).mpr hcard)
      · rintro h rng rfl hok
        exact h ((hwhole rng).mp hok)
    rw [Nat.card_congr (Equiv.subtypeEquivRight hrefused), card_bytes]
    calc _ ≤ (Nat.choose 256 7 * 7 ^ 16) * 2 ^ 39 := Nat.mul_le_mul_right _ (card_refused_le 16)
      _ ≤ (2 ^ 44 * 7 ^ 16) * 2 ^ 39 := by gcongr
      _ ≤ 256 ^ 16 := by norm_num

/-- A stream that counts: its nonce and its blinding factor are accepted. -/
theorem nonce_heuristic_counter : ∃ nonce,
    generateNonce (some fun i => UInt8.ofNat i) = .ok nonce ∧ validateNonce nonce = true ∧
      validateCommitmentRandomness
        (generateCommitmentRandomness (fun i => UInt8.ofNat i) 256) = .ok () := by
  obtain ⟨haccepts, hdrawn, -, -⟩ := nonce_heuristic
  have hnonce : validateNonce (fillBytes (fun i => UInt8.ofNat i) 32) = true :=
    (haccepts _).2.mpr (by decide +kernel)
  obtain ⟨rng, hrng, hiff⟩ := hdrawn (some fun i => UInt8.ofNat i) _ rfl
  obtain rfl := Option.some.inj hrng
  exact ⟨_, rfl, hnonce, hiff.mp hnonce⟩

end ProviiCrypto.Protocol
