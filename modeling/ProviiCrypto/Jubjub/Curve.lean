import Mathlib.NumberTheory.LegendreSymbol.Basic
import ProviiCrypto.Edwards.Evaluate
import ProviiCrypto.Edwards.Montgomery
import ProviiCrypto.Jubjub.Field
import ProviiCrypto.Number.Bits

/-!
# Jubjub

The curve `-u² + v² = 1 + d u² v²` over `Scalar`, its Montgomery form, the compressed encoding of
its points and its prime-order part.

* `Point.toBytes_injective`: the encoding (`v`, with the sign of `u` in the top bit) is canonical.
* `PrimeOrder.u_ne_zero`: a non-neutral point of the prime-order subgroup has `u ≠ 0`, hence
  Montgomery coordinates.
-/

namespace ProviiCrypto

/-- `Scalar::from_raw`: four 64-bit limbs, least significant first. -/
def Scalar.fromRaw (a b c d : ℕ) : Scalar :=
  ((a + 2 ^ 64 * b + 2 ^ 128 * c + 2 ^ 192 * d : ℕ) : Scalar)

/-- `EDWARDS_D`: the `d` constant of the twisted Edwards curve. -/
def edwardsD : Scalar :=
  Scalar.fromRaw 0x01065fd6d6343eb1 0x292d7f6d37579d26 0xf5fd9207e6bd7fd4 0x2a9318e74bfa2b48

/-- `MONTGOMERY_A`: the `A` constant of the birationally equivalent Montgomery curve. -/
def montgomeryA : Scalar := Scalar.fromRaw 0x000000000000a002 0 0 0

/-- `MONTGOMERY_SCALE`: the scaling factor for conversion to and from the Montgomery form. -/
def montgomeryScale : Scalar :=
  Scalar.fromRaw 0x8f4535f7cf82b8d9 0xce4069703da88abd 0x31de341e77d764e5 0x2762de61e862645e

/-- Jubjub. -/
def jubjub : Edwards.Curve Scalar where
  d := edwardsD
  sqrtNegOne := 3465144826073652318776269530687742778270252468765361963008
  two_ne_zero := by decide
  sqrtNegOne_sq := by decide
  d_not_square := by
    rw [ZMod.euler_criterion _ (by unfold edwardsD Scalar.fromRaw; decide)]
    unfold edwardsD Scalar.fromRaw
    norm_num
    reduce_mod_char
    decide

/-- The Montgomery form of Jubjub. -/
def jubjubForm : Edwards.Form jubjub where
  A := montgomeryA
  scale := montgomeryScale
  A_eq := by unfold montgomeryA jubjub edwardsD Scalar.fromRaw; decide
  scale_sq := by unfold montgomeryScale jubjub edwardsD Scalar.fromRaw; decide

/-- A point of Jubjub. -/
abbrev Point : Type := Edwards.Point jubjub

/-! ## Encoding -/

open Number

theorem Scalar.val_lt (x : Scalar) : x.val < 2 ^ 255 :=
  (ZMod.val_lt x).trans (by norm_num)

namespace Point

/-- The bits of the compressed encoding: the 255 bits of `v`, then the sign of `u`. -/
def reprBits (P : Point) : List Bool := toBits 255 P.v.val ++ [P.u.val.testBit 0]

/-- `to_bytes`: the compressed encoding. -/
def toBytes (P : Point) : Bytes 32 := ⟨leBytes 32 (ofBits P.reprBits), length_leBytes _ _⟩

@[simp] theorem length_reprBits (P : Point) : P.reprBits.length = 256 := by simp [reprBits]

theorem bytesBits_toBytes (P : Point) : bytesBits P.toBytes.1 = P.reprBits := by
  rw [toBytes, bytesBits_leBytes, show 8 * 32 = P.reprBits.length by simp, toBits_ofBits]

/-- **The encoding is canonical**: opposite points differ in the sign bit. -/
theorem reprBits_injective : Function.Injective reprBits := by
  intro P Q h
  obtain ⟨hv, hu⟩ := List.append_inj h (by simp)
  have hv' : P.v = Q.v := by
    have := congrArg ofBits hv
    rw [ofBits_toBits_of_lt (Scalar.val_lt _), ofBits_toBits_of_lt (Scalar.val_lt _)] at this
    exact ZMod.val_injective _ this
  rcases Edwards.Point.eq_or_eq_neg_of_v hv' with rfl | hneg
  · rfl
  · by_cases h0 : Q.u = 0
    · exact Edwards.Point.ext (by rw [hneg, Edwards.Point.neg_u, h0, neg_zero]) hv'
    · -- the modulus is odd, so a nonzero `u` and its opposite have different parities
      have hbit : P.u.val.testBit 0 = Q.u.val.testBit 0 := by simpa using hu
      rw [hneg, Edwards.Point.neg_u, ZMod.neg_val, if_neg h0, Nat.testBit_zero,
        Nat.testBit_zero, decide_eq_decide] at hbit
      have hlt := ZMod.val_lt Q.u
      have hodd : scalarModulus % 2 = 1 := by norm_num
      omega

theorem toBytes_injective : Function.Injective toBytes := fun P Q h =>
  reprBits_injective (by rw [← bytesBits_toBytes, ← bytesBits_toBytes, h])

/-- Doubling kills exactly the points with `u = 0`. -/
theorem two_nsmul_eq_zero_iff (P : Point) : 2 • P = 0 ↔ P.u = 0 := by
  rw [two_nsmul, add_eq_zero_iff_eq_neg]
  constructor
  · intro h
    have hu : P.u = -P.u := congrArg Edwards.Point.u h
    have htwo : (2 : Scalar) ≠ 0 := by decide +kernel
    have hsum : 2 * P.u = 0 := by linear_combination hu
    exact (mul_eq_zero.mp hsum).resolve_left htwo
  · intro h
    exact Edwards.Point.ext (by rw [Edwards.Point.neg_u, h, neg_zero]) rfl

end Point

/-! ## The prime-order subgroup -/

/-- The points of the prime-order subgroup. -/
def PrimeOrder (P : Point) : Prop := subgroupOrder • P = 0

instance (P : Point) : Decidable (PrimeOrder P) := inferInstanceAs (Decidable (_ = _))

namespace PrimeOrder

variable {P Q : Point}

theorem zero : PrimeOrder 0 := smul_zero _

theorem add (hP : PrimeOrder P) (hQ : PrimeOrder Q) : PrimeOrder (P + Q) := by
  rw [PrimeOrder, smul_add, hP, hQ, add_zero]

theorem neg (hP : PrimeOrder P) : PrimeOrder (-P) := by
  rw [PrimeOrder, smul_neg, hP, neg_zero]

theorem nsmul (hP : PrimeOrder P) (n : ℕ) : PrimeOrder (n • P) := by
  rw [PrimeOrder, smul_comm, hP, smul_zero]

theorem zsmul (hP : PrimeOrder P) (n : ℤ) : PrimeOrder (n • P) := by
  rw [PrimeOrder, smul_comm, hP, smul_zero]

/-- A multiple of a non-neutral point vanishes only at the multiples of the order. -/
theorem zsmul_eq_zero_iff (hP : PrimeOrder P) (h0 : P ≠ 0) (n : ℤ) :
    n • P = 0 ↔ (subgroupOrder : ℤ) ∣ n := by
  have horder : addOrderOf P = subgroupOrder := addOrderOf_eq_prime hP h0
  rw [← addOrderOf_dvd_iff_zsmul_eq_zero, horder]

theorem nsmul_eq_zero_iff (hP : PrimeOrder P) (h0 : P ≠ 0) (n : ℕ) :
    n • P = 0 ↔ subgroupOrder ∣ n := by
  have horder : addOrderOf P = subgroupOrder := addOrderOf_eq_prime hP h0
  rw [← addOrderOf_dvd_iff_nsmul_eq_zero, horder]

/-- A multiple depends on the multiplier only modulo the order. -/
theorem nsmul_mod (hP : PrimeOrder P) (n : ℕ) : (n % subgroupOrder) • P = n • P := by
  conv_rhs => rw [← Nat.mod_add_div n subgroupOrder, add_smul, mul_comm, mul_smul, hP, smul_zero,
    add_zero]

/-- The point of order two is not of prime order: only the neutral point has `u = 0`. -/
theorem u_ne_zero (hP : PrimeOrder P) (h0 : P ≠ 0) : P.u ≠ 0 := by
  intro hu
  have htwo : 2 • P = 0 := P.two_nsmul_eq_zero_iff.mpr hu
  have := (hP.nsmul_eq_zero_iff h0 2).mp htwo
  norm_num at this

/-- Doubling three times does not kill a non-neutral point of prime order. -/
theorem eight_nsmul_ne_zero (hP : PrimeOrder P) (h0 : P ≠ 0) : 8 • P ≠ 0 := by
  intro h
  have := (hP.nsmul_eq_zero_iff h0 8).mp h
  norm_num at this

/-- A non-neutral point of prime order is not of small order. -/
theorem eight_nsmul_u_ne_zero (hP : PrimeOrder P) (h0 : P ≠ 0) : (8 • P).u ≠ 0 :=
  (hP.nsmul 8).u_ne_zero (hP.eight_nsmul_ne_zero h0)

/-- A point of prime order has `v` other than zero: the points with `v = 0` are of order four. -/
theorem v_ne_zero (hP : PrimeOrder P) : P.v ≠ 0 := by
  intro hv
  have hu : (2 • P).u = 0 := by
    rw [two_nsmul, Edwards.Point.add_u, hv, mul_zero, zero_mul, add_zero, zero_div]
  have hfour : 4 • P = 0 := by
    rw [show 4 = 2 * 2 from rfl, mul_nsmul]
    exact (2 • P).two_nsmul_eq_zero_iff.mpr hu
  by_cases h0 : P = 0
  · rw [h0, Edwards.Point.zero_v] at hv
    exact one_ne_zero hv
  · have := (hP.nsmul_eq_zero_iff h0 4).mp hfour
    norm_num at this

/-- **No point of prime order is encoded by zeros.** -/
theorem toBytes_ne_zeros (hP : PrimeOrder P) : P.toBytes.1 ≠ List.replicate 32 0 := by
  intro h
  have hval : leNat P.toBytes.1 = ofBits P.reprBits := by
    rw [Point.toBytes, leNat_leBytes_of_lt ((ofBits_lt _).trans_le (by rw [P.length_reprBits]; norm_num))]
  rw [h, show leNat (List.replicate 32 0) = 0 by decide, Point.reprBits, ofBits_append,
    ofBits_toBits_of_lt (Scalar.val_lt _)] at hval
  exact hP.v_ne_zero ((ZMod.val_eq_zero _).mp (by omega))

end PrimeOrder

end ProviiCrypto
