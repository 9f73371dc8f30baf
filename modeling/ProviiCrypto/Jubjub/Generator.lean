import ProviiCrypto.Jubjub.Curve

/-!
# The spending key generator

The base point of the signature scheme, given by its encoding. `primeOrder_of_check` evaluates a
multiple of a point in the kernel, which settles the order of a point given by its coordinates.
-/

namespace ProviiCrypto

open Number Edwards

/-- `SPENDING_KEY_GEN_BYTES`. -/
def spendingKeyGenBytes : Bytes 32 :=
  ⟨[0x30, 0xb5, 0xf2, 0xaa, 0xad, 0x32, 0x56, 0x30, 0xbc, 0xdd, 0xdb, 0xce, 0x4d, 0x67, 0x65,
    0x6d, 0x05, 0xfd, 0x1c, 0xc2, 0xd0, 0x37, 0xbb, 0x53, 0x75, 0xb6, 0xe9, 0x6d, 0x9e, 0x01,
    0xa1, 0x57], rfl⟩

/-- The numeral of `edwardsD`, for evaluation. -/
def edwardsDNat : ℕ :=
  19257038036680949359750312669786877991949435402254120286184196891950884077233

theorem edwardsDNat_cast : (edwardsDNat : Scalar) = jubjub.d := by
  unfold edwardsDNat jubjub edwardsD Scalar.fromRaw
  decide

/-- The multiple of a point by the order, evaluated. -/
def orderCheck (u v : ℕ) : Bool :=
  let t := Triple.smul scalarModulus edwardsDNat 252 subgroupOrder ⟨u, v, 1⟩
  t.X % scalarModulus == 0 && t.Y % scalarModulus == t.Z % scalarModulus

/-- A point whose evaluated multiple is neutral is of prime order. -/
theorem primeOrder_of_check {P : Point} {u v : ℕ} (hu : P.u = u) (hv : P.v = v)
    (h : orderCheck u v = true) : PrimeOrder P := by
  have hrepr := (Triple.Repr.ofNat hu hv).smul edwardsDNat_cast 252 subgroupOrder (by norm_num)
  simp only [orderCheck, Bool.and_eq_true, beq_iff_eq] at h
  refine (hrepr.eq_iff Triple.Repr.zero).mpr ?_
  simp only [Triple.zero, mul_one, zero_mul, Nat.zero_mod, one_mul]
  exact h

/-- The curve equation, evaluated. -/
def onCurveCheck (u v : ℕ) : Bool :=
  v * v % scalarModulus == (u * u + 1 + edwardsDNat * (u * u * (v * v))) % scalarModulus

theorem onCurve_of_check {u v : ℕ} (h : onCurveCheck u v = true) :
    jubjub.OnCurve (u : Scalar) (v : Scalar) := by
  rw [onCurveCheck, beq_iff_eq, ← ZMod.natCast_eq_natCast_iff'] at h
  push_cast [edwardsDNat_cast] at h
  unfold Edwards.Curve.OnCurve
  linear_combination h

/-- The point the bytes encode. -/
def spendingKeyGenerator : Point where
  u := 48296449624515728953781799431373303705327193276295012922380486326924251650222
  v := 39635691377166599497441725607757882405510648532010642268690928210480481875248
  onCurve := by unfold jubjub edwardsD Scalar.fromRaw; decide

theorem toBytes_spendingKeyGenerator : spendingKeyGenerator.toBytes = spendingKeyGenBytes := by
  decide +kernel

theorem primeOrder_spendingKeyGenerator : PrimeOrder spendingKeyGenerator :=
  primeOrder_of_check (u := 48296449624515728953781799431373303705327193276295012922380486326924251650222)
    rfl rfl (by decide +kernel)

theorem spendingKeyGenerator_ne_zero : spendingKeyGenerator ≠ 0 := fun h =>
  absurd (congrArg Edwards.Point.u h) (by unfold spendingKeyGenerator; decide +kernel)

end ProviiCrypto
