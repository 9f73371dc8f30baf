import ProviiCrypto.Jubjub.Generator
import ProviiCrypto.Jubjub.Sapling

/-!
# The generators of the Pedersen hash

`sapling` has the laws of `Sapling`, with the six generators of the crate: the kernel evaluates
that they are on the curve, of prime order and not the identity.
-/

namespace ProviiCrypto.Reference

open Number

/-- The affine coordinates of `constants::PEDERSEN_HASH_GENERATORS`. -/
def generatorCoords : List (ℕ × ℕ) :=
  [(0x73c016a42ded9578b5ea25de7ec0e3782f0c718f6f0fbadd194e42926f661b51,
    0x289e87a2d3521b5779c9166b837edc5ef9472e8bc04e463277bfabd432243cca),
   (0x15a36d1f0f390d8852a35a8c1908dd87a361ee3fd48fdf77b9819dc82d90607e,
    0x015d8c7f5b43fe33f7891142c001d9251f3abeeb98fad3e87b0dc53c4ebf1891),
   (0x664321a58246e2f6eb69ae39f5c84210bae8e5c46641ae5c76d6f7c2b67fc475,
    0x362e1500d24eee9ee000a46c8e8ce8538bb22a7f1784b49880ed502c9793d457),
   (0x323a6548ce9d9876edc5f4a9cff29fd57d02d50e654b87f24c767804c1c4a2cc,
    0x2f7ee40c4b56cad891070acbd8d947b75103afa1a11f6a8584714beca33570e9),
   (0x3bd2666000b5479689b64b4e03362796efd5931305f2f0bf46809430657f82d1,
    0x494bc52103ab9d0a397832381406c9e5b3b9d8095859d14c99968299c3658aef),
   (0x63447b2ba31bb28ada049746d76d3ee51d9e5ca21135ff6fcb3c023258d32079,
    0x64ec4689e8bfb6e564cdb1070a136a28a80200d2c66b13a7436082119f8d629a)]

/-- The coordinates of a point of prime order other than the identity. -/
def generatorCheck (c : ℕ × ℕ) : Bool :=
  onCurveCheck c.1 c.2 && orderCheck c.1 c.2 && c.1 % scalarModulus != 0

theorem generatorCheck_of_mem : ∀ c ∈ generatorCoords, generatorCheck c = true := by
  decide +kernel

/-- The point of checked coordinates. -/
def pointOfCoords (c : ℕ × ℕ) (h : generatorCheck c = true) : Point where
  u := (c.1 : Scalar)
  v := (c.2 : Scalar)
  onCurve := onCurve_of_check (by
    simp only [generatorCheck, Bool.and_eq_true] at h
    exact h.1.1)

theorem primeOrder_pointOfCoords (c : ℕ × ℕ) (h : generatorCheck c = true) :
    PrimeOrder (pointOfCoords c h) := by
  simp only [generatorCheck, Bool.and_eq_true] at h
  exact primeOrder_of_check rfl rfl h.1.2

theorem pointOfCoords_ne_zero (c : ℕ × ℕ) (h : generatorCheck c = true) :
    pointOfCoords c h ≠ 0 := by
  intro h0
  have hu : ((c.1 : ℕ) : Scalar) = 0 := congrArg Edwards.Point.u h0
  simp only [generatorCheck, Bool.and_eq_true, bne_iff_ne] at h
  exact h.2 ((ZMod.natCast_eq_zero_iff _ _).mp hu |> Nat.mod_eq_zero_of_dvd)

/-- `constants::PEDERSEN_HASH_GENERATORS`. -/
def pedersenHashGenerators : List Point :=
  generatorCoords.attach.map fun c => pointOfCoords c.1 (generatorCheck_of_mem c.1 c.2)

/-- **The laws of the Pedersen hash can be met.** -/
def sapling : Sapling where
  generators := pedersenHashGenerators
  length_generators := by simp [pedersenHashGenerators, generatorCoords]
  generators_prime g hg := by
    obtain ⟨c, -, rfl⟩ := List.mem_map.mp hg
    exact ⟨primeOrder_pointOfCoords _ _, pointOfCoords_ne_zero _ _⟩
  getBits
    | .noteCommitment => List.replicate 6 true
    | .merkleTree depth => toBits 6 depth
  getBits_noteCommitment := rfl
  getBits_merkleTree := rfl
  pedersenHash p bits := segmentsSum pedersenHashChunksPerGenerator pedersenHashGenerators
    ((match p with
      | .noteCommitment => List.replicate 6 true
      | .merkleTree depth => toBits 6 depth) ++ bits)
  pedersenHash_eq _ _ := rfl

end ProviiCrypto.Reference
