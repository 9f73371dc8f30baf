import ProviiCrypto.Jubjub.Generator

/-!
# The jubjub crate

What the repository relies on about `jubjub`: the byte conversions of scalars (`FrBytes`), a group
of prime order with a canonical encoding (`SubgroupPoint`, over any group, which is all the
signature scheme needs), and the decoding of curve points (`Jubjub`). The prime-order points of
the curve are an instance of the first (`Jubjub.subgroup`).
-/

namespace ProviiCrypto

open Number

/-! ## Scalars -/

/-- The byte conversions of `jubjub::Fr`. -/
structure FrBytes where
  /-- `Fr::from_bytes`: none unless the number is canonical. -/
  fromBytes : Bytes 32 → Option Fr
  fromBytes_eq : ∀ b, fromBytes b =
    if leNat b.1 < subgroupOrder then some ((leNat b.1 : ℕ) : Fr) else none
  /-- `Fr::to_bytes`. -/
  toBytes : Fr → Bytes 32
  toBytes_eq : ∀ x, (toBytes x).1 = leBytes 32 x.val
  /-- `Fr::from_bytes_wide`. -/
  fromBytesWide : Bytes 64 → Fr
  fromBytesWide_eq : ∀ b, fromBytesWide b = ((leNat b.1 : ℕ) : Fr)

namespace FrBytes

variable (F : FrBytes)

theorem leNat_toBytes (x : Fr) : leNat (F.toBytes x).1 = x.val := by
  rw [F.toBytes_eq, leNat_leBytes_of_lt ((ZMod.val_lt x).trans (by norm_num))]

theorem fromBytes_eq_some {b : Bytes 32} {x : Fr} :
    F.fromBytes b = some x ↔ leNat b.1 = x.val := by
  rw [F.fromBytes_eq]
  constructor
  · intro h
    split at h
    · rename_i hlt
      rw [← Option.some.inj h, ZMod.val_natCast_of_lt hlt]
    · cases h
  · intro h
    rw [h, if_pos (ZMod.val_lt x), ZMod.natCast_zmod_val]

theorem fromBytes_toBytes (x : Fr) : F.fromBytes (F.toBytes x) = some x :=
  F.fromBytes_eq_some.mpr (F.leNat_toBytes x)

/-- The laws determine the conversions. -/
def standard : FrBytes where
  fromBytes b := if leNat b.1 < subgroupOrder then some ((leNat b.1 : ℕ) : Fr) else none
  fromBytes_eq _ := rfl
  toBytes x := ⟨leBytes 32 x.val, length_leBytes _ _⟩
  toBytes_eq _ := rfl
  fromBytesWide b := ((leNat b.1 : ℕ) : Fr)
  fromBytesWide_eq _ := rfl

end FrBytes

/-! ## Points of prime order -/

/-- `jubjub::SubgroupPoint`: a group of prime order with a canonical encoding, in which the bytes
of the spending key generator encode a point other than the identity. -/
structure SubgroupPoint (P : Type) [AddCommGroup P] where
  order_smul : ∀ p : P, subgroupOrder • p = 0
  toBytes : P → Bytes 32
  fromBytes : Bytes 32 → Option P
  fromBytes_eq_some : ∀ b p, fromBytes b = some p ↔ toBytes p = b
  generator_isSome : (fromBytes spendingKeyGenBytes).isSome
  generator_ne_zero : fromBytes spendingKeyGenBytes ≠ some 0

namespace SubgroupPoint

variable {P : Type} [AddCommGroup P] (G : SubgroupPoint P)

theorem fromBytes_toBytes (p : P) : G.fromBytes (G.toBytes p) = some p :=
  (G.fromBytes_eq_some _ p).mpr rfl

theorem toBytes_injective : Function.Injective G.toBytes := fun p q h =>
  Option.some.inj ((G.fromBytes_toBytes p).symm.trans ((G.fromBytes_eq_some _ q).mpr h.symm))

/-- `p * s`. -/
def mul (p : P) (s : Fr) : P := s.val • p

include G

theorem natCast_mul (n : ℕ) (p : P) : mul p (n : Fr) = n • p := by
  rw [mul, ZMod.val_natCast]
  conv_rhs => rw [← Nat.mod_add_div n subgroupOrder, add_smul, mul_comm, mul_smul, G.order_smul,
    smul_zero, add_zero]

theorem mul_add (p : P) (s t : Fr) : mul p (s + t) = mul p s + mul p t := by
  rw [← ZMod.natCast_zmod_val s, ← ZMod.natCast_zmod_val t, ← Nat.cast_add, G.natCast_mul,
    G.natCast_mul, G.natCast_mul, add_smul]

theorem mul_mul (p : P) (s t : Fr) : mul p (s * t) = mul (mul p t) s := by
  rw [← ZMod.natCast_zmod_val s, ← ZMod.natCast_zmod_val t, ← Nat.cast_mul, G.natCast_mul,
    G.natCast_mul, G.natCast_mul, mul_smul]

/-- A multiple of a point other than the identity is the identity for the zero scalar only. -/
theorem mul_eq_zero_iff {p : P} (hp : p ≠ 0) (s : Fr) : mul p s = 0 ↔ s = 0 := by
  have horder : addOrderOf p = subgroupOrder := addOrderOf_eq_prime (G.order_smul p) hp
  rw [mul, ← addOrderOf_dvd_iff_nsmul_eq_zero, horder]
  constructor
  · exact fun h => (ZMod.val_eq_zero s).mp (Nat.eq_zero_of_dvd_of_lt h (ZMod.val_lt s))
  · rintro rfl
    simp

/-- A multiple of a point other than the identity determines the scalar. -/
theorem mul_injective {p : P} (hp : p ≠ 0) : Function.Injective (mul p) := by
  intro s t h
  have hsum : mul p ((s - t) + t) = mul p (s - t) + mul p t := G.mul_add p _ _
  rw [sub_add_cancel, h, right_eq_add] at hsum
  exact sub_eq_zero.mp ((G.mul_eq_zero_iff hp _).mp hsum)

end SubgroupPoint

/-! ## Points of the curve -/

/-- `jubjub`'s decoding of curve points, with its conversions of scalars. -/
structure Jubjub where
  fr : FrBytes
  /-- `AffinePoint::from_bytes`: none unless the bytes are the canonical encoding of a point. -/
  affineFromBytes : Bytes 32 → Option Point
  affineFromBytes_eq_some : ∀ b P, affineFromBytes b = some P ↔ P.toBytes = b
  /-- `ExtendedPoint::generator()`. -/
  generator : Point

/-- The prime-order subgroup. -/
def primeSubgroup : AddSubgroup Point where
  carrier := {P | PrimeOrder P}
  add_mem' := PrimeOrder.add
  zero_mem' := PrimeOrder.zero
  neg_mem' := PrimeOrder.neg

namespace Jubjub

variable (J : Jubjub)

theorem affineFromBytes_toBytes (P : Point) : J.affineFromBytes P.toBytes = some P :=
  (J.affineFromBytes_eq_some _ P).mpr rfl

/-- The point the bytes of the generator decode to. -/
theorem affineFromBytes_generator :
    J.affineFromBytes spendingKeyGenBytes = some spendingKeyGenerator :=
  (J.affineFromBytes_eq_some _ _).mpr toBytes_spendingKeyGenerator

/-- `SubgroupPoint::from_bytes`: a curve point that is torsion-free. -/
def subgroupFromBytes (b : Bytes 32) : Option primeSubgroup :=
  match J.affineFromBytes b with
  | some P => if h : PrimeOrder P then some ⟨P, h⟩ else none
  | none => none

theorem subgroupFromBytes_eq_some (b : Bytes 32) (p : primeSubgroup) :
    J.subgroupFromBytes b = some p ↔ p.1.toBytes = b := by
  unfold subgroupFromBytes
  constructor
  · intro h
    split at h
    · rename_i P hP
      split at h
      · obtain rfl := Option.some.inj h
        exact (J.affineFromBytes_eq_some b P).mp hP
      · cases h
    · cases h
  · intro h
    rw [(J.affineFromBytes_eq_some b p.1).mpr h]
    exact dif_pos p.2

/-- **The prime-order points of the curve**, with their encoding. -/
def subgroup : SubgroupPoint primeSubgroup where
  order_smul p := Subtype.ext p.2
  toBytes p := p.1.toBytes
  fromBytes := J.subgroupFromBytes
  fromBytes_eq_some := J.subgroupFromBytes_eq_some
  generator_isSome := Option.isSome_iff_exists.mpr
    ⟨⟨_, primeOrder_spendingKeyGenerator⟩, (J.subgroupFromBytes_eq_some _ _).mpr
      toBytes_spendingKeyGenerator⟩
  generator_ne_zero h := spendingKeyGenerator_ne_zero (Point.toBytes_injective
    (toBytes_spendingKeyGenerator.trans ((J.subgroupFromBytes_eq_some _ _).mp h).symm))

open Classical in
/-- The laws determine the decoding. -/
noncomputable def standard : Jubjub where
  fr := .standard
  affineFromBytes b := if h : ∃ P : Point, P.toBytes = b then some h.choose else none
  affineFromBytes_eq_some b P := by
    constructor
    · intro h
      split at h
      · rename_i hex
        rw [← Option.some.inj h]
        exact hex.choose_spec
      · cases h
    · rintro rfl
      have hex : ∃ Q : Point, Q.toBytes = P.toBytes := ⟨P, rfl⟩
      rw [dif_pos hex, Point.toBytes_injective hex.choose_spec]
  generator := spendingKeyGenerator

end Jubjub

end ProviiCrypto
