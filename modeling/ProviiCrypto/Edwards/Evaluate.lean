import Mathlib.Data.ZMod.Basic
import Mathlib.Algebra.Field.ZMod
import Mathlib.Tactic.Abel
import ProviiCrypto.Edwards.Basic

/-!
# Evaluating multiples of a point

Scalar multiples by double-and-add in projective coordinates on natural numbers, so that the
kernel can evaluate a multiple of a given point: `Triple.Repr.smul` says what the evaluator
computes, and `smul_eq_of_check` reads a checked evaluation back.
-/

namespace ProviiCrypto.Edwards

/-- Projective coordinates, as naturals. -/
structure Triple where
  X : ℕ
  Y : ℕ
  Z : ℕ

namespace Triple

/-- The neutral point. -/
def zero : Triple := ⟨0, 1, 1⟩

/-- The unified addition modulo `p`, for the curve constant `d`. -/
def add (p d : ℕ) (s t : Triple) : Triple :=
  let A := s.Z * t.Z % p
  let B := A * A % p
  let E := d * (s.X * t.X % p) % p * (s.Y * t.Y % p) % p
  let F := B + (p - E)
  let G := B + E
  ⟨A * F % p * (s.X * t.Y + s.Y * t.X) % p, A * G % p * (s.Y * t.Y + s.X * t.X) % p, F * G % p⟩

/-- Double-and-add over `fuel` binary digits of the multiplier, from the least significant. -/
def smul (p d : ℕ) : ℕ → ℕ → Triple → Triple
  | 0, _, _ => zero
  | fuel + 1, n, t =>
    let rest := smul p d fuel (n / 2) (add p d t t)
    if n % 2 = 1 then add p d t rest else rest

variable {p : ℕ} [Fact p.Prime] {C : Curve (ZMod p)}

/-- The triple stands for the point. -/
structure Repr (t : Triple) (P : Point C) : Prop where
  Z_ne_zero : (t.Z : ZMod p) ≠ 0
  X_eq : (t.X : ZMod p) = P.u * t.Z
  Y_eq : (t.Y : ZMod p) = P.v * t.Z

theorem Repr.zero : Repr zero (0 : Point C) where
  Z_ne_zero := by simp [Triple.zero]
  X_eq := by simp [Triple.zero]
  Y_eq := by simp [Triple.zero]

theorem Repr.add {s t : Triple} {P Q : Point C} {d : ℕ} (hd : (d : ZMod p) = C.d)
    (hs : Repr s P) (ht : Repr t Q) : Repr (Triple.add p d s t) (P + Q) := by
  have hp := P.one_add_cross_ne_zero Q
  have hm := P.one_sub_cross_ne_zero Q
  -- the two factors of the new `Z`
  obtain ⟨hE, hlt⟩ : (((d * (s.X * t.X % p) % p * (s.Y * t.Y % p) % p : ℕ) : ZMod p) =
      P.cross Q * (s.Z * t.Z) ^ 2) ∧ d * (s.X * t.X % p) % p * (s.Y * t.Y % p) % p < p := by
    refine ⟨?_, Nat.mod_lt _ (Fact.out : p.Prime).pos⟩
    push_cast [ZMod.natCast_mod]
    rw [hd, hs.X_eq, hs.Y_eq, ht.X_eq, ht.Y_eq]
    unfold Point.cross
    ring
  unfold Triple.add
  generalize d * (s.X * t.X % p) % p * (s.Y * t.Y % p) % p = E at hE hlt ⊢
  have hF : ((p - E : ℕ) : ZMod p) = -E := by
    rw [Nat.cast_sub hlt.le, CharP.cast_eq_zero, zero_sub]
  refine ⟨?_, ?_, ?_⟩ <;> push_cast [ZMod.natCast_mod] <;> rw [hF, hE]
  · rw [show ((s.Z * t.Z * (s.Z * t.Z) + -(P.cross Q * (s.Z * t.Z) ^ 2)) *
        (s.Z * t.Z * (s.Z * t.Z) + P.cross Q * (s.Z * t.Z) ^ 2) : ZMod p) =
      (s.Z * t.Z) ^ 4 * ((1 - P.cross Q) * (1 + P.cross Q)) by ring]
    exact mul_ne_zero (pow_ne_zero 4 (mul_ne_zero hs.Z_ne_zero ht.Z_ne_zero)) (mul_ne_zero hm hp)
  · rw [hs.X_eq, hs.Y_eq, ht.X_eq, ht.Y_eq]
    linear_combination -(s.Z : ZMod p) ^ 4 * t.Z ^ 4 * (1 - P.cross Q) * P.add_u_mul Q
  · rw [hs.X_eq, hs.Y_eq, ht.X_eq, ht.Y_eq]
    linear_combination -(s.Z : ZMod p) ^ 4 * t.Z ^ 4 * (1 + P.cross Q) * P.add_v_mul Q

/-- **The evaluator computes the multiple.** -/
theorem Repr.smul {d : ℕ} (hd : (d : ZMod p) = C.d) :
    ∀ (fuel n : ℕ) {t : Triple} {P : Point C}, Repr t P → n < 2 ^ fuel →
      Repr (Triple.smul p d fuel n t) (n • P)
  | 0, n, t, P, _, hn => by
    obtain rfl : n = 0 := by simpa using hn
    rw [zero_nsmul]
    exact Repr.zero
  | fuel + 1, n, t, P, h, hn => by
    have hrest := Repr.smul hd fuel (n / 2) (h.add hd h) (by rw [pow_succ] at hn; omega)
    have hdouble : (n / 2) • (P + P) = (2 * (n / 2)) • P := by
      rw [← two_nsmul, ← mul_nsmul]
    rw [hdouble] at hrest
    unfold Triple.smul
    split
    · rename_i hodd
      have hn' : n = 2 * (n / 2) + 1 := by omega
      conv_rhs => rw [hn', succ_nsmul']
      exact h.add hd hrest
    · rename_i heven
      have hn' : 2 * (n / 2) = n := by omega
      rwa [hn'] at hrest

/-- A point from natural coordinates. -/
theorem Repr.ofNat {u v : ℕ} {P : Point C} (hu : P.u = u) (hv : P.v = v) :
    Repr ⟨u, v, 1⟩ P where
  Z_ne_zero := by simp
  X_eq := by simp [hu]
  Y_eq := by simp [hv]

/-- Two triples of one point have proportional coordinates, and conversely. -/
theorem Repr.eq_iff {s t : Triple} {P Q : Point C} (hs : Repr s P) (ht : Repr t Q) :
    P = Q ↔ s.X * t.Z % p = t.X * s.Z % p ∧ s.Y * t.Z % p = t.Y * s.Z % p := by
  have hZ := mul_ne_zero hs.Z_ne_zero ht.Z_ne_zero
  rw [← ZMod.natCast_eq_natCast_iff', ← ZMod.natCast_eq_natCast_iff', Point.ext_iff]
  push_cast
  rw [hs.X_eq, hs.Y_eq, ht.X_eq, ht.Y_eq]
  refine and_congr ⟨fun h => by rw [h]; ring, fun h => ?_⟩ ⟨fun h => by rw [h]; ring, fun h => ?_⟩
  · exact mul_right_cancel₀ hZ (by linear_combination h)
  · exact mul_right_cancel₀ hZ (by linear_combination h)

end Triple

end ProviiCrypto.Edwards
