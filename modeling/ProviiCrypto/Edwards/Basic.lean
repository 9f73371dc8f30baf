import Mathlib.Algebra.Field.Basic
import Mathlib.Algebra.Group.Even
import Mathlib.Tactic.FieldSimp
import Mathlib.Tactic.LinearCombination
import Mathlib.Tactic.Ring

/-!
# The complete twisted Edwards group law

For a curve `-u² + v² = 1 + d u² v²` over a field where `-1` is a square and `d` is not, the
addition formula never divides by zero (`one_add_ne_zero`, `one_sub_ne_zero`), so the affine
points are a commutative group with no exceptional case (`Point.instAddCommGroup`).

`eq_add_of_mul` is the form a circuit needs: coordinates that satisfy the denominator-free
equations of the sum are the sum.
-/

namespace ProviiCrypto.Edwards

/-- The curve `-u² + v² = 1 + d u² v²`, with what makes its addition complete. -/
structure Curve (F : Type) [Field F] where
  d : F
  sqrtNegOne : F
  two_ne_zero : (2 : F) ≠ 0
  sqrtNegOne_sq : sqrtNegOne ^ 2 = -1
  d_not_square : ¬ IsSquare d

variable {F : Type} [Field F] {C : Curve F}

/-- The curve equation. -/
def Curve.OnCurve (C : Curve F) (u v : F) : Prop := -u ^ 2 + v ^ 2 = 1 + C.d * u ^ 2 * v ^ 2

instance [DecidableEq F] (u v : F) : Decidable (C.OnCurve u v) :=
  inferInstanceAs (Decidable (_ = _))

/-- A point of the curve, in affine coordinates. -/
@[ext] structure Point (C : Curve F) where
  u : F
  v : F
  onCurve : C.OnCurve u v

instance [DecidableEq F] : DecidableEq (Point C) := fun _ _ => decidable_of_iff _ Point.ext_iff.symm

/-- `-1` is a square and `d` is not, so `1 + d` does not vanish. -/
theorem Curve.one_add_d_ne_zero (C : Curve F) : 1 + C.d ≠ 0 := by
  intro h
  refine C.d_not_square ⟨C.sqrtNegOne, ?_⟩
  linear_combination h - C.sqrtNegOne_sq

/-! ## Completeness -/

section Complete

variable {u₁ v₁ u₂ v₂ : F}

/-- The two ways `ε = ±1` for `ε = d u₁ u₂ v₁ v₂` make `d` the square of a quotient. -/
private theorem sq_of_root (h₁ : C.OnCurve u₁ v₁) (h₂ : C.OnCurve u₂ v₂) (j : F)
    (hj : j ^ 2 = -1) (hε : (C.d * u₁ * u₂ * v₁ * v₂) ^ 2 = 1) :
    (j * u₁ + C.d * u₁ * u₂ * v₁ * v₂ * v₁) ^ 2 = C.d * (u₁ * v₁ * (j * u₂ + v₂)) ^ 2 := by
  unfold Curve.OnCurve at h₁ h₂
  linear_combination h₁ - C.d * u₁ ^ 2 * v₁ ^ 2 * h₂ + (u₁ ^ 2 - C.d * u₁ ^ 2 * v₁ ^ 2 * u₂ ^ 2) * hj
    + (v₁ ^ 2 - 1) * hε

/-- The product in the denominators of the addition formula is never `±1`. -/
theorem denom_sq_ne_one (h₁ : C.OnCurve u₁ v₁) (h₂ : C.OnCurve u₂ v₂) :
    (C.d * u₁ * u₂ * v₁ * v₂) ^ 2 ≠ 1 := by
  intro hε
  have hne : C.d * u₁ * u₂ * v₁ * v₂ ≠ 0 := by
    intro h
    rw [h] at hε
    norm_num at hε
  have hu₁v₁ : u₁ * v₁ ≠ 0 := by
    intro h
    exact hne (by linear_combination C.d * u₂ * v₂ * h)
  -- if `j u₂ + v₂ ≠ 0` for a root `j` of `-1`, then `d` would be a square
  have key : ∀ j : F, j ^ 2 = -1 → j * u₂ + v₂ = 0 := by
    intro j hj
    by_contra hj₂
    have hsq := sq_of_root h₁ h₂ j hj hε
    refine C.d_not_square ⟨(j * u₁ + C.d * u₁ * u₂ * v₁ * v₂ * v₁) / (u₁ * v₁ * (j * u₂ + v₂)), ?_⟩
    rw [← sq, div_pow, hsq, mul_div_assoc, div_self (pow_ne_zero 2 (mul_ne_zero hu₁v₁ hj₂)), mul_one]
  have hi := key C.sqrtNegOne C.sqrtNegOne_sq
  have hi' := key (-C.sqrtNegOne) (by rw [neg_sq, C.sqrtNegOne_sq])
  -- both roots at once leave `v₂ = 0`
  have hv₂ : v₂ = 0 := by
    have h : 2 * v₂ = 0 := by linear_combination hi + hi'
    exact (mul_eq_zero.mp h).resolve_left C.two_ne_zero
  exact hne (by rw [hv₂, mul_zero])

theorem one_add_ne_zero (h₁ : C.OnCurve u₁ v₁) (h₂ : C.OnCurve u₂ v₂) :
    1 + C.d * u₁ * u₂ * v₁ * v₂ ≠ 0 := fun h =>
  denom_sq_ne_one h₁ h₂ (by linear_combination (C.d * u₁ * u₂ * v₁ * v₂ - 1) * h)

theorem one_sub_ne_zero (h₁ : C.OnCurve u₁ v₁) (h₂ : C.OnCurve u₂ v₂) :
    1 - C.d * u₁ * u₂ * v₁ * v₂ ≠ 0 := fun h =>
  denom_sq_ne_one h₁ h₂ (by linear_combination (-C.d * u₁ * u₂ * v₁ * v₂ - 1) * h)

end Complete

/-! ## The group -/

namespace Point

/-- The neutral point `(0, 1)`. -/
instance : Zero (Point C) := ⟨⟨0, 1, by simp [Curve.OnCurve]⟩⟩

instance : Neg (Point C) := ⟨fun P => ⟨-P.u, P.v, by
  have h := P.onCurve
  unfold Curve.OnCurve at h ⊢
  linear_combination h⟩⟩

@[simp] theorem zero_u : (0 : Point C).u = 0 := rfl

@[simp] theorem zero_v : (0 : Point C).v = 1 := rfl

@[simp] theorem neg_u (P : Point C) : (-P).u = -P.u := rfl

@[simp] theorem neg_v (P : Point C) : (-P).v = P.v := rfl

/-- `d u₁ u₂ v₁ v₂`, the product the two denominators share. -/
def cross (P Q : Point C) : F := C.d * P.u * Q.u * P.v * Q.v

theorem one_add_cross_ne_zero (P Q : Point C) : 1 + P.cross Q ≠ 0 :=
  one_add_ne_zero P.onCurve Q.onCurve

theorem one_sub_cross_ne_zero (P Q : Point C) : 1 - P.cross Q ≠ 0 :=
  one_sub_ne_zero P.onCurve Q.onCurve

/-- The numerators of a sum, cleared of the denominators, satisfy the curve equation. -/
private theorem onCurve_numerators (P Q : Point C) :
    -((P.u * Q.v + P.v * Q.u) * (1 - P.cross Q)) ^ 2 +
        ((P.v * Q.v + P.u * Q.u) * (1 + P.cross Q)) ^ 2 =
      ((1 + P.cross Q) * (1 - P.cross Q)) ^ 2 +
        C.d * (P.u * Q.v + P.v * Q.u) ^ 2 * (P.v * Q.v + P.u * Q.u) ^ 2 := by
  have h₁ := P.onCurve
  have h₂ := Q.onCurve
  unfold Curve.OnCurve at h₁ h₂
  unfold cross
  grobner

instance : Add (Point C) := ⟨fun P Q =>
  ⟨(P.u * Q.v + P.v * Q.u) / (1 + P.cross Q), (P.v * Q.v + P.u * Q.u) / (1 - P.cross Q), by
    have hp := P.one_add_cross_ne_zero Q
    have hm := P.one_sub_cross_ne_zero Q
    unfold Curve.OnCurve
    field_simp
    linear_combination P.onCurve_numerators Q⟩⟩

theorem add_u (P Q : Point C) : (P + Q).u = (P.u * Q.v + P.v * Q.u) / (1 + P.cross Q) := rfl

theorem add_v (P Q : Point C) : (P + Q).v = (P.v * Q.v + P.u * Q.u) / (1 - P.cross Q) := rfl

/-- Coordinates that satisfy the equations of the sum are those of the sum. -/
theorem eq_add_of_mul {P Q : Point C} {u v : F}
    (hu : u * (1 + P.cross Q) = P.u * Q.v + P.v * Q.u)
    (hv : v * (1 - P.cross Q) = P.v * Q.v + P.u * Q.u) : u = (P + Q).u ∧ v = (P + Q).v :=
  ⟨eq_div_of_mul_eq (P.one_add_cross_ne_zero Q) hu,
    eq_div_of_mul_eq (P.one_sub_cross_ne_zero Q) hv⟩

theorem add_u_mul (P Q : Point C) : (P + Q).u * (1 + P.cross Q) = P.u * Q.v + P.v * Q.u :=
  div_mul_cancel₀ _ (P.one_add_cross_ne_zero Q)

theorem add_v_mul (P Q : Point C) : (P + Q).v * (1 - P.cross Q) = P.v * Q.v + P.u * Q.u :=
  div_mul_cancel₀ _ (P.one_sub_cross_ne_zero Q)

protected theorem add_comm (P Q : Point C) : P + Q = Q + P := by
  ext
  · rw [add_u, add_u]
    unfold cross
    congr 1 <;> ring
  · rw [add_v, add_v]
    unfold cross
    congr 1 <;> ring

protected theorem zero_add (P : Point C) : 0 + P = P := by
  ext <;> simp [add_u, add_v, cross]

protected theorem neg_add_cancel (P : Point C) : -P + P = 0 := by
  have hm := one_sub_cross_ne_zero (-P) P
  have h := P.onCurve
  ext
  · simp only [add_u, neg_u, neg_v, zero_u]
    rw [show -P.u * P.v + P.v * P.u = 0 by ring, zero_div]
  · rw [add_v, zero_v, div_eq_one_iff_eq hm]
    unfold cross Curve.OnCurve at *
    simp only [neg_u, neg_v]
    linear_combination h

/-! ### Associativity

Cleared of its denominators, each coordinate is one polynomial identity modulo the three curve
equations. With `w = u v` for each point, `k = d w₁ w₂` and `l = d w₂ w₃`, either side is the
symmetric part `E` of the numerator, less a part with `k` or `l`, times the other sum's
denominator. -/

private theorem onCurve_sq (P : Point C) :
    C.d * (P.u * P.v) ^ 2 = (P.v ^ 2 - P.u ^ 2) - 1 := by
  have h := P.onCurve
  unfold Curve.OnCurve at h
  linear_combination -h

/-- The identity that both coordinates are instances of: with `d w² = t - 1` for the three points,
nothing is left of `d` but the two parts by degree. -/
private theorem assoc_of_parts {d w₁ w₂ w₃ t₁ t₂ t₃ : F} (h₁ : d * w₁ ^ 2 = t₁ - 1)
    (h₂ : d * w₂ ^ 2 = t₂ - 1) (h₃ : d * w₃ ^ 2 = t₃ - 1) (E F₁ F₃ s₁ s₂ s₃ : F)
    (hlow : E * (w₁ * s₃ - w₃ * s₁ + w₂ * (t₁ - t₃)) = w₁ * F₃ * (t₂ + t₃) -
      F₃ * (w₂ * s₃ + w₃ * s₂) - w₃ * F₁ * (t₁ + t₂) + F₁ * (w₁ * s₂ + w₂ * s₁))
    (hhigh : F₃ * t₁ * (w₂ * s₃ + w₃ * s₂) + w₃ * F₁ * t₁ * t₂ =
      w₁ * F₃ * t₂ * t₃ + F₁ * t₃ * (w₁ * s₂ + w₂ * s₁)) :
    (E - d * w₁ * w₂ * F₃) * (1 - (d * w₂ * w₃) ^ 2 + d * w₁ * (w₂ * s₃ + w₃ * s₂)) =
      (E - d * w₂ * w₃ * F₁) * (1 - (d * w₁ * w₂) ^ 2 + d * w₃ * (w₁ * s₂ + w₂ * s₁)) := by
  linear_combination d * w₂ * (hlow - hhigh +
    (E * w₂ - F₃ * (w₂ * s₃ + w₃ * s₂) - w₃ * F₁ * (d * w₂ ^ 2)) * h₁ +
    (w₁ * F₃ * (d * w₃ ^ 2) - w₃ * F₁ * (t₁ - 1)) * h₂ +
    (w₁ * F₃ * (t₂ - 1) + F₁ * (w₁ * s₂ + w₂ * s₁) - E * w₂) * h₃)

private theorem assoc_u {d u₁ v₁ u₂ v₂ u₃ v₃ : F} (h₁ : d * (u₁ * v₁) ^ 2 = (v₁ ^ 2 - u₁ ^ 2) - 1)
    (h₂ : d * (u₂ * v₂) ^ 2 = (v₂ ^ 2 - u₂ ^ 2) - 1)
    (h₃ : d * (u₃ * v₃) ^ 2 = (v₃ ^ 2 - u₃ ^ 2) - 1) :
    ((u₁ * v₂ + v₁ * u₂) * (1 - d * u₁ * u₂ * v₁ * v₂) * v₃ +
        (v₁ * v₂ + u₁ * u₂) * (1 + d * u₁ * u₂ * v₁ * v₂) * u₃) *
      ((1 + d * u₂ * u₃ * v₂ * v₃) * (1 - d * u₂ * u₃ * v₂ * v₃) +
        d * u₁ * v₁ * (u₂ * v₃ + v₂ * u₃) * (v₂ * v₃ + u₂ * u₃)) =
    ((u₂ * v₃ + v₂ * u₃) * (1 - d * u₂ * u₃ * v₂ * v₃) * v₁ +
        (v₂ * v₃ + u₂ * u₃) * (1 + d * u₂ * u₃ * v₂ * v₃) * u₁) *
      ((1 + d * u₁ * u₂ * v₁ * v₂) * (1 - d * u₁ * u₂ * v₁ * v₂) +
        d * u₃ * v₃ * (u₁ * v₂ + v₁ * u₂) * (v₁ * v₂ + u₁ * u₂)) := by
  have hparts := assoc_of_parts h₁ h₂ h₃
    (u₁ * v₂ * v₃ + v₁ * u₂ * v₃ + v₁ * v₂ * u₃ + u₁ * u₂ * u₃)
    (v₁ * u₂ * v₃ + v₁ * v₂ * u₃ - u₁ * v₂ * v₃ - u₁ * u₂ * u₃)
    (u₁ * v₂ * v₃ + v₁ * u₂ * v₃ - v₁ * v₂ * u₃ - u₁ * u₂ * u₃)
    (u₁ ^ 2 + v₁ ^ 2) (u₂ ^ 2 + v₂ ^ 2) (u₃ ^ 2 + v₃ ^ 2) (by ring) (by ring)
  linear_combination hparts

private theorem assoc_v {d u₁ v₁ u₂ v₂ u₃ v₃ : F} (h₁ : d * (u₁ * v₁) ^ 2 = (v₁ ^ 2 - u₁ ^ 2) - 1)
    (h₂ : d * (u₂ * v₂) ^ 2 = (v₂ ^ 2 - u₂ ^ 2) - 1)
    (h₃ : d * (u₃ * v₃) ^ 2 = (v₃ ^ 2 - u₃ ^ 2) - 1) :
    ((v₁ * v₂ + u₁ * u₂) * (1 + d * u₁ * u₂ * v₁ * v₂) * v₃ +
        (u₁ * v₂ + v₁ * u₂) * (1 - d * u₁ * u₂ * v₁ * v₂) * u₃) *
      ((1 + d * u₂ * u₃ * v₂ * v₃) * (1 - d * u₂ * u₃ * v₂ * v₃) -
        d * u₁ * v₁ * (u₂ * v₃ + v₂ * u₃) * (v₂ * v₃ + u₂ * u₃)) =
    ((v₂ * v₃ + u₂ * u₃) * (1 + d * u₂ * u₃ * v₂ * v₃) * v₁ +
        (u₂ * v₃ + v₂ * u₃) * (1 - d * u₂ * u₃ * v₂ * v₃) * u₁) *
      ((1 + d * u₁ * u₂ * v₁ * v₂) * (1 - d * u₁ * u₂ * v₁ * v₂) -
        d * u₃ * v₃ * (u₁ * v₂ + v₁ * u₂) * (v₁ * v₂ + u₁ * u₂)) := by
  have hparts := assoc_of_parts h₁ h₂ h₃
    (v₁ * v₂ * v₃ + u₁ * u₂ * v₃ + u₁ * v₂ * u₃ + v₁ * u₂ * u₃)
    (u₁ * u₂ * v₃ + u₁ * v₂ * u₃ - v₁ * v₂ * v₃ - v₁ * u₂ * u₃)
    (u₁ * v₂ * u₃ + v₁ * u₂ * u₃ - v₁ * v₂ * v₃ - u₁ * u₂ * v₃)
    (-(u₁ ^ 2 + v₁ ^ 2)) (-(u₂ ^ 2 + v₂ ^ 2)) (-(u₃ ^ 2 + v₃ ^ 2)) (by ring) (by ring)
  linear_combination hparts

/-- The denominator of the `u` of a sum of three, cleared of the inner denominators. -/
private theorem add_add_denom (P Q R : Point C) :
    (1 + (P + Q).cross R) * ((1 + P.cross Q) * (1 - P.cross Q)) =
        (1 + P.cross Q) * (1 - P.cross Q) +
          C.d * R.u * R.v * (P.u * Q.v + P.v * Q.u) * (P.v * Q.v + P.u * Q.u) ∧
      (1 - (P + Q).cross R) * ((1 + P.cross Q) * (1 - P.cross Q)) =
        (1 + P.cross Q) * (1 - P.cross Q) -
          C.d * R.u * R.v * (P.u * Q.v + P.v * Q.u) * (P.v * Q.v + P.u * Q.u) := by
  have hu := P.add_u_mul Q
  have hv := P.add_v_mul Q
  have hcross : (P + Q).cross R * ((1 + P.cross Q) * (1 - P.cross Q)) =
      C.d * R.u * R.v * (P.u * Q.v + P.v * Q.u) * (P.v * Q.v + P.u * Q.u) := by
    rw [← hu, ← hv]
    unfold cross
    ring
  exact ⟨by linear_combination hcross, by linear_combination -hcross⟩

private theorem add_add_denom_ne_zero (P Q R : Point C) :
    (1 + P.cross Q) * (1 - P.cross Q) +
        C.d * R.u * R.v * (P.u * Q.v + P.v * Q.u) * (P.v * Q.v + P.u * Q.u) ≠ 0 ∧
      (1 + P.cross Q) * (1 - P.cross Q) -
        C.d * R.u * R.v * (P.u * Q.v + P.v * Q.u) * (P.v * Q.v + P.u * Q.u) ≠ 0 := by
  obtain ⟨hp, hm⟩ := P.add_add_denom Q R
  have hk := mul_ne_zero (P.one_add_cross_ne_zero Q) (P.one_sub_cross_ne_zero Q)
  exact ⟨hp ▸ mul_ne_zero ((P + Q).one_add_cross_ne_zero R) hk,
    hm ▸ mul_ne_zero ((P + Q).one_sub_cross_ne_zero R) hk⟩

private theorem add_add_u (P Q R : Point C) :
    (P + Q + R).u =
      ((P.u * Q.v + P.v * Q.u) * (1 - P.cross Q) * R.v +
        (P.v * Q.v + P.u * Q.u) * (1 + P.cross Q) * R.u) /
      ((1 + P.cross Q) * (1 - P.cross Q) +
        C.d * R.u * R.v * (P.u * Q.v + P.v * Q.u) * (P.v * Q.v + P.u * Q.u)) := by
  refine eq_div_of_mul_eq (P.add_add_denom_ne_zero Q R).1 ?_
  rw [← (P.add_add_denom Q R).1, ← mul_assoc, add_u_mul, ← P.add_u_mul Q, ← P.add_v_mul Q]
  ring

private theorem add_add_v (P Q R : Point C) :
    (P + Q + R).v =
      ((P.v * Q.v + P.u * Q.u) * (1 + P.cross Q) * R.v +
        (P.u * Q.v + P.v * Q.u) * (1 - P.cross Q) * R.u) /
      ((1 + P.cross Q) * (1 - P.cross Q) -
        C.d * R.u * R.v * (P.u * Q.v + P.v * Q.u) * (P.v * Q.v + P.u * Q.u)) := by
  refine eq_div_of_mul_eq (P.add_add_denom_ne_zero Q R).2 ?_
  rw [← (P.add_add_denom Q R).2, ← mul_assoc, add_v_mul, ← P.add_u_mul Q, ← P.add_v_mul Q]
  ring

protected theorem add_assoc (P Q R : Point C) : P + Q + R = P + (Q + R) := by
  rw [Point.add_comm P (Q + R)]
  ext
  · rw [add_add_u, add_add_u,
      div_eq_div_iff (P.add_add_denom_ne_zero Q R).1 (Q.add_add_denom_ne_zero R P).1]
    exact assoc_u P.onCurve_sq Q.onCurve_sq R.onCurve_sq
  · rw [add_add_v, add_add_v,
      div_eq_div_iff (P.add_add_denom_ne_zero Q R).2 (Q.add_add_denom_ne_zero R P).2]
    exact assoc_v P.onCurve_sq Q.onCurve_sq R.onCurve_sq

/-- **The points of a complete twisted Edwards curve are a commutative group.** -/
instance instAddCommGroup : AddCommGroup (Point C) where
  add_assoc := Point.add_assoc
  zero_add := Point.zero_add
  add_zero P := by rw [Point.add_comm, Point.zero_add]
  neg_add_cancel := Point.neg_add_cancel
  add_comm := Point.add_comm
  nsmul := nsmulRec
  zsmul := zsmulRec

end Point

end ProviiCrypto.Edwards
