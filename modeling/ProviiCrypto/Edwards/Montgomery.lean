import ProviiCrypto.Edwards.Basic

/-!
# The Montgomery form of a twisted Edwards curve

A point with `u ≠ 0` is also the point `x = (1 + v) / (1 - v)`, `y = scale · x / u` of the curve
`y² = x³ + A x² + x`, where the incomplete chord formula costs fewer multiplications. `Form.Repr`
relates a point to its Montgomery coordinates without division.

* `Form.Repr.add`: the chord formula is the group's addition, away from `x₁ = x₂` and from sums
  with `u = 0`.
* `Form.Repr.eq_of_maps`: coordinates that satisfy the equations of the map back are the point's.
-/

namespace ProviiCrypto.Edwards

variable {F : Type} [Field F] {C : Curve F}

/-- The constants of the Montgomery form, scaled so that `y²` has coefficient one. -/
structure Form (C : Curve F) where
  A : F
  scale : F
  A_eq : A * (1 + C.d) = 2 * (1 - C.d)
  scale_sq : scale ^ 2 * (1 + C.d) = -4

namespace Point

theorem v_ne_one {P : Point C} (hu : P.u ≠ 0) : P.v ≠ 1 := by
  intro hv
  have h := P.onCurve
  unfold Curve.OnCurve at h
  rw [hv] at h
  have h0 : P.u ^ 2 * (1 + C.d) = 0 := by linear_combination -h
  exact (mul_ne_zero (pow_ne_zero 2 hu) C.one_add_d_ne_zero) h0

theorem v_ne_neg_one {P : Point C} (hu : P.u ≠ 0) : P.v ≠ -1 := by
  intro hv
  have h := P.onCurve
  unfold Curve.OnCurve at h
  rw [hv] at h
  have h0 : P.u ^ 2 * (1 + C.d) = 0 := by linear_combination -h
  exact (mul_ne_zero (pow_ne_zero 2 hu) C.one_add_d_ne_zero) h0

/-- `d v² = -1` would make `d` a square. -/
theorem one_add_d_mul_sq_ne_zero (v : F) : 1 + C.d * v ^ 2 ≠ 0 := by
  intro h
  have hv : v ≠ 0 := by
    rintro rfl
    simp at h
  refine C.d_not_square ⟨C.sqrtNegOne / v, ?_⟩
  rw [← sq, div_pow, C.sqrtNegOne_sq, eq_div_iff (pow_ne_zero 2 hv)]
  linear_combination h

/-- Points with one `v` are equal or opposite. -/
theorem eq_or_eq_neg_of_v {P Q : Point C} (hv : P.v = Q.v) : P = Q ∨ P = -Q := by
  have h₁ := P.onCurve
  have h₂ := Q.onCurve
  unfold Curve.OnCurve at h₁ h₂
  have hsq : P.u ^ 2 = Q.u ^ 2 := by
    refine mul_right_cancel₀ (one_add_d_mul_sq_ne_zero (C := C) P.v) ?_
    linear_combination -h₁ + h₂ + (P.v + Q.v - C.d * Q.u ^ 2 * (P.v + Q.v)) * hv
  rcases sq_eq_sq_iff_eq_or_eq_neg.mp hsq with hu | hu
  · exact .inl (Point.ext hu hv)
  · exact .inr (Point.ext hu hv)

end Point

namespace Form

variable {M : Form C}

theorem scale_ne_zero (M : Form C) : M.scale ≠ 0 := by
  intro h
  have hs := M.scale_sq
  rw [h] at hs
  have h4 : (2 : F) * 2 = 0 := by linear_combination hs
  exact mul_ne_zero C.two_ne_zero C.two_ne_zero h4

/-- `(x, y)` are the Montgomery coordinates of `P`. -/
structure Repr (M : Form C) (P : Point C) (x y : F) : Prop where
  u_ne_zero : P.u ≠ 0
  x_eq : x * (1 - P.v) = 1 + P.v
  y_eq : y * P.u = M.scale * x

namespace Repr

variable {P Q : Point C} {x y x₁ y₁ x₂ y₂ : F}

theorem one_sub_v (h : M.Repr P x y) : 1 - P.v ≠ 0 :=
  sub_ne_zero.mpr (Point.v_ne_one h.u_ne_zero).symm

theorem x_ne_zero (h : M.Repr P x y) : x ≠ 0 := by
  rintro rfl
  exact Point.v_ne_neg_one h.u_ne_zero (by linear_combination -h.x_eq)

theorem y_ne_zero (h : M.Repr P x y) : y ≠ 0 := by
  rintro rfl
  exact mul_ne_zero M.scale_ne_zero h.x_ne_zero (by linear_combination -h.y_eq)

theorem x_add_one_ne_zero (h : M.Repr P x y) : x + 1 ≠ 0 := by
  intro hx
  exact C.two_ne_zero (by linear_combination (1 - P.v) * hx - h.x_eq)

/-- Every point with `u ≠ 0` has Montgomery coordinates. -/
theorem of_ne_zero (M : Form C) (h : P.u ≠ 0) :
    M.Repr P ((1 + P.v) / (1 - P.v)) (M.scale * ((1 + P.v) / (1 - P.v)) / P.u) where
  u_ne_zero := h
  x_eq := div_mul_cancel₀ _ (sub_ne_zero.mpr (Point.v_ne_one h).symm)
  y_eq := div_mul_cancel₀ _ h

theorem unique (h₁ : M.Repr P x₁ y₁) (h₂ : M.Repr P x₂ y₂) : x₁ = x₂ ∧ y₁ = y₂ := by
  have hx : x₁ = x₂ := mul_right_cancel₀ h₁.one_sub_v (h₁.x_eq.trans h₂.x_eq.symm)
  exact ⟨hx, mul_right_cancel₀ h₁.u_ne_zero (by rw [h₁.y_eq, h₂.y_eq, hx])⟩

theorem neg (h : M.Repr P x y) : M.Repr (-P) x (-y) where
  u_ne_zero := neg_ne_zero.mpr h.u_ne_zero
  x_eq := h.x_eq
  y_eq := by rw [Point.neg_u, neg_mul_neg, h.y_eq]

theorem v_eq (h : M.Repr P x y) : P.v * (x + 1) = x - 1 := by linear_combination -h.x_eq

/-- Equal `x` means equal or opposite points. -/
theorem eq_or_eq_neg (h₁ : M.Repr P x y₁) (h₂ : M.Repr Q x y₂) : P = Q ∨ P = -Q :=
  Point.eq_or_eq_neg_of_v
    (mul_right_cancel₀ h₁.x_add_one_ne_zero (h₁.v_eq.trans h₂.v_eq.symm))

/-- The chord formula applies: points that are neither equal nor opposite differ in `x`. -/
theorem x_ne (h₁ : M.Repr P x₁ y₁) (h₂ : M.Repr Q x₂ y₂) (hne : P ≠ Q) (hneg : P ≠ -Q) :
    x₁ ≠ x₂ := by
  rintro rfl
  rcases h₁.eq_or_eq_neg h₂ with h | h
  · exact hne h
  · exact hneg h

/-- **The map back**: its two equations pin the coordinates of the point down. -/
theorem eq_of_maps (h : M.Repr P x y) {u v : F} (hu : y * u = M.scale * x)
    (hv : (x + 1) * v = x - 1) : u = P.u ∧ v = P.v :=
  ⟨mul_left_cancel₀ h.y_ne_zero (hu.trans h.y_eq.symm),
    mul_left_cancel₀ h.x_add_one_ne_zero (hv.trans (by rw [← h.v_eq, mul_comm]))⟩

/-! ### The chord formula

The two identities are stated for the numerators, where `k`, `m`, `n` are the parts of the
Edwards sum and `N` is the numerator of the slope. -/

/-- The square of the slope's numerator, by the curve equations. -/
private theorem numerator_sq {d u₁ v₁ u₂ v₂ : F} (h₁ : u₁ ^ 2 * (1 + d * v₁ ^ 2) = v₁ ^ 2 - 1)
    (h₂ : u₂ ^ 2 * (1 + d * v₂ ^ 2) = v₂ ^ 2 - 1) :
    ((1 + v₂) * (1 - v₁) * u₁ - (1 + v₁) * (1 - v₂) * u₂) ^ 2 * (1 - v₁) * (1 - v₂) =
      -(u₁ * u₂) ^ 2 * ((1 + v₂) * (1 - v₁) ^ 3 * (1 + d * v₂ ^ 2) +
        (1 + v₁) * (1 - v₂) ^ 3 * (1 + d * v₁ ^ 2) +
        2 * (1 - v₁) * (1 - v₂) * (u₁ * u₂) * ((1 + d * v₁ ^ 2) * (1 + d * v₂ ^ 2))) := by
  linear_combination ((1 + v₁) * (1 - v₂) ^ 3 * u₂ ^ 2 + 2 * (1 - v₁) * (1 - v₂) * (u₁ * u₂) *
      (u₂ ^ 2 * (1 + d * v₂ ^ 2))) * h₁ + ((1 + v₂) * (1 - v₁) ^ 3 * u₁ ^ 2 +
      2 * (1 - v₁) * (1 - v₂) * (u₁ * u₂) * (v₁ ^ 2 - 1)) * h₂

private theorem chord_x {d u₁ v₁ u₂ v₂ k m N : F} (h₁ : -u₁ ^ 2 + v₁ ^ 2 = 1 + d * u₁ ^ 2 * v₁ ^ 2)
    (h₂ : -u₂ ^ 2 + v₂ ^ 2 = 1 + d * u₂ ^ 2 * v₂ ^ 2) (hk : k = d * u₁ * u₂ * v₁ * v₂)
    (hm : m = v₁ * v₂ + u₁ * u₂)
    (hN : N = (1 + v₂) * (1 - v₁) * u₁ - (1 + v₁) * (1 - v₂) * u₂) :
    -N ^ 2 * (1 - v₁) * (1 - v₂) * (1 - k - m) = u₁ ^ 2 * u₂ ^ 2 * (v₂ - v₁) ^ 2 *
      (2 * (1 - d) * (1 - v₁) * (1 - v₂) * (1 - k - m) + (1 + d) *
        ((1 + v₁) * (1 - v₂) * (1 - k - m) + (1 + v₂) * (1 - v₁) * (1 - k - m) +
          (1 - k + m) * (1 - v₁) * (1 - v₂))) := by
  have h₁' : u₁ ^ 2 * (1 + d * v₁ ^ 2) = v₁ ^ 2 - 1 := by linear_combination -h₁
  have h₂' : u₂ ^ 2 * (1 + d * v₂ ^ 2) = v₂ ^ 2 - 1 := by linear_combination -h₂
  have hprod : (u₁ * u₂) ^ 2 * ((1 + d * v₁ ^ 2) * (1 + d * v₂ ^ 2)) =
      (v₁ ^ 2 - 1) * (v₂ ^ 2 - 1) := by
    rw [← h₁', ← h₂']
    ring
  have hsq := numerator_sq h₁' h₂'
  have hk' : k = d * (u₁ * u₂) * v₁ * v₂ := by
    rw [hk]
    ring
  -- what is left is a polynomial in `u₁ u₂`, whatever the two points
  rw [← hN] at hsq
  rw [← mul_pow, hk', hm]
  generalize u₁ * u₂ = p at *
  linear_combination -(1 - d * p * v₁ * v₂ - (v₁ * v₂ + p)) * hsq -
    2 * (1 - v₁) * (1 - v₂) * (1 + d * v₁ * v₂) * p ^ 2 * hprod

private theorem chord_y {d u₁ v₁ u₂ v₂ k m n N : F}
    (h₁ : -u₁ ^ 2 + v₁ ^ 2 = 1 + d * u₁ ^ 2 * v₁ ^ 2)
    (h₂ : -u₂ ^ 2 + v₂ ^ 2 = 1 + d * u₂ ^ 2 * v₂ ^ 2) (hk : k = d * u₁ * u₂ * v₁ * v₂)
    (hm : m = v₁ * v₂ + u₁ * u₂) (hn : n = u₁ * v₂ + v₁ * u₂)
    (hN : N = (1 + v₂) * (1 - v₁) * u₁ - (1 + v₁) * (1 - v₂) * u₂) :
    u₁ * u₂ * (v₂ - v₁) * (1 - v₁) * (1 - k + m) * (1 + k) =
      -n * (N * (m - v₁ * (1 - k)) + u₂ * (v₂ - v₁) * (1 + v₁) * (1 - k - m)) := by
  subst hk hm hn hN
  grobner

/-- The slope, cleared of the denominators of the coordinates. -/
private theorem slope_eq {l : F} (h₁ : M.Repr P x₁ y₁) (h₂ : M.Repr Q x₂ y₂)
    (hl : l * (x₂ - x₁) = y₂ - y₁) :
    l * (2 * P.u * Q.u * (Q.v - P.v)) =
      M.scale * ((1 + Q.v) * (1 - P.v) * P.u - (1 + P.v) * (1 - Q.v) * Q.u) := by
  linear_combination (1 - P.v) * (1 - Q.v) * P.u * Q.u * hl +
    ((1 - P.v) * P.u * M.scale - l * P.u * Q.u * (1 - P.v)) * h₂.x_eq +
    (l * P.u * Q.u * (1 - Q.v) - (1 - Q.v) * Q.u * M.scale) * h₁.x_eq +
    (1 - P.v) * (1 - Q.v) * P.u * h₂.y_eq - (1 - P.v) * (1 - Q.v) * Q.u * h₁.y_eq

private theorem slope_denom_ne_zero (h₁ : M.Repr P x₁ y₁) (h₂ : M.Repr Q x₂ y₂)
    (hv : Q.v - P.v ≠ 0) : 2 * P.u * Q.u * (Q.v - P.v) ≠ 0 :=
  mul_ne_zero (mul_ne_zero (mul_ne_zero C.two_ne_zero h₁.u_ne_zero) h₂.u_ne_zero) hv

/-- The sum's `x`, as a quotient of the numerators of its `v`. -/
private theorem chord_x_eq {l x₃ : F} (h₁ : M.Repr P x₁ y₁) (h₂ : M.Repr Q x₂ y₂)
    (hv : Q.v - P.v ≠ 0) (hl : l * (x₂ - x₁) = y₂ - y₁) (hx₃ : x₃ = l ^ 2 - M.A - x₁ - x₂) :
    x₃ * (1 - P.cross Q - (P.v * Q.v + P.u * Q.u)) =
      1 - P.cross Q + (P.v * Q.v + P.u * Q.u) := by
  have hslope := slope_eq h₁ h₂ hl
  have hden := slope_denom_ne_zero h₁ h₂ hv
  have hid := chord_x P.onCurve Q.onCurve (k := P.cross Q) rfl rfl rfl
  have hA := M.A_eq
  have hs := M.scale_sq
  have hx₁ := h₁.x_eq
  have hx₂ := h₂.x_eq
  have hK : (2 * P.u * Q.u * (Q.v - P.v)) ^ 2 * (1 - P.v) * (1 - Q.v) * (1 + C.d) ≠ 0 :=
    mul_ne_zero (mul_ne_zero (mul_ne_zero (pow_ne_zero 2 hden) h₁.one_sub_v) h₂.one_sub_v)
      C.one_add_d_ne_zero
  refine mul_left_cancel₀ hK ?_
  generalize P.cross Q = k at *
  generalize P.u = u₁, P.v = v₁, Q.u = u₂, Q.v = v₂ at *
  generalize M.scale = s, M.A = A, C.d = d at *
  subst hx₃
  linear_combination 4 * hid +
    (1 + d) * (1 - v₁) * (1 - v₂) * (1 - k - (v₁ * v₂ + u₁ * u₂)) *
      (l * (2 * u₁ * u₂ * (v₂ - v₁)) +
        s * ((1 + v₂) * (1 - v₁) * u₁ - (1 + v₁) * (1 - v₂) * u₂)) * hslope +
    ((1 + v₂) * (1 - v₁) * u₁ - (1 + v₁) * (1 - v₂) * u₂) ^ 2 * (1 - v₁) * (1 - v₂) *
      (1 - k - (v₁ * v₂ + u₁ * u₂)) * hs -
    4 * u₁ ^ 2 * u₂ ^ 2 * (v₂ - v₁) ^ 2 * (1 - k - (v₁ * v₂ + u₁ * u₂)) *
      ((1 - v₁) * (1 - v₂) * hA + (1 + d) * (1 - v₂) * hx₁ + (1 + d) * (1 - v₁) * hx₂)

/-- The sum's `y`, from its `x`. -/
private theorem chord_y_eq {l x₃ y₃ : F} (h₁ : M.Repr P x₁ y₁) (h₂ : M.Repr Q x₂ y₂)
    (hv : Q.v - P.v ≠ 0) (hu : (P + Q).u ≠ 0) (hl : l * (x₂ - x₁) = y₂ - y₁)
    (hX : x₃ * (1 - P.cross Q - (P.v * Q.v + P.u * Q.u)) =
      1 - P.cross Q + (P.v * Q.v + P.u * Q.u))
    (hy₃ : y₃ = -(y₁ + l * (x₃ - x₁))) : y₃ * (P + Q).u = M.scale * x₃ := by
  have hsub : 1 - P.cross Q - (P.v * Q.v + P.u * Q.u) ≠ 0 := by
    intro h
    refine Point.v_ne_one hu ?_
    rw [Point.add_v, div_eq_one_iff_eq (P.one_sub_cross_ne_zero Q)]
    linear_combination -h
  have hslope := slope_eq h₁ h₂ hl
  have hden := slope_denom_ne_zero h₁ h₂ hv
  have hid := chord_y P.onCurve Q.onCurve (k := P.cross Q) rfl rfl rfl rfl
  have hU := P.add_u_mul Q
  have hx₁ := h₁.x_eq
  have hy₁ := h₁.y_eq
  have hK : (1 + P.cross Q) * (2 * P.u * Q.u * (Q.v - P.v)) * (1 - P.v) *
      (1 - P.cross Q - (P.v * Q.v + P.u * Q.u)) ≠ 0 :=
    mul_ne_zero (mul_ne_zero (mul_ne_zero (P.one_add_cross_ne_zero Q) hden) h₁.one_sub_v) hsub
  refine mul_left_cancel₀ hK ?_
  generalize P.cross Q = k at *
  generalize (P + Q).u = U at *
  generalize P.u = u₁, P.v = v₁, Q.u = u₂, Q.v = v₂ at *
  generalize M.scale = s at *
  subst hy₃
  generalize hD : 1 - k - (v₁ * v₂ + u₁ * u₂) = D at *
  generalize hN : (1 + v₂) * (1 - v₁) * u₁ - (1 + v₁) * (1 - v₂) * u₂ = N at *
  generalize hn : u₁ * v₂ + v₁ * u₂ = n at *
  linear_combination -2 * s * hid - 2 * u₁ * u₂ * (v₂ - v₁) * (1 - v₁) * D *
      (y₁ + l * (x₃ - x₁)) * hU - 2 * u₂ * (v₂ - v₁) * (1 - v₁) * D * n * hy₁ -
    n * (x₃ - x₁) * (1 - v₁) * D * hslope -
    s * (1 - v₁) * (n * N + 2 * (1 + k) * u₁ * u₂ * (v₂ - v₁)) * hX +
    n * s * (N * D - 2 * u₂ * (v₂ - v₁) * D) * hx₁ - n * s * N * (1 + v₁) * hD

/-- **The chord formula is the group's addition**, away from `x₁ = x₂` and from sums with
`u = 0`. -/
theorem add {l x₃ y₃ : F} (h₁ : M.Repr P x₁ y₁) (h₂ : M.Repr Q x₂ y₂) (hx : x₁ ≠ x₂)
    (hu : (P + Q).u ≠ 0) (hl : l * (x₂ - x₁) = y₂ - y₁) (hx₃ : x₃ = l ^ 2 - M.A - x₁ - x₂)
    (hy₃ : y₃ = -(y₁ + l * (x₃ - x₁))) : M.Repr (P + Q) x₃ y₃ := by
  have hv : Q.v - P.v ≠ 0 := by
    refine sub_ne_zero.mpr fun hv => hx (mul_right_cancel₀ h₁.one_sub_v ?_)
    rw [h₁.x_eq, ← hv, h₂.x_eq]
  have hX := chord_x_eq h₁ h₂ hv hl hx₃
  refine ⟨hu, mul_right_cancel₀ (P.one_sub_cross_ne_zero Q) ?_, chord_y_eq h₁ h₂ hv hu hl hX hy₃⟩
  linear_combination hX - (x₃ + 1) * P.add_v_mul Q

end Repr

end Form

end ProviiCrypto.Edwards
