import ProviiCrypto.Gadgets.SaplingEcc

/-!
# `gadgets::sapling_ecc`: Montgomery points

Montgomery points as two linear combinations. The addition is the chord formula, which is not
defined for points with one `x`: `MontgomeryPoint.add_sound` needs operands that are neither equal
nor opposite and a sum with `u ≠ 0`, or a free slope would let the output be anything.
-/

namespace ProviiCrypto

open R1CS R1CS.Synth Number

/-- A Montgomery point of the circuit. -/
structure MontgomeryPoint where
  x : Num Scalar
  y : Num Scalar

namespace MontgomeryPoint

/-- The prover knows the point, by its coordinates. -/
structure Known (m : MontgomeryPoint) (P : Point) (x₀ y₀ : Scalar) : Prop where
  x : m.x.value = some x₀
  y : m.y.value = some y₀
  repr : jubjubForm.Repr P x₀ y₀

/-- The point under an assignment. -/
def Reads (w : Assignment Scalar) (m : MontgomeryPoint) (P : Point) : Prop :=
  jubjubForm.Repr P (m.x.lc.eval w) (m.y.lc.eval w)

/-- The same linear combinations. -/
structure SameWires (m m' : MontgomeryPoint) : Prop where
  x : m.x.lc = m'.x.lc
  y : m.y.lc = m'.y.lc

theorem Known.eval {w : Assignment Scalar} {m : MontgomeryPoint} {P : Point} {x y : Scalar}
    (h : m.Known P x y) (hw : m.Reads w P) : m.x.lc.eval w = x ∧ m.y.lc.eval w = y :=
  Edwards.Form.Repr.unique hw h.repr

/-- `MontgomeryPoint::add`. -/
def add (p q : MontgomeryPoint) : Synth Scalar MontgomeryPoint := do
  -- lambda = (y' - y) / (x' - x)
  let lambda ← AllocatedNum.alloc
    (do divide ((← q.y.get) - (← p.y.get)) ((← q.x.get) - (← p.x.get)))
  enforce (q.x.lc.smul 1 - p.x.lc.smul 1) lambda.lc (q.y.lc.smul 1 - p.y.lc.smul 1)
  -- x'' = lambda² - A - x - x'
  let xprime ← AllocatedNum.alloc
    (do return (← lambda.get) ^ 2 - montgomeryA - (← p.x.get) - (← q.x.get))
  enforce lambda.lc lambda.lc
    (.term montgomeryA .one + p.x.lc.smul 1 + q.x.lc.smul 1 + xprime.lc)
  -- y' = -(y + lambda (x' - x))
  let yprime ← AllocatedNum.alloc
    (do return -(((← xprime.get) - (← p.x.get)) * (← lambda.get) + (← p.y.get)))
  enforce (p.x.lc.smul 1 - xprime.lc) lambda.lc (yprime.lc + p.y.lc.smul 1)
  return ⟨xprime.toNum, yprime.toNum⟩

/-- `MontgomeryPoint::into_edwards`. -/
def intoEdwards (m : MontgomeryPoint) : Synth Scalar EdwardsPoint := do
  -- u = (scale x) / y
  let u ← AllocatedNum.alloc (do divide ((← m.x.get) * montgomeryScale) (← m.y.get))
  enforce (m.y.lc.smul 1) u.lc (m.x.lc.smul montgomeryScale)
  -- v = (x - 1) / (x + 1)
  let v ← AllocatedNum.alloc (do divide ((← m.x.get) - 1) ((← m.x.get) + 1))
  enforce (m.x.lc.smul 1 + .var .one) v.lc (m.x.lc.smul 1 - .var .one)
  return ⟨u, v⟩

theorem add_sound (p q : MontgomeryPoint) :
    Sound (add p q) fun w r => ∀ P Q, p.Reads w P → q.Reads w Q → P ≠ Q → P ≠ -Q →
      (P + Q).u ≠ 0 → r.Reads w (P + Q) := by
  refine Sound.bind (AllocatedNum.sound_alloc _) fun l => Sound.bind (Sound.enforce _ _ _) fun _ =>
    Sound.bind (AllocatedNum.sound_alloc _) fun x => Sound.bind (Sound.enforce _ _ _) fun _ =>
    Sound.bind (AllocatedNum.sound_alloc _) fun y => Sound.bind (Sound.enforce _ _ _) fun _ =>
    Sound.pure fun w hy _ hx _ hl _ P Q hP hQ hne hneg hu => ?_
  simp only [AllocatedNum.lc, LinearCombination.eval_add, LinearCombination.eval_sub,
    LinearCombination.eval_var, LinearCombination.eval_term, LinearCombination.eval_smul,
    Assignment.apply_one, one_mul, mul_one] at hl hx hy
  have hx_ne := Edwards.Form.Repr.x_ne hP hQ hne hneg
  refine Edwards.Form.Repr.add hP hQ hx_ne hu (l := w l.var) (by rw [mul_comm, hl]) ?_ ?_
  · simp only [AllocatedNum.toNum, AllocatedNum.lc, LinearCombination.eval_var]
    show _ = _ - montgomeryA - _ - _
    linear_combination -hx
  · simp only [AllocatedNum.toNum, AllocatedNum.lc, LinearCombination.eval_var]
    linear_combination -hy

/-- **The slope**, the first variable that the addition allocates, is determined by its constraint
where the operands' `x` differ. -/
theorem add_slope {p q : MontgomeryPoint} {md : Mode} {n : Counts} {r : MontgomeryPoint}
    {ops : List (Op Scalar)} (h : add p q md n = .ok (r, ops)) {w : Assignment Scalar}
    (hw : Holds w ops) (hx : p.x.lc.eval w ≠ q.x.lc.eval w) :
    w (.aux n.aux) =
      (q.y.lc.eval w - p.y.lc.eval w) / (q.x.lc.eval w - p.x.lc.eval w) := by
  obtain ⟨l, o₁, o₂, hl, hrest, rfl⟩ := bind_eq_ok.mp h
  obtain ⟨_, o₃, o₄, he, -, rfl⟩ := bind_eq_ok.mp hrest
  have hslope := Sound.enforce _ _ _ md _ _ o₃ he w
    ((holds_append w o₃ o₄).mp ((holds_append w o₁ _).mp hw).2).1
  simp only [AllocatedNum.lc, LinearCombination.eval_sub, LinearCombination.eval_var,
    LinearCombination.eval_smul, one_mul, AllocatedNum.var_alloc hl] at hslope
  rw [eq_div_iff (sub_ne_zero.mpr hx.symm), mul_comm, hslope]

theorem add_honest (n : Counts) {p q : MontgomeryPoint} {P Q : Point} {x₁ y₁ x₂ y₂ : Scalar}
    (hp : p.Known P x₁ y₁) (hq : q.Known Q x₂ y₂) (hne : P ≠ Q) (hneg : P ≠ -Q)
    (hu : (P + Q).u ≠ 0) :
    Honest n (add p q) (fun w => p.Reads w P ∧ q.Reads w Q) (fun r => ∃ x y, r.Known (P + Q) x y)
      fun w r => r.Reads w (P + Q) := by
  refine Honest.of_sound (T := fun _ _ => True) ?_ (add_sound p q)
    fun w r h hs => hs P Q h.1 h.2 hne hneg hu
  have hx : x₁ ≠ x₂ := hp.repr.x_ne hq.repr hne hneg
  have hd : x₂ - x₁ ≠ 0 := sub_ne_zero.mpr hx.symm
  -- the slope and the coordinates of the sum
  set l := (y₂ - y₁) / (x₂ - x₁) with hl
  set x₃ := l ^ 2 - montgomeryA - x₁ - x₂ with hx₃
  have hslope : l * (x₂ - x₁) = y₂ - y₁ := div_mul_cancel₀ _ hd
  refine Honest.bind (AllocatedNum.honest_alloc (v := l) (by
    rw [Num.get_of_value hq.y, Num.get_of_value hp.y, Num.get_of_value hq.x,
      Num.get_of_value hp.x]
    exact divide_of_ne_zero hd) _) fun lambda _ hlv => ?_
  refine Honest.bind (Honest.enforce fun w h => ?_) fun _ _ _ => ?_
  · obtain ⟨⟨hwp, hwq⟩, hwl⟩ := h
    simp only [AllocatedNum.lc, LinearCombination.eval_sub, LinearCombination.eval_var,
      LinearCombination.eval_smul, one_mul, (hp.eval hwp).1, (hp.eval hwp).2, (hq.eval hwq).1,
      (hq.eval hwq).2, hwl]
    linear_combination hslope
  refine Honest.bind (AllocatedNum.honest_alloc (v := x₃) (by
    rw [AllocatedNum.get_of_value hlv, Num.get_of_value hp.x, Num.get_of_value hq.x]; rfl) _)
    fun xprime _ hxv => ?_
  refine Honest.bind (Honest.enforce fun w h => ?_) fun _ _ _ => ?_
  · obtain ⟨⟨⟨⟨hwp, hwq⟩, hwl⟩, -⟩, hwx⟩ := h
    simp only [AllocatedNum.lc, LinearCombination.eval_add, LinearCombination.eval_var,
      LinearCombination.eval_term, LinearCombination.eval_smul, Assignment.apply_one, one_mul,
      mul_one, (hp.eval hwp).1, (hq.eval hwq).1, hwl, hwx]
    rw [hx₃]
    ring
  refine Honest.bind (AllocatedNum.honest_alloc (v := -(y₁ + l * (x₃ - x₁))) (by
    rw [AllocatedNum.get_of_value hxv, AllocatedNum.get_of_value hlv, Num.get_of_value hp.x,
      Num.get_of_value hp.y]
    refine congrArg Except.ok ?_
    ring) _) fun yprime _ hyv => ?_
  refine Honest.bind (Honest.enforce fun w h => ?_) fun _ _ _ =>
    Honest.pure ⟨x₃, _, hxv, hyv, hp.repr.add hq.repr hx hu hslope hx₃ rfl⟩ fun _ _ => trivial
  obtain ⟨⟨⟨⟨⟨⟨hwp, -⟩, hwl⟩, -⟩, hwx⟩, -⟩, hwy⟩ := h
  simp only [AllocatedNum.lc, LinearCombination.eval_add, LinearCombination.eval_sub,
    LinearCombination.eval_var, LinearCombination.eval_smul, one_mul, (hp.eval hwp).1,
    (hp.eval hwp).2, hwl, hwx, hwy]
  ring

theorem intoEdwards_sound (m : MontgomeryPoint) :
    Sound (intoEdwards m) fun w p => ∀ P, m.Reads w P → p.Reads w P := by
  refine Sound.bind (AllocatedNum.sound_alloc _) fun u => Sound.bind (Sound.enforce _ _ _) fun _ =>
    Sound.bind (AllocatedNum.sound_alloc _) fun v => Sound.bind (Sound.enforce _ _ _) fun _ =>
    Sound.pure fun w hv _ hu _ P hP => ?_
  simp only [AllocatedNum.lc, LinearCombination.eval_add, LinearCombination.eval_sub,
    LinearCombination.eval_var, LinearCombination.eval_smul, Assignment.apply_one, one_mul]
    at hu hv
  obtain ⟨hu, hv⟩ := Edwards.Form.Repr.eq_of_maps hP hu hv
  exact ⟨hu, hv⟩

theorem intoEdwards_honest (n : Counts) {m : MontgomeryPoint} {P : Point} {x y : Scalar}
    (hm : m.Known P x y) : Honest n (intoEdwards m) (fun w => m.Reads w P) (fun p => p.Known P)
      fun w p => p.Reads w P := by
  have hu : x * montgomeryScale / y = P.u := by
    rw [div_eq_iff hm.repr.y_ne_zero, mul_comm, mul_comm P.u]
    exact hm.repr.y_eq.symm
  have hv : (x - 1) / (x + 1) = P.v := by
    rw [div_eq_iff hm.repr.x_add_one_ne_zero]
    exact hm.repr.v_eq.symm
  refine Honest.bind (AllocatedNum.honest_alloc (v := P.u) (by
    rw [Num.get_of_value hm.x, Num.get_of_value hm.y, ← hu]
    exact divide_of_ne_zero hm.repr.y_ne_zero) _) fun u _ hku => ?_
  refine Honest.bind (Honest.enforce fun w h => ?_) fun _ _ _ => ?_
  · simp only [AllocatedNum.lc, LinearCombination.eval_var, LinearCombination.eval_smul, one_mul,
      (hm.eval h.1).1, (hm.eval h.1).2, h.2]
    exact hm.repr.y_eq
  refine Honest.bind (AllocatedNum.honest_alloc (v := P.v) (by
    rw [Num.get_of_value hm.x, ← hv]
    exact divide_of_ne_zero hm.repr.x_add_one_ne_zero) _) fun v _ hkv => ?_
  refine Honest.bind (Honest.enforce fun w h => ?_) fun _ _ _ =>
    Honest.pure ⟨hku, hkv⟩ fun w h => ⟨h.1.1.1.2, h.1.2⟩
  simp only [AllocatedNum.lc, LinearCombination.eval_add, LinearCombination.eval_sub,
    LinearCombination.eval_var, LinearCombination.eval_smul, Assignment.apply_one, one_mul,
    (hm.eval h.1.1.1).1, h.2]
  linear_combination hm.repr.v_eq

theorem add_layout {p p' q q' : MontgomeryPoint} (hp : p.SameWires p') (hq : q.SameWires q') :
    SameLayout SameWires (add p q) (add p' q') := by
  refine (AllocatedNum.sameLayout_alloc _ _).bind fun l l' hl => ?_
  refine (SameLayout.enforce (by rw [hp.x, hq.x]) (by simp only [AllocatedNum.lc, hl])
    (by rw [hp.y, hq.y])).bind fun _ _ _ => ?_
  refine (AllocatedNum.sameLayout_alloc _ _).bind fun x x' hx => ?_
  refine (SameLayout.enforce (by simp only [AllocatedNum.lc, hl]) (by simp only [AllocatedNum.lc, hl])
    (by simp only [AllocatedNum.lc, hp.x, hq.x, hx])).bind fun _ _ _ => ?_
  refine (AllocatedNum.sameLayout_alloc _ _).bind fun y y' hy => ?_
  refine (SameLayout.enforce (by simp only [AllocatedNum.lc, hp.x, hx])
    (by simp only [AllocatedNum.lc, hl]) (by simp only [AllocatedNum.lc, hp.y, hy])).bind
      fun _ _ _ => SameLayout.pure ⟨?_, ?_⟩
  · simp only [AllocatedNum.toNum, AllocatedNum.lc, hx]
  · simp only [AllocatedNum.toNum, AllocatedNum.lc, hy]

theorem intoEdwards_layout {m m' : MontgomeryPoint} (h : m.SameWires m') :
    SameLayout EdwardsPoint.SameWires (intoEdwards m) (intoEdwards m') := by
  refine (AllocatedNum.sameLayout_alloc _ _).bind fun u u' hu => ?_
  refine (SameLayout.enforce (by rw [h.y]) (by simp only [AllocatedNum.lc, hu]) (by rw [h.x])).bind
    fun _ _ _ => ?_
  refine (AllocatedNum.sameLayout_alloc _ _).bind fun v v' hv => ?_
  exact (SameLayout.enforce (by rw [h.x]) (by simp only [AllocatedNum.lc, hv]) (by rw [h.x])).bind
    fun _ _ _ => SameLayout.pure ⟨hu, hv⟩

theorem add_auxOnly (p q : MontgomeryPoint) : AuxOnly (add p q) :=
  (AllocatedNum.auxOnly_alloc _).bind fun _ => (AuxOnly.enforce _ _ _).bind fun _ =>
    (AllocatedNum.auxOnly_alloc _).bind fun _ => (AuxOnly.enforce _ _ _).bind fun _ =>
    (AllocatedNum.auxOnly_alloc _).bind fun _ => (AuxOnly.enforce _ _ _).bind fun _ =>
    AuxOnly.pure _

theorem intoEdwards_auxOnly (m : MontgomeryPoint) : AuxOnly (intoEdwards m) :=
  (AllocatedNum.auxOnly_alloc _).bind fun _ => (AuxOnly.enforce _ _ _).bind fun _ =>
    (AllocatedNum.auxOnly_alloc _).bind fun _ => (AuxOnly.enforce _ _ _).bind fun _ =>
    AuxOnly.pure _

end MontgomeryPoint

end ProviiCrypto
