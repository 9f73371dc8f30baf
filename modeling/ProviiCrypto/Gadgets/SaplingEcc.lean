import ProviiCrypto.Bellman.Interface
import ProviiCrypto.Jubjub.Curve

/-!
# `gadgets::sapling_ecc`: Edwards points

Affine twisted Edwards points of Jubjub as two allocated numbers. Each operation forces the group
operation on whatever points its inputs stand for (`add_sound`, `mul_sound`), and none can fail
while proving, since the addition is complete.
-/

namespace ProviiCrypto

open R1CS R1CS.Synth Number

variable {H : Blake2s} (B : Bellman H)

/-- A twisted Edwards point of the circuit. -/
structure EdwardsPoint where
  u : AllocatedNum Scalar
  v : AllocatedNum Scalar

namespace EdwardsPoint

/-! ## Readings -/

/-- The prover knows the point. -/
structure Known (p : EdwardsPoint) (P : Point) : Prop where
  u : p.u.value = some P.u
  v : p.v.value = some P.v

/-- The point under an assignment. -/
structure Reads (w : Assignment Scalar) (p : EdwardsPoint) (P : Point) : Prop where
  u : w p.u.var = P.u
  v : w p.v.var = P.v

/-- The same wires, up to the values carried. -/
structure SameWires (p p' : EdwardsPoint) : Prop where
  u : p.u.var = p'.u.var
  v : p.v.var = p'.v.var

theorem Reads.unique {w : Assignment Scalar} {p : EdwardsPoint} {P Q : Point} (h : p.Reads w P)
    (h' : p.Reads w Q) : P = Q :=
  Edwards.Point.ext (h.u.symm.trans h'.u) (h.v.symm.trans h'.v)

theorem SameWires.reads {w : Assignment Scalar} {p p' : EdwardsPoint} {P : Point}
    (h : p.SameWires p') (hp : p.Reads w P) : p'.Reads w P :=
  ⟨h.u ▸ hp.u, h.v ▸ hp.v⟩

/-- The same wires, carrying the coordinates of `P`. -/
theorem exists_known (p : EdwardsPoint) (P : Point) : ∃ p', p.SameWires p' ∧ p'.Known P :=
  ⟨⟨{ p.u with value := some P.u }, { p.v with value := some P.v }⟩, ⟨rfl, rfl⟩, ⟨rfl, rfl⟩⟩

/-- The point's variables are among those already allocated. -/
structure Below (n : Counts) (p : EdwardsPoint) : Prop where
  u : p.u.var.Below n
  v : p.v.var.Below n

theorem Reads.congr {n : Counts} {w w₀ : Assignment Scalar} {p : EdwardsPoint} {P : Point}
    (h : p.Reads w₀ P) (hp : p.Below n) (hw : ∀ x : Variable, x.Below n → w x = w₀ x) :
    p.Reads w P :=
  ⟨(hw _ hp.u).trans h.u, (hw _ hp.v).trans h.v⟩

/-! ## Witnessing -/

/-- `EdwardsPoint::interpret`: `-u² + v² = 1 + d u² v²`. -/
def interpret (u v : AllocatedNum Scalar) : Synth Scalar EdwardsPoint := do
  let u2 ← B.square u
  let v2 ← B.square v
  let u2v2 ← B.mul u2 v2
  enforce (.zero - u2.lc + v2.lc) (.var .one) (.var .one + .term edwardsD u2v2.var)
  return ⟨u, v⟩

/-- `p.get()?` of an optional point. -/
def getPoint (p : Option Point) : Except SynthesisError Point :=
  match p with
  | some P => .ok P
  | none => .error .assignmentMissing

/-- `EdwardsPoint::witness`. -/
def witness (p : Option Point) : Synth Scalar EdwardsPoint := do
  let u ← AllocatedNum.alloc (do return (← getPoint p).u)
  let v ← AllocatedNum.alloc (do return (← getPoint p).v)
  interpret B u v

theorem interpret_sound (u v : AllocatedNum Scalar) :
    Sound (interpret B u v) fun w p => ∃ P, p.Reads w P := by
  refine Sound.bind (B.square_sound u) fun u2 => Sound.bind (B.square_sound v) fun v2 =>
    Sound.bind (B.mul_sound u2 v2) fun u2v2 => Sound.bind (Sound.enforce _ _ _) fun _ =>
    Sound.pure fun w h h₃ h₂ h₁ => ?_
  refine ⟨⟨w u.var, w v.var, ?_⟩, rfl, rfl⟩
  simp only [AllocatedNum.lc, LinearCombination.eval_add, LinearCombination.eval_sub,
    LinearCombination.eval_zero, LinearCombination.eval_var, LinearCombination.eval_term,
    Assignment.apply_one, h₁, h₂, h₃] at h
  show -_ ^ 2 + _ = 1 + edwardsD * _ * _
  linear_combination h

theorem interpret_honest (n : Counts) {u v : AllocatedNum Scalar} {P : Point}
    (hu : u.value = some P.u) (hv : v.value = some P.v) :
    Honest n (interpret B u v) (fun w => w u.var = P.u ∧ w v.var = P.v) (fun p => p.Known P)
      fun w p => p.Reads w P := by
  refine Honest.bind ((B.square_honest n _ _ hu).of_pre fun w h => h.1) fun u2 _ hu2 => ?_
  refine Honest.bind ((B.square_honest _ _ _ hv).of_pre fun w h => h.1.2) fun v2 _ hv2 => ?_
  refine Honest.bind ((B.mul_honest _ _ _ _ _ hu2 hv2).of_pre fun w h => ⟨h.1.2, h.2⟩)
    fun u2v2 _ _ => ?_
  refine (Honest.enforce fun w h => ?_).bind fun _ _ _ =>
    Honest.pure ⟨hu, hv⟩ fun w h => ⟨h.1.1.1.1.1, h.1.1.1.1.2⟩
  obtain ⟨⟨⟨-, h₁⟩, h₂⟩, h₃⟩ := h
  simp only [AllocatedNum.lc, LinearCombination.eval_add, LinearCombination.eval_sub,
    LinearCombination.eval_zero, LinearCombination.eval_var, LinearCombination.eval_term,
    Assignment.apply_one, h₁, h₂, h₃]
  have hon : -P.u ^ 2 + P.v ^ 2 = 1 + edwardsD * P.u ^ 2 * P.v ^ 2 := P.onCurve
  linear_combination hon

theorem interpret_layout {u u' v v' : AllocatedNum Scalar} (hu : u.var = u'.var)
    (hv : v.var = v'.var) : SameLayout SameWires (interpret B u v) (interpret B u' v') :=
  (B.square_layout hu).bind fun a a' ha => (B.square_layout hv).bind fun b b' hb =>
    (B.mul_layout ha hb).bind fun c c' hc =>
    (SameLayout.enforce (by simp only [AllocatedNum.lc, ha, hb]) rfl (by rw [hc])).bind
      fun _ _ _ => SameLayout.pure ⟨hu, hv⟩

theorem interpret_auxOnly (u v : AllocatedNum Scalar) : AuxOnly (interpret B u v) :=
  (B.square_auxOnly _).bind fun _ => (B.square_auxOnly _).bind fun _ =>
    (B.mul_auxOnly _ _).bind fun _ => (AuxOnly.enforce _ _ _).bind fun _ => AuxOnly.pure _

/-- A witnessed point is on the curve, whatever was witnessed. -/
theorem witness_sound (p : Option Point) : Sound (witness B p) fun w q => ∃ Q, q.Reads w Q :=
  Sound.bind (AllocatedNum.sound_alloc _) fun _ => Sound.bind (AllocatedNum.sound_alloc _) fun _ =>
    (interpret_sound B _ _).mono fun _ _ h _ _ => h

theorem witness_honest (n : Counts) (P : Point) (pre : Assignment Scalar → Prop) :
    Honest n (witness B (some P)) pre (fun p => p.Known P) fun w p => p.Reads w P :=
  (AllocatedNum.honest_alloc rfl _).bind fun _ _ hu => (AllocatedNum.honest_alloc rfl _).bind
    fun _ _ hv => (interpret_honest B _ hu hv).of_pre fun _ h => ⟨h.1.2, h.2⟩

theorem witness_layout (p p' : Option Point) :
    SameLayout SameWires (witness B p) (witness B p') :=
  (AllocatedNum.sameLayout_alloc _ _).bind fun _ _ hu =>
    (AllocatedNum.sameLayout_alloc _ _).bind fun _ _ hv => interpret_layout B hu hv

theorem witness_auxOnly (p : Option Point) : AuxOnly (witness B p) :=
  (AllocatedNum.auxOnly_alloc _).bind fun _ => (AllocatedNum.auxOnly_alloc _).bind fun _ =>
    interpret_auxOnly B _ _

/-! ## Addition -/

/-- `EdwardsPoint::double`. -/
def double (p : EdwardsPoint) : Synth Scalar EdwardsPoint := do
  -- T = (u + v) * (u + v)
  let t ← AllocatedNum.alloc (do return ((← p.u.get) + (← p.v.get)) * ((← p.u.get) + (← p.v.get)))
  enforce (p.u.lc + p.v.lc) (p.u.lc + p.v.lc) t.lc
  -- A = u * v
  let a ← B.mul p.u p.v
  -- C = d * A * A
  let c ← AllocatedNum.alloc (do return (← a.get) ^ 2 * edwardsD)
  enforce (.term edwardsD a.var) a.lc c.lc
  -- u3 = (2 A) / (1 + C)
  let u3 ← AllocatedNum.alloc (do divide ((← a.get) + (← a.get)) (1 + (← c.get)))
  enforce (.var .one + c.lc) u3.lc (a.lc + a.lc)
  -- v3 = (T - 2 A) / (1 - C)
  let v3 ← AllocatedNum.alloc
    (do divide (-((← a.get) + (← a.get)) + (← t.get)) (1 - (← c.get)))
  enforce (.var .one - c.lc) v3.lc (t.lc - a.lc - a.lc)
  return ⟨u3, v3⟩

/-- `EdwardsPoint::add`. -/
def add (p q : EdwardsPoint) : Synth Scalar EdwardsPoint := do
  -- U = (u1 + v1) * (u2 + v2)
  let uppercaseU ← AllocatedNum.alloc
    (do return ((← p.u.get) + (← p.v.get)) * ((← q.u.get) + (← q.v.get)))
  enforce (p.u.lc + p.v.lc) (q.u.lc + q.v.lc) uppercaseU.lc
  -- A = v2 * u1, B = u2 * v1
  let a ← B.mul q.v p.u
  let b ← B.mul q.u p.v
  -- C = d * A * B
  let c ← AllocatedNum.alloc (do return (← a.get) * (← b.get) * edwardsD)
  enforce (.term edwardsD a.var) b.lc c.lc
  -- u3 = (A + B) / (1 + C)
  let u3 ← AllocatedNum.alloc (do divide ((← a.get) + (← b.get)) (1 + (← c.get)))
  enforce (.var .one + c.lc) u3.lc (a.lc + b.lc)
  -- v3 = (U - A - B) / (1 - C)
  let v3 ← AllocatedNum.alloc
    (do divide ((← uppercaseU.get) - (← a.get) - (← b.get)) (1 - (← c.get)))
  enforce (.var .one - c.lc) v3.lc (uppercaseU.lc - a.lc - b.lc)
  return ⟨u3, v3⟩

/-- `d A B` is the product that the two denominators share. -/
private theorem cross_eq (P Q : Point) : P.cross Q = edwardsD * (Q.v * P.u) * (Q.u * P.v) := by
  unfold Edwards.Point.cross
  show edwardsD * _ * _ * _ * _ = _
  ring

theorem double_sound (p : EdwardsPoint) :
    Sound (double B p) fun w r => ∀ P, p.Reads w P → r.Reads w (P + P) := by
  refine Sound.bind (AllocatedNum.sound_alloc _) fun t => Sound.bind (Sound.enforce _ _ _) fun _ =>
    Sound.bind (B.mul_sound _ _) fun a => Sound.bind (AllocatedNum.sound_alloc _) fun c =>
    Sound.bind (Sound.enforce _ _ _) fun _ => Sound.bind (AllocatedNum.sound_alloc _) fun u3 =>
    Sound.bind (Sound.enforce _ _ _) fun _ => Sound.bind (AllocatedNum.sound_alloc _) fun v3 =>
    Sound.bind (Sound.enforce _ _ _) fun _ => Sound.pure fun w hv _ hu _ hc _ ha ht _ P hP => ?_
  simp only [AllocatedNum.lc, LinearCombination.eval_add, LinearCombination.eval_sub,
    LinearCombination.eval_var, LinearCombination.eval_term, Assignment.apply_one, hP.u, hP.v]
    at ht ha hc hu hv
  have hcross : w c.var = P.cross P := by
    rw [← hc, ha, cross_eq, mul_comm P.v]
  rw [hcross] at hu hv
  obtain ⟨hu3, hv3⟩ := Edwards.Point.eq_add_of_mul (P := P) (Q := P) (u := w u3.var)
    (v := w v3.var) (by rw [mul_comm, hu, ha]; ring) (by rw [mul_comm, hv, ← ht, ha]; ring)
  exact ⟨hu3, hv3⟩

theorem add_sound (p q : EdwardsPoint) :
    Sound (add B p q) fun w r => ∀ P Q, p.Reads w P → q.Reads w Q → r.Reads w (P + Q) := by
  refine Sound.bind (AllocatedNum.sound_alloc _) fun t => Sound.bind (Sound.enforce _ _ _) fun _ =>
    Sound.bind (B.mul_sound _ _) fun a => Sound.bind (B.mul_sound _ _) fun b =>
    Sound.bind (AllocatedNum.sound_alloc _) fun c => Sound.bind (Sound.enforce _ _ _) fun _ =>
    Sound.bind (AllocatedNum.sound_alloc _) fun u3 => Sound.bind (Sound.enforce _ _ _) fun _ =>
    Sound.bind (AllocatedNum.sound_alloc _) fun v3 => Sound.bind (Sound.enforce _ _ _) fun _ =>
    Sound.pure fun w hv _ hu _ hc _ hb ha ht _ P Q hP hQ => ?_
  simp only [AllocatedNum.lc, LinearCombination.eval_add, LinearCombination.eval_sub,
    LinearCombination.eval_var, LinearCombination.eval_term, Assignment.apply_one, hP.u, hP.v,
    hQ.u, hQ.v] at ht ha hb hc hu hv
  have hcross : w c.var = P.cross Q := by
    rw [← hc, ha, hb, cross_eq]
  rw [hcross] at hu hv
  obtain ⟨hu3, hv3⟩ := Edwards.Point.eq_add_of_mul (P := P) (Q := Q) (u := w u3.var)
    (v := w v3.var) (by rw [mul_comm, hu, ha, hb]; ring) (by rw [mul_comm, hv, ← ht, ha, hb]; ring)
  exact ⟨hu3, hv3⟩

theorem double_honest (n : Counts) {p : EdwardsPoint} {P : Point} (hp : p.Known P) :
    Honest n (double B p) (fun w => p.Reads w P) (fun r => r.Known (P + P))
      fun w r => r.Reads w (P + P) := by
  have hC : (P.u * P.v) ^ 2 * edwardsD = P.cross P := by
    rw [cross_eq]
    ring
  refine Honest.bind (AllocatedNum.honest_alloc (v := (P.u + P.v) * (P.u + P.v)) (by
    rw [AllocatedNum.get_of_value hp.u, AllocatedNum.get_of_value hp.v]; rfl) _) fun t _ ht => ?_
  refine Honest.bind (Honest.enforce fun w h => ?_) fun _ _ _ => ?_
  · simp only [AllocatedNum.lc, LinearCombination.eval_add, LinearCombination.eval_var, h.1.u,
      h.1.v, h.2]
  refine Honest.bind ((B.mul_honest _ _ _ _ _ hp.u hp.v).of_pre fun w h => ⟨h.1.1.u, h.1.1.v⟩)
    fun a _ ha => ?_
  refine Honest.bind (AllocatedNum.honest_alloc (v := P.cross P) (by
    rw [AllocatedNum.get_of_value ha, ← hC]; rfl) _) fun c _ hc => ?_
  refine Honest.bind (Honest.enforce fun w h => ?_) fun _ _ _ => ?_
  · simp only [AllocatedNum.lc, LinearCombination.eval_var, LinearCombination.eval_term, h.1.2,
      h.2, ← hC]
    ring
  refine Honest.bind (AllocatedNum.honest_alloc (v := (P + P).u) (by
    rw [AllocatedNum.get_of_value ha, AllocatedNum.get_of_value hc]
    refine (divide_of_ne_zero (P.one_add_cross_ne_zero P)).trans ?_
    rw [Edwards.Point.add_u, mul_comm P.v]) _) fun u3 _ hu3 => ?_
  refine Honest.bind (Honest.enforce fun w h => ?_) fun _ _ _ => ?_
  · simp only [AllocatedNum.lc, LinearCombination.eval_add, LinearCombination.eval_var,
      Assignment.apply_one, h.1.1.2, h.1.1.1.2, h.2]
    linear_combination P.add_u_mul P
  refine Honest.bind (AllocatedNum.honest_alloc (v := (P + P).v) (by
    rw [AllocatedNum.get_of_value ha, AllocatedNum.get_of_value hc, AllocatedNum.get_of_value ht]
    refine (divide_of_ne_zero (P.one_sub_cross_ne_zero P)).trans ?_
    rw [Edwards.Point.add_v]
    congr 2
    ring) _) fun v3 _ hv3 => ?_
  refine Honest.bind (Honest.enforce fun w h => ?_) fun _ _ _ =>
    Honest.pure ⟨hu3, hv3⟩ fun w h => ⟨h.1.1.1.2, h.1.2⟩
  obtain ⟨⟨⟨⟨⟨⟨⟨⟨-, hwt⟩, -⟩, hwa⟩, hwc⟩, -⟩, -⟩, -⟩, hwv⟩ := h
  simp only [AllocatedNum.lc, LinearCombination.eval_sub, LinearCombination.eval_var,
    Assignment.apply_one, hwt, hwa, hwc, hwv]
  linear_combination P.add_v_mul P

theorem add_honest (n : Counts) {p q : EdwardsPoint} {P Q : Point} (hp : p.Known P)
    (hq : q.Known Q) : Honest n (add B p q) (fun w => p.Reads w P ∧ q.Reads w Q)
      (fun r => r.Known (P + Q)) fun w r => r.Reads w (P + Q) := by
  have hC : Q.v * P.u * (Q.u * P.v) * edwardsD = P.cross Q := by
    rw [cross_eq]
    ring
  refine Honest.bind (AllocatedNum.honest_alloc (v := (P.u + P.v) * (Q.u + Q.v)) (by
    rw [AllocatedNum.get_of_value hp.u, AllocatedNum.get_of_value hp.v,
      AllocatedNum.get_of_value hq.u, AllocatedNum.get_of_value hq.v]; rfl) _) fun t _ ht => ?_
  refine Honest.bind (Honest.enforce fun w h => ?_) fun _ _ _ => ?_
  · simp only [AllocatedNum.lc, LinearCombination.eval_add, LinearCombination.eval_var, h.1.1.u,
      h.1.1.v, h.1.2.u, h.1.2.v, h.2]
  refine Honest.bind ((B.mul_honest _ _ _ _ _ hq.v hp.u).of_pre fun w h => ⟨h.1.1.2.v, h.1.1.1.u⟩)
    fun a _ ha => ?_
  refine Honest.bind ((B.mul_honest _ _ _ _ _ hq.u hp.v).of_pre fun w h =>
    ⟨h.1.1.1.2.u, h.1.1.1.1.v⟩) fun b _ hb => ?_
  refine Honest.bind (AllocatedNum.honest_alloc (v := P.cross Q) (by
    rw [AllocatedNum.get_of_value ha, AllocatedNum.get_of_value hb, ← hC]; rfl) _) fun c _ hc => ?_
  refine Honest.bind (Honest.enforce fun w h => ?_) fun _ _ _ => ?_
  · simp only [AllocatedNum.lc, LinearCombination.eval_var, LinearCombination.eval_term, h.1.2,
      h.1.1.2, h.2, ← hC]
    ring
  refine Honest.bind (AllocatedNum.honest_alloc (v := (P + Q).u) (by
    rw [AllocatedNum.get_of_value ha, AllocatedNum.get_of_value hb, AllocatedNum.get_of_value hc]
    refine (divide_of_ne_zero (P.one_add_cross_ne_zero Q)).trans ?_
    rw [Edwards.Point.add_u]
    congr 2
    ring) _) fun u3 _ hu3 => ?_
  refine Honest.bind (Honest.enforce fun w h => ?_) fun _ _ _ => ?_
  · simp only [AllocatedNum.lc, LinearCombination.eval_add, LinearCombination.eval_var,
      Assignment.apply_one, h.1.1.2, h.1.1.1.2, h.1.1.1.1.2, h.2]
    linear_combination P.add_u_mul Q
  refine Honest.bind (AllocatedNum.honest_alloc (v := (P + Q).v) (by
    rw [AllocatedNum.get_of_value ha, AllocatedNum.get_of_value hb, AllocatedNum.get_of_value hc,
      AllocatedNum.get_of_value ht]
    refine (divide_of_ne_zero (P.one_sub_cross_ne_zero Q)).trans ?_
    rw [Edwards.Point.add_v]
    congr 2
    ring) _) fun v3 _ hv3 => ?_
  refine Honest.bind (Honest.enforce fun w h => ?_) fun _ _ _ =>
    Honest.pure ⟨hu3, hv3⟩ fun w h => ⟨h.1.1.1.2, h.1.2⟩
  obtain ⟨⟨⟨⟨⟨⟨⟨⟨⟨-, hwt⟩, -⟩, hwa⟩, hwb⟩, hwc⟩, -⟩, -⟩, -⟩, hwv⟩ := h
  simp only [AllocatedNum.lc, LinearCombination.eval_sub, LinearCombination.eval_var,
    Assignment.apply_one, hwt, hwa, hwb, hwc, hwv]
  linear_combination P.add_v_mul Q

theorem double_layout {p p' : EdwardsPoint} (h : p.SameWires p') :
    SameLayout SameWires (double B p) (double B p') := by
  refine (AllocatedNum.sameLayout_alloc _ _).bind fun t t' ht => ?_
  refine (SameLayout.enforce (by simp only [AllocatedNum.lc, h.u, h.v])
    (by simp only [AllocatedNum.lc, h.u, h.v]) (by simp only [AllocatedNum.lc, ht])).bind
      fun _ _ _ => ?_
  refine (B.mul_layout h.u h.v).bind fun a a' ha => ?_
  refine (AllocatedNum.sameLayout_alloc _ _).bind fun c c' hc => ?_
  refine (SameLayout.enforce (by rw [ha]) (by simp only [AllocatedNum.lc, ha])
    (by simp only [AllocatedNum.lc, hc])).bind fun _ _ _ => ?_
  refine (AllocatedNum.sameLayout_alloc _ _).bind fun u u' hu => ?_
  refine (SameLayout.enforce (by simp only [AllocatedNum.lc, hc]) (by simp only [AllocatedNum.lc, hu])
    (by simp only [AllocatedNum.lc, ha])).bind fun _ _ _ => ?_
  refine (AllocatedNum.sameLayout_alloc _ _).bind fun v v' hv => ?_
  exact (SameLayout.enforce (by simp only [AllocatedNum.lc, hc]) (by simp only [AllocatedNum.lc, hv])
    (by simp only [AllocatedNum.lc, ha, ht])).bind fun _ _ _ => SameLayout.pure ⟨hu, hv⟩

theorem add_layout {p p' q q' : EdwardsPoint} (hp : p.SameWires p') (hq : q.SameWires q') :
    SameLayout SameWires (add B p q) (add B p' q') := by
  refine (AllocatedNum.sameLayout_alloc _ _).bind fun t t' ht => ?_
  refine (SameLayout.enforce (by simp only [AllocatedNum.lc, hp.u, hp.v])
    (by simp only [AllocatedNum.lc, hq.u, hq.v]) (by simp only [AllocatedNum.lc, ht])).bind
      fun _ _ _ => ?_
  refine (B.mul_layout hq.v hp.u).bind fun a a' ha => ?_
  refine (B.mul_layout hq.u hp.v).bind fun b b' hb => ?_
  refine (AllocatedNum.sameLayout_alloc _ _).bind fun c c' hc => ?_
  refine (SameLayout.enforce (by rw [ha]) (by simp only [AllocatedNum.lc, hb])
    (by simp only [AllocatedNum.lc, hc])).bind fun _ _ _ => ?_
  refine (AllocatedNum.sameLayout_alloc _ _).bind fun u u' hu => ?_
  refine (SameLayout.enforce (by simp only [AllocatedNum.lc, hc]) (by simp only [AllocatedNum.lc, hu])
    (by simp only [AllocatedNum.lc, ha, hb])).bind fun _ _ _ => ?_
  refine (AllocatedNum.sameLayout_alloc _ _).bind fun v v' hv => ?_
  exact (SameLayout.enforce (by simp only [AllocatedNum.lc, hc]) (by simp only [AllocatedNum.lc, hv])
    (by simp only [AllocatedNum.lc, ha, hb, ht])).bind fun _ _ _ => SameLayout.pure ⟨hu, hv⟩

theorem double_auxOnly (p : EdwardsPoint) : AuxOnly (double B p) :=
  (AllocatedNum.auxOnly_alloc _).bind fun _ => (AuxOnly.enforce _ _ _).bind fun _ =>
    (B.mul_auxOnly _ _).bind fun _ => (AllocatedNum.auxOnly_alloc _).bind fun _ =>
    (AuxOnly.enforce _ _ _).bind fun _ => (AllocatedNum.auxOnly_alloc _).bind fun _ =>
    (AuxOnly.enforce _ _ _).bind fun _ => (AllocatedNum.auxOnly_alloc _).bind fun _ =>
    (AuxOnly.enforce _ _ _).bind fun _ => AuxOnly.pure _

theorem add_auxOnly (p q : EdwardsPoint) : AuxOnly (add B p q) :=
  (AllocatedNum.auxOnly_alloc _).bind fun _ => (AuxOnly.enforce _ _ _).bind fun _ =>
    (B.mul_auxOnly _ _).bind fun _ => (B.mul_auxOnly _ _).bind fun _ =>
    (AllocatedNum.auxOnly_alloc _).bind fun _ => (AuxOnly.enforce _ _ _).bind fun _ =>
    (AllocatedNum.auxOnly_alloc _).bind fun _ => (AuxOnly.enforce _ _ _).bind fun _ =>
    (AllocatedNum.auxOnly_alloc _).bind fun _ => (AuxOnly.enforce _ _ _).bind fun _ =>
    AuxOnly.pure _

/-! ## Multiplication -/

/-- The value of a condition, or the error of a missing one. -/
def conditionValue (condition : Boolean) : Except SynthesisError Bool :=
  match condition.getValue with
  | some c => .ok c
  | none => .error .assignmentMissing

/-- `EdwardsPoint::conditionally_select`: the point, or the neutral point. -/
def conditionallySelect (p : EdwardsPoint) (condition : Boolean) : Synth Scalar EdwardsPoint := do
  let uPrime ← AllocatedNum.alloc (do if (← conditionValue condition) then p.u.get else .ok 0)
  enforce p.u.lc (condition.lc 1) uPrime.lc
  let vPrime ← AllocatedNum.alloc (do if (← conditionValue condition) then p.v.get else .ok 1)
  enforce p.v.lc (condition.lc 1) (vPrime.lc - condition.neg.lc 1)
  return ⟨uPrime, vPrime⟩

/-- The next magnitude of the base: the point itself, then its doubles. -/
def nextBase (self : EdwardsPoint) : Option EdwardsPoint → Synth Scalar EdwardsPoint
  | some prev => double B prev
  | none => pure self

/-- The next sum. -/
def accumulate (thisbase : EdwardsPoint) : Option EdwardsPoint → Synth Scalar EdwardsPoint
  | some prev => add B prev thisbase
  | none => pure thisbase

/-- The loop of `EdwardsPoint::mul`, with the magnitude and the sum so far. -/
def mulLoop (self : EdwardsPoint) : List Boolean → Option EdwardsPoint → Option EdwardsPoint →
    Synth Scalar (Option EdwardsPoint)
  | [], _, result => pure result
  | bit :: bits, curbase, result => do
    let curbase ← nextBase B self curbase
    let thisbase ← conditionallySelect curbase bit
    let result ← accumulate B thisbase result
    mulLoop self bits (some curbase) (some result)

/-- `EdwardsPoint::mul`: scalar multiplication by a little-endian bit string. -/
def mul (p : EdwardsPoint) (bits : List Boolean) : Synth Scalar EdwardsPoint := do
  let result ← mulLoop B p bits none none
  okOr result .assignmentMissing

theorem conditionallySelect_sound (p : EdwardsPoint) (condition : Boolean) :
    Sound (conditionallySelect p condition) fun w r => ∀ P c, p.Reads w P → condition.Reads w c →
      r.Reads w (if c then P else 0) := by
  refine Sound.bind (AllocatedNum.sound_alloc _) fun u => Sound.bind (Sound.enforce _ _ _) fun _ =>
    Sound.bind (AllocatedNum.sound_alloc _) fun v => Sound.bind (Sound.enforce _ _ _) fun _ =>
    Sound.pure fun w hv _ hu _ P c hP hc => ?_
  simp only [AllocatedNum.lc, LinearCombination.eval_sub, LinearCombination.eval_var, hP.u, hP.v,
    hc.eval_lc, hc.neg.eval_lc] at hu hv
  cases c with
  | true => exact ⟨by simpa using hu.symm, by simpa using hv.symm⟩
  | false => exact ⟨by simpa using hu.symm, sub_eq_zero.mp (by simpa using hv.symm)⟩

theorem conditionallySelect_honest (n : Counts) {p : EdwardsPoint} {P : Point} {condition : Boolean}
    {c : Bool} (hp : p.Known P) (hc : condition.Known c) :
    Honest n (conditionallySelect p condition) (fun w => p.Reads w P ∧ condition.Reads w c)
      (fun r => r.Known (if c then P else 0)) fun w r => r.Reads w (if c then P else 0) := by
  have hcond : conditionValue condition = .ok c := by
    rw [conditionValue, show condition.getValue = some c from hc]
  refine Honest.bind (AllocatedNum.honest_alloc (v := (if c then P else 0).u) (by
    rw [hcond]
    cases c
    · rfl
    · exact AllocatedNum.get_of_value hp.u) _) fun u _ hu => ?_
  refine Honest.bind (Honest.enforce fun w h => ?_) fun _ _ _ => ?_
  · simp only [AllocatedNum.lc, LinearCombination.eval_var, h.1.1.u, h.1.2.eval_lc, h.2]
    cases c <;> simp
  refine Honest.bind (AllocatedNum.honest_alloc (v := (if c then P else 0).v) (by
    rw [hcond]
    cases c
    · rfl
    · exact AllocatedNum.get_of_value hp.v) _) fun v _ hv => ?_
  refine Honest.bind (Honest.enforce fun w h => ?_) fun _ _ _ =>
    Honest.pure ⟨hu, hv⟩ fun w h => ⟨h.1.1.1.2, h.1.2⟩
  simp only [AllocatedNum.lc, LinearCombination.eval_sub, LinearCombination.eval_var,
    h.1.1.1.1.v, h.1.1.1.2.eval_lc, h.1.1.1.2.neg.eval_lc, h.2]
  cases c <;> simp

theorem conditionallySelect_layout {p p' : EdwardsPoint} {c c' : Boolean} (h : p.SameWires p')
    (hc : c.SameWire c') :
    SameLayout SameWires (conditionallySelect p c) (conditionallySelect p' c') := by
  refine (AllocatedNum.sameLayout_alloc _ _).bind fun u u' hu => ?_
  refine (SameLayout.enforce (by simp only [AllocatedNum.lc, h.u]) (hc.lc_eq 1)
    (by simp only [AllocatedNum.lc, hu])).bind fun _ _ _ => ?_
  refine (AllocatedNum.sameLayout_alloc _ _).bind fun v v' hv => ?_
  exact (SameLayout.enforce (by simp only [AllocatedNum.lc, h.v]) (hc.lc_eq 1)
    (by simp only [AllocatedNum.lc, hv, hc.neg.lc_eq])).bind fun _ _ _ => SameLayout.pure ⟨hu, hv⟩

theorem conditionallySelect_auxOnly (p : EdwardsPoint) (c : Boolean) :
    AuxOnly (conditionallySelect p c) :=
  (AllocatedNum.auxOnly_alloc _).bind fun _ => (AuxOnly.enforce _ _ _).bind fun _ =>
    (AllocatedNum.auxOnly_alloc _).bind fun _ => (AuxOnly.enforce _ _ _).bind fun _ =>
    AuxOnly.pure _

/-- The lowest bit selects the point, the others multiply its double. -/
theorem ofBits_cons_smul (v : Bool) (vs : List Bool) (P : Point) :
    ofBits (v :: vs) • P = (if v then P else 0) + ofBits vs • (P + P) := by
  rw [ofBits_cons, add_smul, ← two_nsmul, ← mul_smul, mul_comm (ofBits vs)]
  cases v <;> simp

/-- **Double-and-add**: with magnitude `C` and sum `R`, the remaining bits add their number times
`2 C`. -/
theorem mulLoop_sound (self : EdwardsPoint) : ∀ (bits : List Boolean) (cur res : EdwardsPoint),
    Sound (mulLoop B self bits (some cur) (some res)) fun w r => ∀ C R vs, cur.Reads w C →
      res.Reads w R → ReadsAll w bits vs →
      ∃ q, r = some q ∧ q.Reads w (R + ofBits vs • (C + C))
  | [], cur, res => Sound.pure fun w C R vs _ hR hvs => by
    rw [List.forall₂_nil_left_iff.mp hvs, ofBits_nil, zero_smul, add_zero]
    exact ⟨res, rfl, hR⟩
  | bit :: bits, cur, res => by
    refine Sound.bind (double_sound B cur) fun cur' => Sound.bind (conditionallySelect_sound cur' bit)
      fun this => Sound.bind (add_sound B res this) fun res' => (mulLoop_sound self bits cur' res').mono
      fun w r ih hadd hsel hdbl C R vs hC hR hvs => ?_
    obtain ⟨v, vs', hv, hvs', rfl⟩ := List.forall₂_cons_left_iff.mp hvs
    have hC' := hdbl C hC
    obtain ⟨q, rfl, hq⟩ := ih _ _ vs' hC' (hadd _ _ hR (hsel _ _ hC' hv)) hvs'
    exact ⟨q, rfl, by rwa [ofBits_cons_smul, ← add_assoc]⟩

/-- The first bit selects the base. -/
private theorem mulLoop_start (p : EdwardsPoint) (bit : Boolean) (bits : List Boolean) :
    mulLoop B p (bit :: bits) none none = (do
      let this ← conditionallySelect p bit
      mulLoop B p bits (some p) (some this)) := by
  simp [mulLoop, nextBase, accumulate]

theorem mul_sound (p : EdwardsPoint) (bits : List Boolean) :
    Sound (mul B p bits) fun w r => ∀ P vs, p.Reads w P → ReadsAll w bits vs →
      r.Reads w (ofBits vs • P) := by
  cases bits with
  | nil => exact Sound.throw
  | cons bit bits =>
    unfold mul
    rw [mulLoop_start, bind_assoc]
    refine Sound.bind (conditionallySelect_sound p bit) fun this =>
      Sound.bind (mulLoop_sound B p bits p this) fun r => Sound.okOr.mono
      fun w q hr hl hsel P vs hP hvs => ?_
    obtain ⟨v, vs', hv, hvs', rfl⟩ := List.forall₂_cons_left_iff.mp hvs
    obtain ⟨q', hq', hq⟩ := hl _ _ vs' hP (hsel _ _ hP hv) hvs'
    obtain rfl : q' = q := Option.some.inj (hq'.symm.trans hr)
    rwa [ofBits_cons_smul]

theorem mulLoop_honest (self : EdwardsPoint) : ∀ (bits : List Boolean) (cur res : EdwardsPoint)
    (n : Counts) {C R : Point} {vs : List Bool}, cur.Known C → res.Known R → KnownAll bits vs →
    Honest n (mulLoop B self bits (some cur) (some res))
      (fun w => cur.Reads w C ∧ res.Reads w R ∧ ReadsAll w bits vs)
      (fun r => ∃ q, r = some q ∧ q.Known (R + ofBits vs • (C + C))) fun _ _ => True
  | [], cur, res, n, C, R, vs, _, hR, hvs => by
    rw [List.forall₂_nil_left_iff.mp hvs, ofBits_nil, zero_smul, add_zero]
    exact Honest.pure ⟨res, rfl, hR⟩ fun _ _ => trivial
  | bit :: bits, cur, res, n, C, R, vs, hC, hR, hvs => by
    obtain ⟨v, vs', hv, hvs', rfl⟩ := List.forall₂_cons_left_iff.mp hvs
    refine Honest.bind ((double_honest B n hC).of_pre fun w h => h.1) fun cur' _ hC' => ?_
    refine Honest.bind ((conditionallySelect_honest _ hC' hv).of_pre fun w h =>
      ⟨h.2, (List.forall₂_cons.mp h.1.2.2).1⟩) fun this _ hthis => ?_
    refine Honest.bind ((add_honest B _ hR hthis).of_pre fun w h => ⟨h.1.1.2.1, h.2⟩)
      fun res' _ hres' => ?_
    refine (mulLoop_honest self bits cur' res' _ hC' hres' hvs').mono
      (fun w h => ⟨h.1.1.2, h.2, (List.forall₂_cons.mp h.1.1.1.2.2).2⟩) (fun r hr => ?_)
      fun _ _ _ _ => id
    obtain ⟨q, rfl, hq⟩ := hr
    exact ⟨q, rfl, by rwa [ofBits_cons_smul, ← add_assoc]⟩

theorem mul_honest (n : Counts) {p : EdwardsPoint} {P : Point} {bits : List Boolean}
    {vs : List Bool} (hp : p.Known P) (hvs : KnownAll bits vs) (hne : bits ≠ []) :
    Honest n (mul B p bits) (fun w => p.Reads w P ∧ ReadsAll w bits vs)
      (fun r => r.Known (ofBits vs • P)) fun w r => r.Reads w (ofBits vs • P) := by
  refine Honest.of_sound (T := fun _ _ => True) ?_ (mul_sound B p bits)
    fun w r h hs => hs P vs h.1 h.2
  cases bits with
  | nil => exact absurd rfl hne
  | cons bit bits =>
    obtain ⟨v, vs', hv, hvs', rfl⟩ := List.forall₂_cons_left_iff.mp hvs
    unfold mul
    rw [mulLoop_start, bind_assoc]
    refine Honest.bind ((conditionallySelect_honest n hp hv).of_pre fun w h =>
      ⟨h.1, (List.forall₂_cons.mp h.2).1⟩) fun this _ hthis => ?_
    refine Honest.bind ((mulLoop_honest B p bits p this _ hp hthis hvs').of_pre fun w h =>
      ⟨h.1.1, h.2, (List.forall₂_cons.mp h.1.2).2⟩) fun r _ hr => ?_
    obtain ⟨q, rfl, hq⟩ := hr
    refine (Honest.okOr rfl _).mono (fun _ h => h) (fun r hr => ?_) fun _ _ _ _ => id
    rw [hr]
    rwa [ofBits_cons_smul]

theorem mulLoop_layout {self self' : EdwardsPoint} (hself : self.SameWires self') :
    ∀ {bits bits' : List Boolean} {cur cur' res res' : Option EdwardsPoint},
    ProviiCrypto.SameWires bits bits' → Option.Rel SameWires cur cur' →
    Option.Rel SameWires res res' →
    SameLayout (Option.Rel SameWires) (mulLoop B self bits cur res) (mulLoop B self' bits' cur' res')
  | [], _, _, _, _, _, hb, _, hres => by
    rw [List.forall₂_nil_left_iff.mp hb]
    exact SameLayout.pure hres
  | b :: bits, _, cur, cur', res, res', hb, hcur, hres => by
    obtain ⟨b', bits', hb', hbits, rfl⟩ := List.forall₂_cons_left_iff.mp hb
    refine SameLayout.bind (R := SameWires) ?_ fun c c' hc =>
      (conditionallySelect_layout hc hb').bind fun t t' ht =>
      SameLayout.bind (R := SameWires) ?_ fun r r' hr =>
      mulLoop_layout hself hbits (.some hc) (.some hr)
    · cases hcur with
      | none => exact SameLayout.pure hself
      | some h => exact double_layout B h
    · cases hres with
      | none => exact SameLayout.pure ht
      | some h => exact add_layout B h ht

theorem mul_layout {p p' : EdwardsPoint} {bits bits' : List Boolean} (hp : p.SameWires p')
    (hb : ProviiCrypto.SameWires bits bits') :
    SameLayout SameWires (mul B p bits) (mul B p' bits') :=
  (mulLoop_layout B hp hb .none .none).bind fun _ _ hr => SameLayout.okOr fun a a' h h' => by
    subst h h'
    cases hr with
    | some h => exact h

theorem mulLoop_auxOnly (self : EdwardsPoint) : ∀ (bits : List Boolean)
    (cur res : Option EdwardsPoint), AuxOnly (mulLoop B self bits cur res)
  | [], _, _ => AuxOnly.pure _
  | b :: bits, cur, res => by
    refine AuxOnly.bind ?_ fun _ => (conditionallySelect_auxOnly _ _).bind fun _ =>
      AuxOnly.bind ?_ fun _ => mulLoop_auxOnly self bits _ _
    · cases cur with
      | none => exact AuxOnly.pure _
      | some _ => exact double_auxOnly B _
    · cases res with
      | none => exact AuxOnly.pure _
      | some _ => exact add_auxOnly B _ _

theorem mul_auxOnly (p : EdwardsPoint) (bits : List Boolean) : AuxOnly (mul B p bits) :=
  (mulLoop_auxOnly B p bits none none).bind fun _ => AuxOnly.okOr _ _

/-! ## Order and encoding -/

/-- `EdwardsPoint::assert_not_small_order`: `u ≠ 0` after three doublings. -/
def assertNotSmallOrder (p : EdwardsPoint) : Synth Scalar Unit := do
  let tmp ← double B p
  let tmp ← double B tmp
  let tmp ← double B tmp
  B.assertNonzero tmp.u

/-- `EdwardsPoint::repr`: the bits of `v`, then the lowest bit of `u`. -/
def repr (p : EdwardsPoint) : Synth Scalar (List Boolean) := do
  let u ← B.toBitsLeStrict p.u
  let v ← B.toBitsLeStrict p.v
  match u.head? with
  | some sign => return v ++ [sign]
  | none => Synth.panic

private theorem eight_nsmul (P : Point) : P + P + (P + P) + (P + P + (P + P)) = 8 • P := by
  rw [← two_nsmul, ← two_nsmul, ← two_nsmul, ← mul_smul, ← mul_smul]
  norm_num

theorem assertNotSmallOrder_sound (p : EdwardsPoint) :
    Sound (assertNotSmallOrder B p) fun w _ => ∀ P, p.Reads w P → (8 • P).u ≠ 0 :=
  Sound.bind (double_sound B p) fun _ => Sound.bind (double_sound B _) fun _ =>
    Sound.bind (double_sound B _) fun _ => (B.assertNonzero_sound _).mono
      fun w _ h h₃ h₂ h₁ P hP => by
        rw [← eight_nsmul, ← (h₃ _ (h₂ _ (h₁ _ hP))).u]
        exact h

theorem assertNotSmallOrder_honest (n : Counts) {p : EdwardsPoint} {P : Point} (hp : p.Known P)
    (h : (8 • P).u ≠ 0) : Honest n (assertNotSmallOrder B p) (fun w => p.Reads w P)
      (fun _ => True) fun _ _ => True := by
  rw [← eight_nsmul] at h
  refine (double_honest B n hp).bind fun _ _ h₁ => ?_
  refine Honest.bind ((double_honest B _ h₁).of_pre fun _ h => h.2) fun _ _ h₂ => ?_
  refine Honest.bind ((double_honest B _ h₂).of_pre fun _ h => h.2) fun _ _ h₃ => ?_
  exact (B.assertNonzero_honest _ _ _ h₃.u h).of_pre fun _ h => h.2.u

theorem assertNotSmallOrder_layout {p p' : EdwardsPoint} (h : p.SameWires p') :
    SameLayout (fun _ _ => True) (assertNotSmallOrder B p) (assertNotSmallOrder B p') :=
  (double_layout B h).bind fun _ _ h => (double_layout B h).bind fun _ _ h =>
    (double_layout B h).bind fun _ _ h => B.assertNonzero_layout h.u

theorem assertNotSmallOrder_auxOnly (p : EdwardsPoint) : AuxOnly (assertNotSmallOrder B p) :=
  (double_auxOnly B _).bind fun _ => (double_auxOnly B _).bind fun _ =>
    (double_auxOnly B _).bind fun _ => B.assertNonzero_auxOnly _

/-- The wire of a coordinate's sign reads as the coordinate's lowest bit. -/
private theorem head_rel {R : Boolean → Bool → Prop} {bs : List Boolean} {n : ℕ}
    (h : List.Forall₂ R bs (toBits 255 n)) : ∃ b, bs.head? = some b ∧ R b (n.testBit 0) := by
  rw [show (255 : ℕ) = 254 + 1 from rfl, toBits_succ] at h
  obtain ⟨b, _, hb, -, rfl⟩ := List.forall₂_cons_right_iff.mp h
  exact ⟨b, rfl, hb⟩

theorem repr_sound (p : EdwardsPoint) :
    Sound (repr B p) fun w bs => ∀ P, p.Reads w P → ReadsAll w bs P.reprBits := by
  refine Sound.bind (B.toBitsLeStrict_sound _) fun u => Sound.bind (B.toBitsLeStrict_sound _)
    fun v => ?_
  split
  · rename_i sign hsign
    refine Sound.pure fun w hv hu P hP => ?_
    rw [hP.u] at hu
    rw [hP.v] at hv
    obtain ⟨b, hb, hbit⟩ := head_rel hu
    obtain rfl : b = sign := Option.some.inj (hb.symm.trans hsign)
    exact hv.append (List.Forall₂.cons hbit List.Forall₂.nil)
  · exact Sound.panic

theorem repr_honest (n : Counts) {p : EdwardsPoint} {P : Point} (hp : p.Known P) :
    Honest n (repr B p) (fun w => p.Reads w P) (fun bs => KnownAll bs P.reprBits)
      fun w bs => ReadsAll w bs P.reprBits := by
  refine Honest.of_sound (T := fun _ _ => True) ?_ (repr_sound B p) fun w bs h hs => hs P h
  refine Honest.bind ((B.toBitsLeStrict_honest n _ _ hp.u).of_pre fun w h => h.u) fun u _ hu => ?_
  refine Honest.bind ((B.toBitsLeStrict_honest _ _ _ hp.v).of_pre fun w h => h.1.v) fun v _ hv => ?_
  obtain ⟨b, hb, hbit⟩ := head_rel hu
  rw [hb]
  exact Honest.pure (hv.append (List.Forall₂.cons hbit List.Forall₂.nil)) fun _ _ => trivial

theorem repr_layout {p p' : EdwardsPoint} (h : p.SameWires p') :
    SameLayout ProviiCrypto.SameWires (repr B p) (repr B p') := by
  refine (B.toBitsLeStrict_layout h.u).bind fun u u' hu => (B.toBitsLeStrict_layout h.v).bind
    fun v v' hv => ?_
  cases hu with
  | nil => exact SameLayout.panic_left
  | cons hb _ => exact SameLayout.pure (hv.append (List.Forall₂.cons hb List.Forall₂.nil))

theorem repr_auxOnly (p : EdwardsPoint) : AuxOnly (repr B p) := by
  refine (B.toBitsLeStrict_auxOnly _).bind fun _ => (B.toBitsLeStrict_auxOnly _).bind fun _ => ?_
  split
  · exact AuxOnly.pure _
  · exact AuxOnly.panic

end EdwardsPoint

end ProviiCrypto
