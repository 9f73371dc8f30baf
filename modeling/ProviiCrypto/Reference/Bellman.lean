import Mathlib.Tactic.LinearCombination
import ProviiCrypto.Bellman.Determined

/-!
# Gadgets that meet the laws

`bellman H` has the laws of `Bellman H` for any hash function. The small gadgets emit
the constraints of the crate. Two rest on a universal gadget instead, `select`, which builds any
function of bits as a tree of multiplexers: the canonicity of `to_bits_le_strict`, and Blake2s.
-/

namespace ProviiCrypto.Reference

open R1CS R1CS.Synth Number

/-! ## Bits -/

/-- `AllocatedBit::alloc`. -/
def allocBit (value : Option Bool) : Synth Scalar AllocatedBit := do
  let r ← alloc (match value with
    | some b => .ok (bitValue b)
    | none => .error .assignmentMissing)
  enforce (.var .one - .var r.1) (.var r.1) .zero
  return ⟨r.1, value⟩

theorem allocBit_value (v : Option Bool) (md : Mode) (n : Counts) (b : AllocatedBit)
    (ops : List (Op Scalar)) (h : allocBit v md n = .ok (b, ops)) : b.value = v := by
  obtain ⟨r, _, _, -, h, -⟩ := bind_eq_ok.mp h
  obtain ⟨_, _, _, -, h, -⟩ := bind_eq_ok.mp h
  obtain ⟨rfl, -⟩ := pure_eq_ok.mp h
  rfl

theorem allocBit_sound (v : Option Bool) :
    Sound (allocBit v) fun w b => ∃ x, w b.var = bitValue x := by
  refine (Sound.alloc _).bind fun r => (Sound.enforce _ _ _).bind fun _ => Sound.pure fun w h _ => ?_
  simp only [LinearCombination.eval_sub, LinearCombination.eval_var, Assignment.apply_one,
    LinearCombination.eval_zero, mul_eq_zero] at h
  rcases h with h | h
  · exact ⟨true, (sub_eq_zero.mp h).symm⟩
  · exact ⟨false, h⟩

theorem allocBit_honest (n : Counts) (x : Bool) (pre : Assignment Scalar → Prop) :
    Honest n (allocBit (some x)) pre (fun b => b.value = some x) fun w b => w b.var = bitValue x := by
  refine (Honest.alloc rfl pre).bind fun r n₁ _ => Honest.enforce_bind (fun w hw => ?_) fun _ =>
    Honest.pure rfl fun w hw => hw.2
  simp only [LinearCombination.eval_sub, LinearCombination.eval_var, Assignment.apply_one,
    LinearCombination.eval_zero, hw.2]
  cases x <;> simp

theorem allocBit_layout (v v' : Option Bool) :
    SameLayout (fun b b' => b.var = b'.var) (allocBit v) (allocBit v') :=
  (SameLayout.alloc _ _).bind fun _ _ h =>
    (SameLayout.enforce (by rw [h]) (by rw [h]) rfl).bind fun _ _ _ => SameLayout.pure h

theorem allocBit_auxOnly (v : Option Bool) : AuxOnly (allocBit v) :=
  (AuxOnly.alloc _).bind fun _ => (AuxOnly.enforce _ _ _).bind fun _ => AuxOnly.pure _

theorem allocBit_setsUp (v : Option Bool) : SetsUp (allocBit v) fun _ => True :=
  (SetsUp.alloc _).bind fun _ _ => (SetsUp.enforce _ _ _).bind fun _ _ => SetsUp.pure trivial

/-- The conjunction of the values known, as a field element. -/
def andValue (a b : Boolean) : Except SynthesisError Bool :=
  match a.getValue, b.getValue with
  | some x, some y => .ok (x && y)
  | _, _ => .error .assignmentMissing

/-- `AllocatedBit::and`, `and_not` and `nor`: the product of the operands' combinations. -/
def andWires (a b : Boolean) : Synth Scalar Boolean := do
  let r ← alloc ((andValue a b).map bitValue)
  enforce (a.lc 1) (b.lc 1) (.var r.1)
  return .is ⟨r.1, r.2.map (· == 1)⟩

/-- `Boolean::and`. -/
def and : Boolean → Boolean → Synth Scalar Boolean
  | .constant false, _ => pure (.constant false)
  | _, .constant false => pure (.constant false)
  | .constant true, b => pure b
  | a, .constant true => pure a
  | .not a, .is b => andWires (.is b) (.not a)
  | a, b => andWires a b

theorem andWires_sound (a b : Boolean) : Sound (andWires a b) fun w c =>
    ∀ x y, a.Reads w x → b.Reads w y → c.Reads w (x && y) := by
  refine (Sound.alloc _).bind fun r => (Sound.enforce _ _ _).bind fun _ => Sound.pure ?_
  intro w h _ x y ha hb
  rw [ha, hb, LinearCombination.eval_var] at h
  rw [Boolean.reads_is, ← h, bitValue_and]

theorem andWires_honest (n : Counts) {a b : Boolean} {x y : Bool} (ha : a.Known x) (hb : b.Known y) :
    Honest n (andWires a b) (fun w => a.Reads w x ∧ b.Reads w y) (fun c => c.Known (x && y))
      fun w c => c.Reads w (x && y) := by
  have hval : (andValue a b).map bitValue = .ok (bitValue (x && y) : Scalar) := by
    rw [andValue, (ha : _ = _), (hb : _ = _)]
    rfl
  refine (Honest.alloc hval _).bind fun r n₁ hr => Honest.enforce_bind
    (fun w hw => ?_) fun _ => Honest.pure ?_ fun w hw => Boolean.reads_is.mpr hw.2
  · rw [hw.1.1, hw.1.2, LinearCombination.eval_var, hw.2, bitValue_and]
  · show Option.map (· == 1) r.2 = some (x && y)
    rw [hr]
    cases x <;> cases y <;> rfl

theorem andWires_layout {a a' b b' : Boolean} (ha : a.SameWire a') (hb : b.SameWire b') :
    SameLayout Boolean.SameWire (andWires a b) (andWires a' b') :=
  (SameLayout.alloc _ _).bind fun _ _ h =>
    (SameLayout.enforce (ha.lc_eq 1) (hb.lc_eq 1) (by rw [h])).bind fun _ _ _ => SameLayout.pure h

theorem andWires_auxOnly (a b : Boolean) : AuxOnly (andWires a b) :=
  (AuxOnly.alloc _).bind fun _ => (AuxOnly.enforce _ _ _).bind fun _ => AuxOnly.pure _

theorem andWires_setsUp (a b : Boolean) : SetsUp (andWires a b) fun _ => True :=
  (SetsUp.alloc _).bind fun _ _ => (SetsUp.enforce _ _ _).bind fun _ _ => SetsUp.pure trivial

theorem and_false_left (b : Boolean) : and (.constant false) b = pure (.constant false) := rfl

theorem and_true_left (b : Boolean) : and (.constant true) b = pure b := by
  cases b with
  | constant d => cases d <;> rfl
  | is _ => rfl
  | not _ => rfl

theorem and_false_right (a : Boolean) : and a (.constant false) = pure (.constant false) := by
  cases a with
  | constant c => cases c <;> rfl
  | is _ => rfl
  | not _ => rfl

theorem and_true_right (a : Boolean) : and a (.constant true) = pure a := by
  cases a with
  | constant c => cases c <;> rfl
  | is _ => rfl
  | not _ => rfl

theorem and_constant_left_sound (c : Bool) (b : Boolean) :
    Sound (and (.constant c) b) fun w r =>
      ∀ x y, (Boolean.constant c).Reads w x → b.Reads w y → r.Reads w (x && y) := by
  cases c with
  | false =>
    rw [and_false_left]
    refine Sound.pure fun w x y ha _ => ?_
    rw [← (Boolean.reads_constant false).mp ha]
    exact (Boolean.reads_constant _).mpr rfl
  | true =>
    rw [and_true_left]
    refine Sound.pure fun w x y ha hb => ?_
    rwa [← (Boolean.reads_constant true).mp ha]

theorem and_constant_right_sound (a : Boolean) (c : Bool) :
    Sound (and a (.constant c)) fun w r =>
      ∀ x y, a.Reads w x → (Boolean.constant c).Reads w y → r.Reads w (x && y) := by
  cases c with
  | false =>
    rw [and_false_right]
    refine Sound.pure fun w x y _ hb => ?_
    rw [← (Boolean.reads_constant false).mp hb, Bool.and_false]
    exact (Boolean.reads_constant _).mpr rfl
  | true =>
    rw [and_true_right]
    refine Sound.pure fun w x y ha hb => ?_
    rwa [← (Boolean.reads_constant true).mp hb, Bool.and_true]

theorem andWires_swap_sound (a b : Boolean) : Sound (andWires b a) fun w c =>
    ∀ x y, a.Reads w x → b.Reads w y → c.Reads w (x && y) := by
  refine (andWires_sound b a).mono fun w r hr x y ha hb => ?_
  rw [Bool.and_comm]
  exact hr y x hb ha

theorem and_sound (a b : Boolean) : Sound (and a b) fun w c =>
    ∀ x y, a.Reads w x → b.Reads w y → c.Reads w (x && y) := by
  cases a with
  | constant c => exact and_constant_left_sound c b
  | is a =>
    cases b with
    | constant d => exact and_constant_right_sound _ d
    | is b => exact andWires_sound _ _
    | not b => exact andWires_sound _ _
  | not a =>
    cases b with
    | constant d => exact and_constant_right_sound _ d
    | is b => exact andWires_swap_sound _ _
    | not b => exact andWires_sound _ _

/-- A run of `and` on operands that are known. -/
theorem and_runs (n : Counts) (a b : Boolean) (x y : Bool) (ha : a.Known x) (hb : b.Known y) :
    Honest n (and a b) (fun w => a.Reads w x ∧ b.Reads w y) (fun c => c.Known (x && y))
      fun _ _ => True := by
  have hwires : Honest n (andWires a b) (fun w => a.Reads w x ∧ b.Reads w y)
      (fun c => c.Known (x && y)) fun _ _ => True :=
    (andWires_honest n ha hb).mono (fun _ => id) (fun _ => id) fun _ _ _ _ _ => trivial
  have hswap : Honest n (andWires b a) (fun w => a.Reads w x ∧ b.Reads w y)
      (fun c => c.Known (x && y)) fun _ _ => True :=
    (andWires_honest n hb ha).mono (fun _ h => ⟨h.2, h.1⟩) (fun c hc => by rwa [Bool.and_comm])
      fun _ _ _ _ _ => trivial
  have hright : ∀ d, b = .constant d → Honest n (and a b)
      (fun w => a.Reads w x ∧ b.Reads w y) (fun c => c.Known (x && y)) fun _ _ => True := by
    rintro d rfl
    obtain rfl := (Boolean.known_constant _ _).mp hb
    cases d with
    | false =>
      rw [and_false_right, Bool.and_false]
      exact Honest.pure ((Boolean.known_constant _ _).mpr rfl) fun _ _ => trivial
    | true =>
      rw [and_true_right, Bool.and_true]
      exact Honest.pure ha fun _ _ => trivial
  cases a with
  | constant c =>
    obtain rfl := (Boolean.known_constant _ _).mp ha
    cases c with
    | false =>
      rw [and_false_left]
      exact Honest.pure ((Boolean.known_constant _ _).mpr rfl) fun _ _ => trivial
    | true =>
      rw [and_true_left]
      exact Honest.pure hb fun _ _ => trivial
  | is a =>
    cases b with
    | constant d => exact hright d rfl
    | is b => exact hwires
    | not b => exact hwires
  | not a =>
    cases b with
    | constant d => exact hright d rfl
    | is b => exact hswap
    | not b => exact hwires

theorem and_honest (n : Counts) (a b : Boolean) (x y : Bool) (ha : a.Known x) (hb : b.Known y) :
    Honest n (and a b) (fun w => a.Reads w x ∧ b.Reads w y) (fun c => c.Known (x && y))
      fun w c => c.Reads w (x && y) :=
  (and_runs n a b x y ha hb).of_sound (and_sound a b) fun _ _ hp hc => hc x y hp.1 hp.2

theorem and_layout {a a' b b' : Boolean} (ha : a.SameWire a') (hb : b.SameWire b') :
    SameLayout Boolean.SameWire (and a b) (and a' b') := by
  have hleft : ∀ c, SameLayout Boolean.SameWire (and (.constant c) b) (and (.constant c) b') :=
    fun c => by
      cases c with
      | false => exact SameLayout.pure rfl
      | true =>
        rw [and_true_left, and_true_left]
        exact SameLayout.pure hb
  have hright : ∀ d, SameLayout Boolean.SameWire (and a (.constant d)) (and a' (.constant d)) :=
    fun d => by
      cases d with
      | false =>
        rw [and_false_right, and_false_right]
        exact SameLayout.pure rfl
      | true =>
        rw [and_true_right, and_true_right]
        exact SameLayout.pure ha
  cases a <;> cases a' <;> cases b <;> cases b' <;>
    first
      | exact ha.elim
      | exact hb.elim
      | exact andWires_layout ha hb
      | exact andWires_layout hb ha
      | exact (ha : _ = _) ▸ hleft _
      | exact (hb : _ = _) ▸ hright _

theorem and_auxOnly (a b : Boolean) : AuxOnly (and a b) := by
  unfold and
  split
  · exact AuxOnly.pure _
  · exact AuxOnly.pure _
  · exact AuxOnly.pure _
  · exact AuxOnly.pure _
  · exact andWires_auxOnly _ _
  · exact andWires_auxOnly _ _

theorem and_setsUp (a b : Boolean) : SetsUp (and a b) fun _ => True := by
  unfold and
  split
  · exact SetsUp.pure trivial
  · exact SetsUp.pure trivial
  · exact SetsUp.pure trivial
  · exact SetsUp.pure trivial
  · exact andWires_setsUp _ _
  · exact andWires_setsUp _ _

/-! ## Functions of bits -/

/-- One of two wires, by a third. -/
def mux (b t e : Boolean) : Synth Scalar Boolean := do
  let x ← and b t
  let y ← and b.neg e
  let z ← and x.neg y.neg
  return z.neg

private theorem mux_value (x y z : Bool) : (!(!(x && y) && !(!x && z))) = if x then y else z := by
  cases x <;> cases y <;> cases z <;> rfl

theorem mux_sound (b t e : Boolean) : Sound (mux b t e) fun w c => ∀ x y z,
    b.Reads w x → t.Reads w y → e.Reads w z → c.Reads w (if x then y else z) :=
  Sound.bind (and_sound b t) fun p => Sound.bind (and_sound b.neg e) fun q =>
    Sound.bind (and_sound p.neg q.neg) fun r => Sound.pure fun w hr hq hp x y z hb ht he => by
      rw [← mux_value]
      exact (hr _ _ (hp x y hb ht).neg (hq _ z hb.neg he).neg).neg

theorem mux_honest (n : Counts) {b t e : Boolean} {x y z : Bool} (hb : b.Known x) (ht : t.Known y)
    (he : e.Known z) : Honest n (mux b t e) (fun w => b.Reads w x ∧ t.Reads w y ∧ e.Reads w z)
      (fun c => c.Known (if x then y else z)) fun w c => c.Reads w (if x then y else z) := by
  rw [← mux_value]
  refine Honest.bind ((and_honest n b t x y hb ht).of_pre fun w hw => ⟨hw.1, hw.2.1⟩)
    fun p n₁ hp => ?_
  refine Honest.bind ((and_honest n₁ b.neg e _ z hb.neg he).of_pre fun w hw =>
    ⟨hw.1.1.neg, hw.1.2.2⟩) fun q n₂ hq => ?_
  refine Honest.bind ((and_honest n₂ p.neg q.neg _ _ hp.neg hq.neg).of_pre fun w hw =>
    ⟨hw.1.2.neg, hw.2.neg⟩) fun r n₃ hr => ?_
  exact Honest.pure hr.neg fun w hw => hw.2.neg

theorem mux_layout {b b' t t' e e' : Boolean} (hb : b.SameWire b') (ht : t.SameWire t')
    (he : e.SameWire e') : SameLayout Boolean.SameWire (mux b t e) (mux b' t' e') :=
  (and_layout hb ht).bind fun _ _ hp => (and_layout hb.neg he).bind fun _ _ hq =>
    (and_layout hp.neg hq.neg).bind fun _ _ hr => SameLayout.pure hr.neg

theorem mux_auxOnly (b t e : Boolean) : AuxOnly (mux b t e) :=
  (and_auxOnly _ _).bind fun _ => (and_auxOnly _ _).bind fun _ => (and_auxOnly _ _).bind fun _ =>
    AuxOnly.pure _

theorem mux_setsUp (b t e : Boolean) : SetsUp (mux b t e) fun _ => True :=
  (and_setsUp _ _).bind fun _ _ => (and_setsUp _ _).bind fun _ _ => (and_setsUp _ _).bind fun _ _ =>
    SetsUp.pure trivial

/-- **Any function of bits**, as a tree of multiplexers over its values. -/
def select (f : List Bool → Bool) : List Boolean → Synth Scalar Boolean
  | [] => return .constant (f [])
  | b :: bs => do
    let t ← select (fun vs => f (true :: vs)) bs
    let e ← select (fun vs => f (false :: vs)) bs
    mux b t e

theorem select_sound : ∀ (f : List Bool → Bool) (bs : List Boolean),
    Sound (select f bs) fun w c => ∀ vs, ReadsAll w bs vs → c.Reads w (f vs)
  | f, [] => Sound.pure fun w vs h => by
    cases h
    exact (Boolean.reads_constant _).mpr rfl
  | f, b :: bs =>
    Sound.bind (select_sound _ bs) fun t => Sound.bind (select_sound _ bs) fun e =>
      (mux_sound b t e).mono fun w c hc he ht vs h => by
        cases h with
        | @cons _ v _ vs hb hbs =>
          have := hc v _ _ hb (ht vs hbs) (he vs hbs)
          cases v <;> exact this

theorem select_honest : ∀ (n : Counts) (f : List Bool → Bool) {bs : List Boolean} {vs : List Bool},
    KnownAll bs vs → Honest n (select f bs) (fun w => ReadsAll w bs vs) (fun c => c.Known (f vs))
      fun w c => c.Reads w (f vs)
  | n, f, _, _, .nil =>
    Honest.pure ((Boolean.known_constant _ _).mpr rfl) fun _ _ => (Boolean.reads_constant _).mpr rfl
  | n, f, _, _, @List.Forall₂.cons _ _ _ b v bs vs hb hbs => by
    have htail : ∀ w : Assignment Scalar, ReadsAll w (b :: bs) (v :: vs) →
        b.Reads w v ∧ ReadsAll w bs vs := by
      intro w h
      cases h with
      | cons hb hbs => exact ⟨hb, hbs⟩
    refine Honest.bind ((select_honest n _ hbs).of_pre fun w hw => (htail w hw).2) fun t n₁ ht => ?_
    refine Honest.bind ((select_honest n₁ _ hbs).of_pre fun w hw => (htail w hw.1).2)
      fun e n₂ he => ?_
    refine (mux_honest n₂ hb ht he).mono (fun w hw => ⟨(htail w hw.1.1).1, hw.1.2, hw.2⟩)
      (fun c hc => ?_) fun w c _ _ hc => ?_
    · cases v <;> exact hc
    · cases v <;> exact hc

theorem select_layout : ∀ (f : List Bool → Bool) {bs bs' : List Boolean}, SameWires bs bs' →
    SameLayout Boolean.SameWire (select f bs) (select f bs')
  | _, _, _, .nil => SameLayout.pure (Boolean.SameWire.refl _)
  | _, _, _, .cons hb hbs =>
    (select_layout _ hbs).bind fun _ _ ht => (select_layout _ hbs).bind fun _ _ he =>
      mux_layout hb ht he

theorem select_auxOnly : ∀ (f : List Bool → Bool) (bs : List Boolean), AuxOnly (select f bs)
  | _, [] => AuxOnly.pure _
  | _, _ :: bs => (select_auxOnly _ bs).bind fun _ => (select_auxOnly _ bs).bind fun _ =>
    mux_auxOnly _ _ _

theorem select_setsUp : ∀ (f : List Bool → Bool) (bs : List Boolean),
    SetsUp (select f bs) fun _ => True
  | _, [] => SetsUp.pure trivial
  | _, _ :: bs => (select_setsUp _ bs).bind fun _ _ => (select_setsUp _ bs).bind fun _ _ =>
    mux_setsUp _ _ _

/-! ## Numbers -/

/-- `AllocatedNum::mul`. -/
def mul (a b : AllocatedNum Scalar) : Synth Scalar (AllocatedNum Scalar) := do
  let c ← AllocatedNum.alloc (do return (← a.get) * (← b.get))
  enforce a.lc b.lc c.lc
  return c

theorem mul_sound (a b : AllocatedNum Scalar) :
    Sound (mul a b) fun w c => w c.var = w a.var * w b.var :=
  (AllocatedNum.sound_alloc _).bind fun c => (Sound.enforce _ _ _).bind fun _ =>
    Sound.pure fun w h _ => by simpa [AllocatedNum.lc] using h.symm

theorem mul_honest (n : Counts) (a b : AllocatedNum Scalar) (x y : Scalar) (ha : a.value = some x)
    (hb : b.value = some y) : Honest n (mul a b) (fun w => w a.var = x ∧ w b.var = y)
      (fun c => c.value = some (x * y)) fun w c => w c.var = x * y := by
  refine (AllocatedNum.honest_alloc (v := x * y) ?_ _).bind fun c n₁ hc =>
    Honest.enforce_bind (fun w hw => ?_) fun _ => Honest.pure hc fun w hw => hw.2
  · rw [AllocatedNum.get_of_value ha, AllocatedNum.get_of_value hb]
    rfl
  · simp only [AllocatedNum.lc, LinearCombination.eval_var, hw.1.1, hw.1.2, hw.2]

theorem mul_layout {a a' b b' : AllocatedNum Scalar} (ha : a.var = a'.var) (hb : b.var = b'.var) :
    SameLayout (fun c c' => c.var = c'.var) (mul a b) (mul a' b') :=
  (AllocatedNum.sameLayout_alloc _ _).bind fun c c' hc =>
    (SameLayout.enforce (by rw [AllocatedNum.lc, ha]; rfl) (by rw [AllocatedNum.lc, hb]; rfl)
      (by rw [AllocatedNum.lc, hc]; rfl)).bind fun _ _ _ => SameLayout.pure hc

theorem mul_auxOnly (a b : AllocatedNum Scalar) : AuxOnly (mul a b) :=
  (AllocatedNum.auxOnly_alloc _).bind fun _ => (AuxOnly.enforce _ _ _).bind fun _ => AuxOnly.pure _

theorem mul_setsUp (a b : AllocatedNum Scalar) : SetsUp (mul a b) fun _ => True :=
  (AllocatedNum.setsUp_alloc _).bind fun _ _ => (SetsUp.enforce _ _ _).bind fun _ _ =>
    SetsUp.pure trivial

/-- `AllocatedNum::square`. -/
def square (a : AllocatedNum Scalar) : Synth Scalar (AllocatedNum Scalar) := mul a a

/-- `AllocatedNum::assert_nonzero`. -/
def assertNonzero (a : AllocatedNum Scalar) : Synth Scalar Unit := do
  let inv ← AllocatedNum.alloc (do divide 1 (← a.get))
  enforce a.lc inv.lc (.var .one)

theorem assertNonzero_sound (a : AllocatedNum Scalar) :
    Sound (assertNonzero a) fun w _ => w a.var ≠ 0 :=
  (AllocatedNum.sound_alloc _).bind fun inv => (Sound.enforce _ _ _).mono fun w _ h _ h0 => by
    simp [AllocatedNum.lc, h0] at h

theorem assertNonzero_honest (n : Counts) (a : AllocatedNum Scalar) (x : Scalar)
    (ha : a.value = some x) (hx : x ≠ 0) :
    Honest n (assertNonzero a) (fun w => w a.var = x) (fun _ => True) fun _ _ => True := by
  refine (AllocatedNum.honest_alloc (v := 1 / x) ?_ _).bind fun inv n₁ _ =>
    Honest.enforce fun w hw => ?_
  · rw [AllocatedNum.get_of_value ha]
    exact divide_of_ne_zero hx
  · simp only [AllocatedNum.lc, LinearCombination.eval_var, hw.1, hw.2, Assignment.apply_one]
    exact mul_one_div_cancel hx

theorem assertNonzero_layout {a a' : AllocatedNum Scalar} (ha : a.var = a'.var) :
    SameLayout (fun _ _ => True) (assertNonzero a) (assertNonzero a') :=
  (AllocatedNum.sameLayout_alloc _ _).bind fun c c' hc =>
    SameLayout.enforce (by rw [AllocatedNum.lc, ha]; rfl) (by rw [AllocatedNum.lc, hc]; rfl) rfl

theorem assertNonzero_auxOnly (a : AllocatedNum Scalar) : AuxOnly (assertNonzero a) :=
  (AllocatedNum.auxOnly_alloc _).bind fun _ => AuxOnly.enforce _ _ _

theorem assertNonzero_setsUp (a : AllocatedNum Scalar) : SetsUp (assertNonzero a) fun _ => True :=
  (AllocatedNum.setsUp_alloc _).bind fun _ _ => SetsUp.enforce _ _ _

/-! ## Packing -/

/-- The combination of bits scaled by `k`, twice `k`, and so on. -/
def packLc (k : Scalar) : List Boolean → LinearCombination Scalar
  | [] => .zero
  | b :: bs => b.lc k + packLc (k + k) bs

/-- The number known of a string of bits. -/
def packValue (bits : List Boolean) : Except SynthesisError Scalar :=
  match bits.mapM Boolean.getValue with
  | some vs => .ok (ofBits vs : ℕ)
  | none => .error .assignmentMissing

theorem eval_packLc {w : Assignment Scalar} {bits : List Boolean} {vs : List Bool}
    (h : ReadsAll w bits vs) : ∀ k, (packLc k bits).eval w = k * (ofBits vs : ℕ) := by
  induction h with
  | nil => simp [packLc]
  | @cons b v bs vs hb _ ih =>
    intro k
    rw [packLc, LinearCombination.eval_add, hb.eval_lc, ih, ofBits_cons, bitValue_eq_natCast]
    push_cast
    ring

theorem packValue_of_known {bits : List Boolean} {vs : List Bool} (h : KnownAll bits vs) :
    packValue bits = .ok ((ofBits vs : ℕ) : Scalar) := by
  have : bits.mapM Boolean.getValue = some vs := by
    induction h with
    | nil => rfl
    | @cons b v bs vs hb _ ih =>
      rw [List.mapM_cons, (hb : _ = _), ih]
      rfl
  rw [packValue, this]

theorem packLc_congr {bits bits' : List Boolean} (h : SameWires bits bits') :
    ∀ k, packLc k bits = packLc k bits' := by
  induction h with
  | nil => exact fun _ => rfl
  | cons hb _ ih => exact fun k => by rw [packLc, packLc, hb.lc_eq, ih]

/-- One round of `multipack::pack_into_inputs`. -/
def packChunk (c : List Boolean) : Synth Scalar Unit := do
  let r ← allocInput (packValue c)
  enforce (packLc 1 c) (.var .one) (.var r.1)

/-- `multipack::pack_into_inputs`. -/
def packIntoInputs (bits : List Boolean) : Synth Scalar Unit :=
  (chunks scalarCapacity bits).forM packChunk

/-- `multipack::compute_multipacking`. -/
def computeMultipacking (bits : List Bool) : List Scalar :=
  (chunks scalarCapacity bits).map fun c => (ofBits c : Scalar)

private theorem forall₂_chunks {α β : Type} {R : α → β → Prop} {k : ℕ} {xs : List α} {ys : List β}
    (h : List.Forall₂ R xs ys) : List.Forall₂ (List.Forall₂ R) (chunks k xs) (chunks k ys) := by
  rw [chunks, chunks, h.length_eq, List.forall₂_map_left_iff, List.forall₂_map_right_iff]
  exact List.forall₂_same.mpr fun i _ => List.forall₂_take _ (List.forall₂_drop _ h)

theorem packChunk_soundInputs (c : List Boolean) : SoundInputs (packChunk c) fun w _ is =>
    ∀ vs, ReadsAll w c vs → is = [((ofBits vs : ℕ) : Scalar)] := by
  refine (SoundInputs.allocInput _).bind fun r =>
    ((Sound.enforce _ _ _).inputs (AuxOnly.enforce _ _ _)).mono ?_
  rintro w _ _ ⟨h, rfl⟩ _ rfl vs hvs
  rw [eval_packLc hvs, LinearCombination.eval_var, LinearCombination.eval_var,
    Assignment.apply_one, one_mul, mul_one] at h
  rw [← h]
  rfl

theorem packIntoInputs_soundInputs (bits : List Boolean) : SoundInputs (packIntoInputs bits)
    fun w _ is => ∀ vs, ReadsAll w bits vs → is = computeMultipacking vs := by
  have key : ∀ cs : List (List Boolean), SoundInputs (cs.forM packChunk) fun w _ is =>
      ∀ vss, List.Forall₂ (ReadsAll w) cs vss → is = vss.map fun c => ((ofBits c : ℕ) : Scalar) := by
    intro cs
    induction cs with
    | nil =>
      refine ((Sound.pure (Q := fun _ _ => True) fun _ => trivial).inputs (AuxOnly.pure _)).mono ?_
      rintro w _ _ ⟨-, rfl⟩ vss hvss
      cases hvss
      rfl
    | cons c cs ih =>
      rw [List.forM_eq_forM, List.forM_cons]
      refine (packChunk_soundInputs c).bind fun _ => ih.mono ?_
      rintro w _ is his is₁ his₁ _ (_ | ⟨hc, hcs⟩)
      rw [his₁ _ hc, his _ hcs]
      rfl
  exact (key _).mono fun w _ is h vs hvs => h _ (forall₂_chunks hvs)

theorem packIntoInputs_exposes (bits : List Boolean) : Exposes (packIntoInputs bits)
    fun _ is => ∀ vs, KnownAll bits vs → is = (computeMultipacking vs).map some := by
  have hchunk : ∀ c, Exposes (packChunk c) fun _ is =>
      ∀ vs, KnownAll c vs → is = [some ((ofBits vs : ℕ) : Scalar)] := by
    intro c
    refine (Exposes.allocInput _).bind fun r => (AuxOnly.enforce _ _ _).exposes.mono ?_
    rintro _ _ rfl is h vs hvs
    rw [h _ (packValue_of_known hvs)]
    rfl
  have key : ∀ cs : List (List Boolean), Exposes (cs.forM packChunk) fun _ is =>
      ∀ vss, List.Forall₂ KnownAll cs vss →
        is = vss.map fun c => some ((ofBits c : ℕ) : Scalar) := by
    intro cs
    induction cs with
    | nil =>
      refine (AuxOnly.pure _).exposes.mono ?_
      rintro _ _ rfl vss hvss
      cases hvss
      rfl
    | cons c cs ih =>
      rw [List.forM_eq_forM, List.forM_cons]
      refine (hchunk c).bind fun _ => ih.mono ?_
      rintro _ is his is₁ his₁ _ (_ | ⟨hc, hcs⟩)
      rw [his₁ _ hc, his _ hcs]
      rfl
  refine (key _).mono fun _ is h vs hvs => ?_
  rw [h _ (forall₂_chunks hvs), computeMultipacking, List.map_map]
  rfl

theorem packIntoInputs_honest (n : Counts) (bits : List Boolean) (vs : List Bool)
    (hk : KnownAll bits vs) : Honest n (packIntoInputs bits) (fun w => ReadsAll w bits vs)
      (fun _ => True) fun _ _ => True := by
  have hchunk : ∀ (c : List Boolean) (cv : List Bool), KnownAll c cv → ∀ n, Honest n (packChunk c)
      (fun w => ReadsAll w c cv) (fun _ => True) fun _ _ => True := by
    intro c cv hc n
    refine (Honest.allocInput (packValue_of_known hc) _).bind fun r n₁ _ =>
      Honest.enforce fun w hw => ?_
    rw [eval_packLc hw.1, LinearCombination.eval_var, LinearCombination.eval_var,
      Assignment.apply_one, hw.2, one_mul, mul_one]
  have key : ∀ {cs : List (List Boolean)} {cvs : List (List Bool)}, List.Forall₂ KnownAll cs cvs →
      ∀ n, Honest n (cs.forM packChunk) (fun w => List.Forall₂ (ReadsAll w) cs cvs)
        (fun _ => True) fun _ _ => True := by
    intro cs cvs h
    induction h with
    | nil => exact fun n => Honest.pure trivial fun _ _ => trivial
    | @cons c cv cs cvs hc _ ih =>
      intro n
      have hsplit : ∀ w : Assignment Scalar, List.Forall₂ (ReadsAll w) (c :: cs) (cv :: cvs) →
          ReadsAll w c cv ∧ List.Forall₂ (ReadsAll w) cs cvs := by
        intro w h
        cases h with
        | cons h₁ h₂ => exact ⟨h₁, h₂⟩
      rw [List.forM_eq_forM, List.forM_cons]
      exact Honest.bind ((hchunk c cv hc n).of_pre fun w hw => (hsplit w hw).1) fun _ n₁ _ =>
        (ih n₁).of_pre fun w hw => (hsplit w hw.1).2
  exact (key (forall₂_chunks hk) n).of_pre fun w hw => forall₂_chunks hw

theorem packIntoInputs_layout {bits bits' : List Boolean} (h : SameWires bits bits') :
    SameLayout (fun _ _ => True) (packIntoInputs bits) (packIntoInputs bits') :=
  SameLayout.forM (P := SameWires) (fun c c' hc => (SameLayout.allocInput _ _).bind fun _ _ hr =>
    SameLayout.enforce (packLc_congr hc 1) rfl (by rw [hr])) (forall₂_chunks h)

theorem packIntoInputs_setsUp (bits : List Boolean) : SetsUp (packIntoInputs bits) fun _ => True :=
  SetsUp.forM (fun _ => (SetsUp.allocInput _).bind fun _ _ => SetsUp.enforce _ _ _) _

/-! ## Canonical bits -/

/-- The bits to allocate for a number. -/
def numBits (value : Option Scalar) : List (Option Bool) :=
  match value with
  | some x => (toBits 255 x.val).map some
  | none => List.replicate 255 none

@[simp] theorem length_numBits (value : Option Scalar) : (numBits value).length = 255 := by
  cases value with
  | none => exact List.length_replicate
  | some x => rw [numBits, List.length_map, length_toBits]

/-- `AllocatedNum::to_bits_le_strict`. -/
def toBitsLeStrict (a : AllocatedNum Scalar) : Synth Scalar (List Boolean) := do
  let bits ← (numBits a.value).mapM fun v => return .is (← allocBit v)
  let canonical ← select (fun vs => decide (ofBits vs < scalarModulus)) bits
  enforce (canonical.lc 1) (.var .one) (.var .one)
  enforce .zero .zero (packLc 1 bits - a.lc)
  return bits

theorem allocIs_honest (n : Counts) (v : Bool) (pre : Assignment Scalar → Prop) :
    Honest n (do return Boolean.is (← allocBit (some v))) pre (fun b => b.Known v)
      fun w b => b.Reads w v :=
  (allocBit_honest n v pre).bind fun _ _ hb => Honest.pure hb fun _ hw => Boolean.reads_is.mpr hw.2

theorem toBitsLeStrict_sound (a : AllocatedNum Scalar) : Sound (toBitsLeStrict a) fun w bs =>
    ReadsAll w bs (toBits 255 (w a.var).val) := by
  have hbits : Sound ((numBits a.value).mapM fun v => do return Boolean.is (← allocBit v))
      fun w bs => ∃ vs : List Bool, vs.length = 255 ∧ ReadsAll w bs vs := by
    refine (Sound.mapM (Q := fun _ w b => ∃ v, b.Reads w v) fun v _ =>
      (allocBit_sound v).bind fun b => Sound.pure fun w h => ?_).mono fun w bs h => ?_
    · obtain ⟨x, hx⟩ := h
      exact ⟨x, Boolean.reads_is.mpr hx⟩
    · rw [← length_numBits a.value]
      generalize numBits a.value = values at h
      induction h with
      | nil => exact ⟨[], rfl, .nil⟩
      | cons hb _ ih =>
        obtain ⟨v, hv⟩ := hb
        obtain ⟨vs, hlen, hvs⟩ := ih
        exact ⟨v :: vs, by rw [List.length_cons, List.length_cons, hlen], .cons hv hvs⟩
  refine hbits.bind fun bits => (select_sound _ bits).bind fun ok =>
    (Sound.enforce _ _ _).bind fun _ => (Sound.enforce _ _ _).bind fun _ => Sound.pure ?_
  rintro w hpack hok hsel ⟨vs, hlen, hvs⟩
  -- the bits spell a number below the modulus
  have hlt : ofBits vs < scalarModulus := by
    rw [hsel vs hvs, LinearCombination.eval_var, Assignment.apply_one, mul_one] at hok
    exact of_decide_eq_true (bitValue_injective (F := Scalar) hok)
  -- and the number is the variable's
  have hval : w a.var = ((ofBits vs : ℕ) : Scalar) := by
    simp only [LinearCombination.eval_zero, zero_mul, LinearCombination.eval_sub, eval_packLc hvs,
      one_mul, AllocatedNum.lc, LinearCombination.eval_var] at hpack
    exact (sub_eq_zero.mp hpack.symm).symm
  rw [hval, ZMod.val_natCast_of_lt hlt, ← hlen, toBits_ofBits]
  exact hvs

theorem toBitsLeStrict_honest (n : Counts) (a : AllocatedNum Scalar) (x : Scalar)
    (ha : a.value = some x) : Honest n (toBitsLeStrict a) (fun w => w a.var = x)
      (fun bs => KnownAll bs (toBits 255 x.val)) fun w bs => ReadsAll w bs (toBits 255 x.val) := by
  have hspell : ofBits (toBits 255 x.val) = x.val :=
    ofBits_toBits_of_lt ((ZMod.val_lt x).trans (by norm_num))
  have hbits : Honest n ((numBits a.value).mapM fun v => do return Boolean.is (← allocBit v))
      (fun w => w a.var = x) (fun bs => KnownAll bs (toBits 255 x.val))
      fun w bs => ReadsAll w bs (toBits 255 x.val) := by
    rw [ha]
    refine (Honest.mapM (R := fun v b => v = some b) (P := fun _ _ _ => True)
      (V := fun v b => b.Known v) (Q := fun w v b => b.Reads w v) (A := fun w => w a.var = x)
      (fun v b hv n => ?_) (?_ : List.Forall₂ _ (numBits (some x)) (toBits 255 x.val)) n).mono
      (fun w hw => ⟨hw, ?_⟩) (fun bs h => ?_) fun w bs _ _ h => ?_
    · subst hv
      exact allocIs_honest n b _
    · rw [numBits, List.forall₂_map_left_iff]
      exact List.forall₂_same.mpr fun _ _ => rfl
    · rw [numBits, List.forall₂_map_left_iff]
      exact List.forall₂_same.mpr fun _ _ => trivial
    · exact h.flip
    · exact h.flip
  refine hbits.bind fun bits n₁ hk => ?_
  refine Honest.bind ((select_honest n₁ _ hk).of_pre fun w hw => hw.2) fun ok n₂ _ => ?_
  refine Honest.enforce_bind (fun w hw => ?_) fun n₃ => Honest.enforce_bind (fun w hw => ?_)
    fun _ => Honest.pure hk fun w hw => hw.1.2
  · rw [hw.2, hspell, decide_eq_true (ZMod.val_lt x)]
    simp
  · rw [LinearCombination.eval_sub, eval_packLc hw.1.2, hspell, AllocatedNum.lc,
      LinearCombination.eval_var, hw.1.1]
    simp

theorem toBitsLeStrict_layout {a a' : AllocatedNum Scalar} (ha : a.var = a'.var) :
    SameLayout SameWires (toBitsLeStrict a) (toBitsLeStrict a') := by
  have hnum : List.Forall₂ (fun _ _ => True) (numBits a.value) (numBits a'.value) :=
    List.forall₂_iff_get.mpr ⟨by simp, fun _ _ _ => trivial⟩
  refine (SameLayout.mapM (R := Boolean.SameWire) (fun v v' _ => (allocBit_layout v v').bind
    fun b b' h => SameLayout.pure (show (Boolean.is b).SameWire (.is b') from h)) hnum).bind
    fun bs bs' hbs =>
    (select_layout _ hbs).bind fun _ _ hok =>
    (SameLayout.enforce (hok.lc_eq 1) rfl rfl).bind fun _ _ _ =>
    (SameLayout.enforce rfl rfl ?_).bind fun _ _ _ => SameLayout.pure hbs
  rw [packLc_congr hbs, AllocatedNum.lc, ha]
  rfl

theorem toBitsLeStrict_auxOnly (a : AllocatedNum Scalar) : AuxOnly (toBitsLeStrict a) :=
  (AuxOnly.mapM (fun v => (allocBit_auxOnly v).bind fun _ => AuxOnly.pure _) _).bind fun _ =>
    (select_auxOnly _ _).bind fun _ => (AuxOnly.enforce _ _ _).bind fun _ =>
    (AuxOnly.enforce _ _ _).bind fun _ => AuxOnly.pure _

theorem toBitsLeStrict_setsUp (a : AllocatedNum Scalar) :
    SetsUp (toBitsLeStrict a) fun bs => bs.length = 255 :=
  (SetsUp.mapM (V := fun _ => True) (fun v => (allocBit_setsUp v).bind fun _ _ => SetsUp.pure trivial)
    _).bind fun _ h => (select_setsUp _ _).bind fun _ _ => (SetsUp.enforce _ _ _).bind fun _ _ =>
    (SetsUp.enforce _ _ _).bind fun _ _ => SetsUp.pure (h.1.trans (length_numBits _))

/-! ## Lookups -/

/-- `lookup::synth` on a table of four: the combination of the constant, the two bits and their
conjunction. -/
def tableLc (a b ab : Boolean) (t₀ t₁ t₂ t₃ : Scalar) : LinearCombination Scalar :=
  .term t₀ .one + a.lc (t₁ - t₀) + b.lc (t₂ - t₀) + ab.lc (t₃ - t₁ - t₂ + t₀)

theorem eval_tableLc {w : Assignment Scalar} {a b ab : Boolean} {x y : Bool} (ha : a.Reads w x)
    (hb : b.Reads w y) (hab : ab.Reads w (x && y)) (t₀ t₁ t₂ t₃ : Scalar) :
    some ((tableLc a b ab t₀ t₁ t₂ t₃).eval w) = [t₀, t₁, t₂, t₃][x.toNat + 2 * y.toNat]? := by
  simp only [tableLc, LinearCombination.eval_add, LinearCombination.eval_term,
    Assignment.apply_one, ha.eval_lc, hb.eval_lc, hab.eval_lc]
  cases x <;> cases y <;> (simp; try ring)

/-- The entry known to be selected. -/
def tableEntry (a b : Boolean) (t : List (Scalar × Scalar)) : Option (Scalar × Scalar) :=
  match a.getValue, b.getValue with
  | some x, some y => t[x.toNat + 2 * y.toNat]?
  | _, _ => none

/-- The second coordinate known, negated or not. -/
def tableY (e : Option (Scalar × Scalar)) (c : Boolean) : Except SynthesisError Scalar :=
  match e, c.getValue with
  | some e, some z => .ok (if z then -e.2 else e.2)
  | _, _ => .error .assignmentMissing

/-- `lookup::lookup3_xy_with_conditional_negation`. -/
def lookup3 : List Boolean → List (Scalar × Scalar) → Synth Scalar (Num Scalar × Num Scalar)
  | [a, b, c], [t₀, t₁, t₂, t₃] => do
    let e := tableEntry a b [t₀, t₁, t₂, t₃]
    let y ← AllocatedNum.alloc (tableY e c)
    let ab ← and a b
    let yLc := tableLc a b ab t₀.2 t₁.2 t₂.2 t₃.2
    enforce (yLc + yLc) (c.lc 1) (yLc - y.lc)
    return (⟨e.map Prod.fst, tableLc a b ab t₀.1 t₁.1 t₂.1 t₃.1⟩, y.toNum)
  | _, _ => panic

theorem lookup3_sound (a b c : Boolean) (t : List (Scalar × Scalar)) (ht : t.length = 4) :
    Sound (lookup3 [a, b, c] t) fun w r => ∀ x y z, a.Reads w x → b.Reads w y → c.Reads w z →
      ∃ e, t[x.toNat + 2 * y.toNat]? = some e ∧ r.1.lc.eval w = e.1 ∧
        r.2.lc.eval w = if z then -e.2 else e.2 := by
  match t, ht with
  | [t₀, t₁, t₂, t₃], _ =>
    refine (AllocatedNum.sound_alloc _).bind fun yn => (and_sound a b).bind fun ab =>
      (Sound.enforce _ _ _).bind fun _ => Sound.pure ?_
    intro w h hab _ x y z ha hb hc
    have hx := eval_tableLc ha hb (hab x y ha hb) t₀.1 t₁.1 t₂.1 t₃.1
    have hy := eval_tableLc ha hb (hab x y ha hb) t₀.2 t₁.2 t₂.2 t₃.2
    obtain ⟨e, he⟩ : ∃ e, [t₀, t₁, t₂, t₃][x.toNat + 2 * y.toNat]? = some e := by
      cases x <;> cases y <;> exact ⟨_, rfl⟩
    have hmap : ∀ f : Scalar × Scalar → Scalar,
        [f t₀, f t₁, f t₂, f t₃][x.toNat + 2 * y.toNat]? = some (f e) := by
      intro f
      rw [show [f t₀, f t₁, f t₂, f t₃] = [t₀, t₁, t₂, t₃].map f from rfl, List.getElem?_map, he]
      rfl
    rw [hmap Prod.fst] at hx
    rw [hmap Prod.snd] at hy
    rw [LinearCombination.eval_add, LinearCombination.eval_sub, Option.some.inj hy, hc,
      AllocatedNum.lc, LinearCombination.eval_var] at h
    refine ⟨e, he, Option.some.inj hx, ?_⟩
    rw [AllocatedNum.toNum, AllocatedNum.lc, LinearCombination.eval_var]
    cases z
    · rw [bitValue_false, mul_zero] at h
      exact (sub_eq_zero.mp h.symm).symm
    · rw [bitValue_true, mul_one] at h
      rw [if_pos rfl]
      linear_combination h

theorem lookup3_honest (n : Counts) (a b c : Boolean) (t : List (Scalar × Scalar)) (x y z : Bool)
    (e : Scalar × Scalar) (ht : t.length = 4) (ha : a.Known x) (hb : b.Known y) (hc : c.Known z)
    (he : t[x.toNat + 2 * y.toNat]? = some e) :
    Honest n (lookup3 [a, b, c] t) (fun w => a.Reads w x ∧ b.Reads w y ∧ c.Reads w z)
      (fun r => r.1.value = some e.1 ∧ r.2.value = some (if z then -e.2 else e.2))
      fun _ _ => True := by
  match t, ht with
  | [t₀, t₁, t₂, t₃], _ =>
    have hentry : tableEntry a b [t₀, t₁, t₂, t₃] = some e := by
      rw [tableEntry, (ha : _ = _), (hb : _ = _)]
      exact he
    have hval : tableY (tableEntry a b [t₀, t₁, t₂, t₃]) c = .ok (if z then -e.2 else e.2) := by
      have hc' : c.getValue = some z := hc
      simp only [hentry, tableY, hc']
    refine (AllocatedNum.honest_alloc hval _).bind fun yn n₁ hyn => ?_
    refine Honest.bind ((and_honest n₁ a b x y ha hb).of_pre fun w hw => ⟨hw.1.1, hw.1.2.1⟩)
      fun ab n₂ _ => ?_
    refine Honest.enforce_bind (fun w hw => ?_) fun _ => Honest.pure ⟨?_, hyn⟩ fun _ _ => trivial
    · obtain ⟨⟨⟨hwa, hwb, hwc⟩, hwy⟩, hwab⟩ := hw
      have hy := eval_tableLc hwa hwb hwab t₀.2 t₁.2 t₂.2 t₃.2
      rw [show [t₀.2, t₁.2, t₂.2, t₃.2] = [t₀, t₁, t₂, t₃].map Prod.snd from rfl,
        List.getElem?_map, he] at hy
      rw [LinearCombination.eval_add, LinearCombination.eval_sub, Option.some.inj hy, hwc,
        AllocatedNum.lc, LinearCombination.eval_var, hwy]
      cases z
      · simp
      · rw [if_pos rfl, bitValue_true]
        ring
    · show (tableEntry a b [t₀, t₁, t₂, t₃]).map Prod.fst = some e.1
      rw [hentry]
      rfl

theorem lookup3_layout {bs bs' : List Boolean} {t : List (Scalar × Scalar)} (h : SameWires bs bs') :
    SameLayout (fun r r' => r.1.lc = r'.1.lc ∧ r.2.lc = r'.2.lc) (lookup3 bs t) (lookup3 bs' t) := by
  match bs, bs', h with
  | [a, b, c], [a', b', c'], .cons ha (.cons hb (.cons hc .nil)) =>
    match t with
    | [t₀, t₁, t₂, t₃] =>
      refine (AllocatedNum.sameLayout_alloc _ _).bind fun y y' hy => (and_layout ha hb).bind
        fun ab ab' hab => ?_
      have hlc : ∀ t₀ t₁ t₂ t₃, tableLc a b ab t₀ t₁ t₂ t₃ = tableLc a' b' ab' t₀ t₁ t₂ t₃ :=
        fun t₀ t₁ t₂ t₃ => by
          rw [tableLc, tableLc, ha.lc_eq, hb.lc_eq, hab.lc_eq]
      have hvar : y.lc = y'.lc := by rw [AllocatedNum.lc, hy]; rfl
      exact (SameLayout.enforce (by rw [hlc]) (hc.lc_eq 1) (by rw [hlc, hvar])).bind
        fun _ _ _ => SameLayout.pure ⟨hlc _ _ _ _, hvar⟩
    | [] => exact SameLayout.panic_left
    | [_] => exact SameLayout.panic_left
    | [_, _] => exact SameLayout.panic_left
    | [_, _, _] => exact SameLayout.panic_left
    | _ :: _ :: _ :: _ :: _ :: _ => exact SameLayout.panic_left
  | [], [], .nil => exact SameLayout.panic_left
  | [_], [_], .cons _ .nil => exact SameLayout.panic_left
  | [_, _], [_, _], .cons _ (.cons _ .nil) => exact SameLayout.panic_left
  | _ :: _ :: _ :: _ :: _, _ :: _ :: _ :: _ :: _, .cons _ (.cons _ (.cons _ (.cons _ _))) =>
    exact SameLayout.panic_left

theorem lookup3_auxOnly (bs : List Boolean) (t : List (Scalar × Scalar)) :
    AuxOnly (lookup3 bs t) := by
  unfold lookup3
  split
  · exact (AllocatedNum.auxOnly_alloc _).bind fun _ => (and_auxOnly _ _).bind fun _ =>
      (AuxOnly.enforce _ _ _).bind fun _ => AuxOnly.pure _
  · exact AuxOnly.panic

theorem lookup3_setsUp (a b c : Boolean) (t : List (Scalar × Scalar)) (ht : t.length = 4) :
    SetsUp (lookup3 [a, b, c] t) fun _ => True := by
  match t, ht with
  | [t₀, t₁, t₂, t₃], _ =>
    exact (AllocatedNum.setsUp_alloc _).bind fun _ _ => (and_setsUp _ _).bind fun _ _ =>
      (SetsUp.enforce _ _ _).bind fun _ _ => SetsUp.pure trivial

/-- The row of one coordinate of `lookup::lookup3_xy`: what the low bit adds to the entry of the
others, times the low bit. -/
def coordRow (a b c bc : Boolean) (t : ℕ → Scalar) (r : AllocatedNum Scalar) : Synth Scalar Unit :=
  enforce (tableLc b c bc (t 1 - t 0) (t 3 - t 2) (t 5 - t 4) (t 7 - t 6)) (a.lc 1)
    (r.lc - tableLc b c bc (t 0) (t 2) (t 4) (t 6))

/-- The row holds exactly where the variable is the entry selected. -/
theorem coordRow_iff {w : Assignment Scalar} {a b c bc : Boolean} {x y z : Bool}
    (ha : a.Reads w x) (hb : b.Reads w y) (hc : c.Reads w z) (hbc : bc.Reads w (y && z))
    (t : ℕ → Scalar) (r : AllocatedNum Scalar) :
    (tableLc b c bc (t 1 - t 0) (t 3 - t 2) (t 5 - t 4) (t 7 - t 6)).eval w * (a.lc 1).eval w =
        (r.lc - tableLc b c bc (t 0) (t 2) (t 4) (t 6)).eval w ↔
      w r.var = t (x.toNat + 2 * y.toNat + 4 * z.toNat) := by
  have hstep := eval_tableLc hb hc hbc (t 1 - t 0) (t 3 - t 2) (t 5 - t 4) (t 7 - t 6)
  have hbase := eval_tableLc hb hc hbc (t 0) (t 2) (t 4) (t 6)
  rw [LinearCombination.eval_sub, AllocatedNum.lc, LinearCombination.eval_var, ha, eq_comm,
    sub_eq_iff_eq_add]
  cases y <;> cases z <;>
    (rw [Option.some.inj hstep, Option.some.inj hbase]
     cases x <;> simp)

theorem coordRow_sound (a b c bc : Boolean) (t : ℕ → Scalar) (r : AllocatedNum Scalar) :
    Sound (coordRow a b c bc t r) fun w _ => ∀ x y z, a.Reads w x → b.Reads w y → c.Reads w z →
      bc.Reads w (y && z) → w r.var = t (x.toNat + 2 * y.toNat + 4 * z.toNat) :=
  (Sound.enforce _ _ _).mono fun _ _ h _ _ _ ha hb hc hbc =>
    (coordRow_iff ha hb hc hbc t r).mp h

theorem coordRow_honest (n : Counts) (a b c bc : Boolean) (t : ℕ → Scalar) (r : AllocatedNum Scalar)
    (x y z : Bool) : Honest n (coordRow a b c bc t r) (fun w => a.Reads w x ∧ b.Reads w y ∧
      c.Reads w z ∧ bc.Reads w (y && z) ∧ w r.var = t (x.toNat + 2 * y.toNat + 4 * z.toNat))
      (fun _ => True) fun _ _ => True :=
  Honest.enforce fun _ h => (coordRow_iff h.1 h.2.1 h.2.2.1 h.2.2.2.1 t r).mpr h.2.2.2.2

/-- The entry that known bits select. -/
def coordValue (bits : List Boolean) (t : ℕ → Scalar) : Except SynthesisError Scalar :=
  match bits.mapM Boolean.getValue with
  | some vs => .ok (t (ofBits vs))
  | none => .error .assignmentMissing

/-- `lookup::lookup3_xy`. -/
def lookup3Xy : List Boolean → List (Scalar × Scalar) →
    Synth Scalar (AllocatedNum Scalar × AllocatedNum Scalar)
  | [a, b, c], t =>
    if t.length = 8 then do
      let x ← AllocatedNum.alloc (coordValue [a, b, c] fun i => (t.getD i 0).1)
      let y ← AllocatedNum.alloc (coordValue [a, b, c] fun i => (t.getD i 0).2)
      let bc ← and b c
      coordRow a b c bc (fun i => (t.getD i 0).1) x
      coordRow a b c bc (fun i => (t.getD i 0).2) y
      return (x, y)
    else panic
  | _, _ => panic

theorem lookup3Xy_eq (a b c : Boolean) {t : List (Scalar × Scalar)} (ht : t.length = 8) :
    lookup3Xy [a, b, c] t = (do
      let x ← AllocatedNum.alloc (coordValue [a, b, c] fun i => (t.getD i 0).1)
      let y ← AllocatedNum.alloc (coordValue [a, b, c] fun i => (t.getD i 0).2)
      let bc ← and b c
      coordRow a b c bc (fun i => (t.getD i 0).1) x
      coordRow a b c bc (fun i => (t.getD i 0).2) y
      return (x, y)) :=
  if_pos ht

theorem lookup3Xy_sound (a b c : Boolean) (t : List (Scalar × Scalar)) (ht : t.length = 8) :
    Sound (lookup3Xy [a, b, c] t) fun w r => ∀ x y z, a.Reads w x → b.Reads w y → c.Reads w z →
      ∃ e, t[x.toNat + 2 * y.toNat + 4 * z.toNat]? = some e ∧ w r.1.var = e.1 ∧ w r.2.var = e.2 := by
  rw [lookup3Xy_eq a b c ht]
  refine (AllocatedNum.sound_alloc _).bind fun u => (AllocatedNum.sound_alloc _).bind fun v =>
    (and_sound b c).bind fun bc => (coordRow_sound a b c bc _ u).bind fun _ =>
    (coordRow_sound a b c bc _ v).bind fun _ => Sound.pure ?_
  intro w hv hu hbc _ _ x y z ha hb hc
  have hlt : x.toNat + 2 * y.toNat + 4 * z.toNat < t.length := by
    have := x.toNat_le
    have := y.toNat_le
    have := z.toNat_le
    omega
  have hentry : t.getD (x.toNat + 2 * y.toNat + 4 * z.toNat) 0 = t[x.toNat + 2 * y.toNat + 4 * z.toNat] :=
    List.getD_eq_getElem _ _ hlt
  refine ⟨_, List.getElem?_eq_getElem hlt, ?_, ?_⟩
  · rw [hu x y z ha hb hc (hbc y z hb hc), hentry]
  · rw [hv x y z ha hb hc (hbc y z hb hc), hentry]

theorem lookup3Xy_honest (n : Counts) (a b c : Boolean) (t : List (Scalar × Scalar)) (x y z : Bool)
    (e : Scalar × Scalar) (ht : t.length = 8) (ha : a.Known x) (hb : b.Known y) (hc : c.Known z)
    (he : t[x.toNat + 2 * y.toNat + 4 * z.toNat]? = some e) :
    Honest n (lookup3Xy [a, b, c] t) (fun w => a.Reads w x ∧ b.Reads w y ∧ c.Reads w z)
      (fun r => r.1.value = some e.1 ∧ r.2.value = some e.2) fun _ _ => True := by
  have hget : t.getD (x.toNat + 2 * y.toNat + 4 * z.toNat) 0 = e := by
    rw [List.getD_eq_getElem?_getD, he, Option.getD_some]
  have hval : ∀ s : ℕ → Scalar, coordValue [a, b, c] s =
      .ok (s (x.toNat + 2 * y.toNat + 4 * z.toNat)) := by
    intro s
    have hbits : [a, b, c].mapM Boolean.getValue = some [x, y, z] := by
      simp [show a.getValue = some x from ha, show b.getValue = some y from hb,
        show c.getValue = some z from hc]
    have hindex : ofBits [x, y, z] = x.toNat + 2 * y.toNat + 4 * z.toNat := by
      rw [ofBits_cons, ofBits_cons, ofBits_cons, ofBits_nil]
      omega
    rw [coordValue, hbits, ← hindex]
  rw [lookup3Xy_eq a b c ht]
  refine (AllocatedNum.honest_alloc (hval _) _).bind fun u n₁ hu => ?_
  refine (AllocatedNum.honest_alloc (hval _) _).bind fun v n₂ hv => ?_
  refine ((and_honest n₂ b c y z hb hc).of_pre fun w hw => hw.1.1.2).bind fun bc n₃ _ => ?_
  refine ((coordRow_honest n₃ a b c bc _ u x y z).of_pre fun w hw => ?_).bind fun _ n₄ _ => ?_
  · obtain ⟨⟨⟨⟨hwa, hwb, hwc⟩, hwu⟩, -⟩, hwbc⟩ := hw
    exact ⟨hwa, hwb, hwc, hwbc, hwu⟩
  refine ((coordRow_honest n₄ a b c bc _ v x y z).of_pre fun w hw => ?_).bind fun _ _ _ =>
    Honest.pure ⟨?_, ?_⟩ fun _ _ => trivial
  · obtain ⟨⟨⟨⟨⟨hwa, hwb, hwc⟩, -⟩, hwv⟩, hwbc⟩, -⟩ := hw
    exact ⟨hwa, hwb, hwc, hwbc, hwv⟩
  · rw [hu, hget]
  · rw [hv, hget]

theorem coordRow_layout {a a' b b' c c' bc bc' : Boolean} {r r' : AllocatedNum Scalar}
    (ha : a.SameWire a') (hb : b.SameWire b') (hc : c.SameWire c') (hbc : bc.SameWire bc')
    (hr : r.var = r'.var) (t : ℕ → Scalar) :
    SameLayout (fun _ _ => True) (coordRow a b c bc t r) (coordRow a' b' c' bc' t r') := by
  have hlc : ∀ t₀ t₁ t₂ t₃, tableLc b c bc t₀ t₁ t₂ t₃ = tableLc b' c' bc' t₀ t₁ t₂ t₃ :=
    fun t₀ t₁ t₂ t₃ => by rw [tableLc, tableLc, hb.lc_eq, hc.lc_eq, hbc.lc_eq]
  exact SameLayout.enforce (hlc _ _ _ _) (ha.lc_eq 1)
    (by rw [hlc, AllocatedNum.lc, AllocatedNum.lc, hr])

theorem lookup3Xy_layout {bs bs' : List Boolean} {t : List (Scalar × Scalar)}
    (h : SameWires bs bs') : SameLayout (fun r r' => r.1.var = r'.1.var ∧ r.2.var = r'.2.var)
      (lookup3Xy bs t) (lookup3Xy bs' t) := by
  match bs, bs', h with
  | [a, b, c], [a', b', c'], .cons ha (.cons hb (.cons hc .nil)) =>
    by_cases ht : t.length = 8
    · rw [lookup3Xy_eq a b c ht, lookup3Xy_eq a' b' c' ht]
      exact (AllocatedNum.sameLayout_alloc _ _).bind fun u u' hu =>
        (AllocatedNum.sameLayout_alloc _ _).bind fun v v' hv => (and_layout hb hc).bind
        fun bc bc' hbc => (coordRow_layout ha hb hc hbc hu _).bind fun _ _ _ =>
        (coordRow_layout ha hb hc hbc hv _).bind fun _ _ _ => SameLayout.pure ⟨hu, hv⟩
    · rw [show lookup3Xy [a, b, c] t = panic from if_neg ht]
      exact SameLayout.panic_left
  | [], [], .nil => exact SameLayout.panic_left
  | [_], [_], .cons _ .nil => exact SameLayout.panic_left
  | [_, _], [_, _], .cons _ (.cons _ .nil) => exact SameLayout.panic_left
  | _ :: _ :: _ :: _ :: _, _ :: _ :: _ :: _ :: _, .cons _ (.cons _ (.cons _ (.cons _ _))) =>
    exact SameLayout.panic_left

/-- The laws of `lookup3_xy` can be met too. -/
def fixedLookup : FixedLookup where
  lookup3Xy := Reference.lookup3Xy
  lookup3Xy_sound := lookup3Xy_sound
  lookup3Xy_honest := lookup3Xy_honest
  lookup3Xy_layout := lookup3Xy_layout

/-! ## Blake2s -/

/-- The digest of a message spelled as bits, as bits. -/
def digestBits (H : Blake2s) (p : Bytes 8) (vs : List Bool) : List Bool :=
  bytesBits (H p (leBytes (vs.length / 8) (ofBits vs))).1

@[simp] theorem length_digestBits (H : Blake2s) (p : Bytes 8) (vs : List Bool) :
    (digestBits H p vs).length = 256 := by
  rw [digestBits, length_bytesBits, (H p _).2]

theorem digestBits_bytesBits (H : Blake2s) (p : Bytes 8) (msg : List UInt8) :
    digestBits H p (bytesBits msg) = bytesBits (H p msg).1 := by
  rw [digestBits, length_bytesBits, Nat.mul_div_cancel_left _ (by norm_num), ofBits_bytesBits,
    leBytes_leNat]

/-- The digest, one function of the message for each bit. -/
def blake2sCircuit (H : Blake2s) (bits : List Boolean) (p : Bytes 8) : Synth Scalar (List Boolean) :=
  (List.range 256).mapM fun i => select (fun vs => (digestBits H p vs).getD i false) bits

private theorem map_getD_range {l : List Bool} (h : l.length = 256) :
    (List.range 256).map (fun i => l.getD i false) = l :=
  List.ext_getElem (by simp [h]) fun i _ hi => by simp [hi]

theorem blake2sCircuit_sound (H : Blake2s) (bits : List Boolean) (p : Bytes 8) :
    Sound (blake2sCircuit H bits p) fun w out =>
      ∀ msg, ReadsAll w bits (bytesBits msg) → ReadsAll w out (bytesBits (H p msg).1) := by
  refine (Sound.mapM (Q := fun i w c => ∀ vs, ReadsAll w bits vs →
    c.Reads w ((digestBits H p vs).getD i false)) fun i _ => select_sound _ bits).mono ?_
  intro w out h msg hmsg
  rw [← digestBits_bytesBits, ← map_getD_range (length_digestBits H p (bytesBits msg))]
  exact List.forall₂_map_right_iff.mpr (h.imp fun _ _ hc => hc _ hmsg).flip

theorem blake2sCircuit_honest (H : Blake2s) (n : Counts) (bits : List Boolean) (p : Bytes 8)
    (msg : List UInt8) (hk : KnownAll bits (bytesBits msg)) :
    Honest n (blake2sCircuit H bits p) (fun w => ReadsAll w bits (bytesBits msg))
      (fun out => KnownAll out (bytesBits (H p msg).1))
      fun w out => ReadsAll w out (bytesBits (H p msg).1) := by
  rw [← digestBits_bytesBits, ← map_getD_range (length_digestBits H p (bytesBits msg))]
  refine (Honest.mapM (R := fun i j => i = j) (P := fun _ _ _ => True)
    (V := fun i c => c.Known ((digestBits H p (bytesBits msg)).getD i false))
    (Q := fun w i c => c.Reads w ((digestBits H p (bytesBits msg)).getD i false))
    (A := fun w => ReadsAll w bits (bytesBits msg)) (fun i j hij n => ?_)
    (List.forall₂_same.mpr fun _ _ => rfl) n).mono
    (fun w hw => ⟨hw, List.forall₂_same.mpr fun _ _ => trivial⟩) (fun out h => ?_)
    fun w out _ _ h => ?_
  · subst hij
    exact (select_honest n _ hk).of_pre fun w hw => hw.1
  · exact List.forall₂_map_right_iff.mpr h.flip
  · exact List.forall₂_map_right_iff.mpr h.flip

theorem blake2sCircuit_layout (H : Blake2s) {bits bits' : List Boolean} (p : Bytes 8)
    (h : SameWires bits bits') : SameLayout SameWires (blake2sCircuit H bits p) (blake2sCircuit H bits' p) :=
  SameLayout.mapM (P := fun i j => i = j) (fun _ _ hij => hij ▸ select_layout _ h)
    (List.forall₂_same.mpr fun _ _ => rfl)

theorem blake2sCircuit_auxOnly (H : Blake2s) (bits : List Boolean) (p : Bytes 8) :
    AuxOnly (blake2sCircuit H bits p) := AuxOnly.mapM (fun _ => select_auxOnly _ _) _

theorem blake2sCircuit_setsUp (H : Blake2s) (bits : List Boolean) (p : Bytes 8) :
    SetsUp (blake2sCircuit H bits p) fun out => out.length = 256 :=
  (SetsUp.mapM (fun _ => select_setsUp _ _) _).mono fun _ h => h.1.trans List.length_range

/-- **The laws can be met**, whatever the hash function. -/
def bellman (H : Blake2s) : Bellman H where
  allocBit := Reference.allocBit
  allocBit_value := allocBit_value
  allocBit_sound := allocBit_sound
  allocBit_honest := allocBit_honest
  allocBit_layout := allocBit_layout
  allocBit_auxOnly := allocBit_auxOnly
  and := Reference.and
  and_sound := and_sound
  and_honest := and_honest
  and_layout := and_layout
  and_auxOnly := and_auxOnly
  mul := Reference.mul
  mul_sound := mul_sound
  mul_honest := mul_honest
  mul_layout := mul_layout
  mul_auxOnly := mul_auxOnly
  square := Reference.square
  square_sound a := (mul_sound a a).mono fun _ _ h => h.trans (sq _).symm
  square_honest n a x ha := by
    rw [sq]
    exact (mul_honest n a a x x ha ha).of_pre fun _ h => ⟨h, h⟩
  square_layout ha := mul_layout ha ha
  square_auxOnly a := mul_auxOnly a a
  assertNonzero := Reference.assertNonzero
  assertNonzero_sound := assertNonzero_sound
  assertNonzero_honest := assertNonzero_honest
  assertNonzero_layout := assertNonzero_layout
  assertNonzero_auxOnly := assertNonzero_auxOnly
  toBitsLeStrict := Reference.toBitsLeStrict
  toBitsLeStrict_sound := toBitsLeStrict_sound
  toBitsLeStrict_honest := toBitsLeStrict_honest
  toBitsLeStrict_layout := toBitsLeStrict_layout
  toBitsLeStrict_auxOnly := toBitsLeStrict_auxOnly
  lookup3 := Reference.lookup3
  lookup3_sound := lookup3_sound
  lookup3_honest := lookup3_honest
  lookup3_layout := lookup3_layout
  lookup3_auxOnly := lookup3_auxOnly
  computeMultipacking := Reference.computeMultipacking
  computeMultipacking_eq _ := rfl
  packIntoInputs := Reference.packIntoInputs
  pack_sound bits md n ops hr w vs hw hvs :=
    packIntoInputs_soundInputs bits md n () ops hr w hw vs hvs
  pack_honest := packIntoInputs_honest
  pack_inputs bits vs n ops hk hr := packIntoInputs_exposes bits n () ops hr vs hk
  pack_layout := packIntoInputs_layout
  blake2s := Reference.blake2sCircuit H
  blake2s_sound := blake2sCircuit_sound H
  blake2s_honest := blake2sCircuit_honest H
  blake2s_layout := blake2sCircuit_layout H
  blake2s_auxOnly := blake2sCircuit_auxOnly H

theorem bellman_setsUp (H : Blake2s) : (bellman H).SetsUp where
  allocBit := allocBit_setsUp
  and := and_setsUp
  mul := mul_setsUp
  square a := mul_setsUp a a
  assertNonzero := assertNonzero_setsUp
  toBitsLeStrict := toBitsLeStrict_setsUp
  lookup3 := lookup3_setsUp
  packIntoInputs := packIntoInputs_setsUp
  blake2s bits p _ := blake2sCircuit_setsUp H bits p

/-! ## Variables determined -/

theorem allocBit_agrees (n : Counts) (x : Bool) (b : AllocatedBit) (ops : List (Op Scalar))
    (h : allocBit (some x) .prove n = .ok (b, ops)) : Valued ops ∧
      ∀ w : Assignment Scalar, w b.var = bitValue x → Agrees w n ops := by
  cases h
  refine ⟨by simp, fun w hw => ⟨?_, trivial⟩⟩
  rintro _ ⟨⟩
  exact hw

theorem andWires_agrees {n : Counts} {a b c : Boolean} {x y : Bool} {ops : List (Op Scalar)}
    (ha : a.Known x) (hb : b.Known y) (h : andWires a b .prove n = .ok (c, ops)) : Valued ops ∧
      ∀ w : Assignment Scalar, a.Reads w x → b.Reads w y → Holds w ops → Agrees w n ops := by
  have hval : (andValue a b).map bitValue = .ok (bitValue (x && y) : Scalar) := by
    rw [andValue, (ha : _ = _), (hb : _ = _)]
    rfl
  rw [andWires, hval] at h
  cases h
  refine ⟨by simp, fun w hwa hwb hw => ⟨?_, trivial⟩⟩
  rintro _ ⟨⟩
  have hmul : (a.lc 1).eval w * (b.lc 1).eval w = (LinearCombination.var (.aux n.aux)).eval w :=
    hw (.enforce _ _ _) (by simp)
  rw [hwa, hwb, LinearCombination.eval_var] at hmul
  rw [bitValue_and, hmul]

theorem and_agrees (n : Counts) (a b : Boolean) (x y : Bool) (c : Boolean) (ops : List (Op Scalar))
    (ha : a.Known x) (hb : b.Known y) (h : and a b .prove n = .ok (c, ops)) : Valued ops ∧
      ∀ w : Assignment Scalar, a.Reads w x → b.Reads w y → Holds w ops → Agrees w n ops := by
  have hpure : ∀ d : Boolean, (pure d : Synth Scalar Boolean) .prove n = .ok (c, ops) →
      Valued ops ∧ ∀ w : Assignment Scalar, a.Reads w x → b.Reads w y → Holds w ops →
        Agrees w n ops := by
    intro d hd
    obtain ⟨-, rfl⟩ := pure_eq_ok.mp hd
    exact ⟨valued_nil, fun _ _ _ _ => trivial⟩
  unfold and at h
  split at h
  · exact hpure _ h
  · exact hpure _ h
  · exact hpure _ h
  · exact hpure _ h
  · obtain ⟨hv, hag⟩ := andWires_agrees hb ha h
    exact ⟨hv, fun w hwa hwb => hag w hwb hwa⟩
  · exact andWires_agrees ha hb h

theorem bellman_determinesBits (H : Blake2s) : (bellman H).DeterminesBits where
  allocBit_agrees := allocBit_agrees
  and_agrees := and_agrees

end ProviiCrypto.Reference
