import ProviiCrypto.Gadgets.SaplingEcc
import ProviiCrypto.R1CS.Determined
import ProviiCrypto.Reference.Bellman
import ProviiCrypto.Reference.Blake2s

/-!
# `EdwardsPoint::mul` is scalar multiplication

What `double`, `add` and `mul` (`gadgets/sapling_ecc.rs`) do on points that a prover chooses freely
on the curve. The module `SaplingEcc` says what satisfied constraints force and what an honest run
computes; here both hold of one run, from wires allocated before it.

* `double_yields`, `add_yields`: from any two points of the curve, equal, opposite, neutral or of
  small order, the constraints can be satisfied and have one output, the sum. Neither denominator
  `1 ± d u₁ u₂ v₁ v₂` vanishes (`Edwards.Point.one_add_cross_ne_zero`).
* `mul_yields`: the same of `mul`, by the number its bits write, however large.
* `mul_exact`: these together, with the prover's own run, which never divides by zero.
-/

namespace ProviiCrypto

open R1CS R1CS.Synth Number

namespace EdwardsPoint

section

variable {H : Blake2s} (B : Bellman H)

/-! ## One output -/

section Yields

variable {n : Counts} {w₀ : Assignment Scalar} {p q : EdwardsPoint} {P Q : Point}

theorem double_yields (hn : 1 ≤ n.inputs) (hp : p.Below n) (hP : p.Reads w₀ P) :
    Yields n w₀ (double B p) fun w r => r.Reads w (P + P) := by
  obtain ⟨p', hsame, hknown⟩ := p.exists_known P
  exact Yields.of_honest (double_sound B p) (fun w r hext h => h P (hP.congr hp hext))
    (double_honest B n hknown) (double_layout B hsame) hn
    fun w hext => hsame.reads (hP.congr hp hext)

theorem add_yields (hn : 1 ≤ n.inputs) (hp : p.Below n) (hq : q.Below n) (hP : p.Reads w₀ P)
    (hQ : q.Reads w₀ Q) : Yields n w₀ (add B p q) fun w r => r.Reads w (P + Q) := by
  obtain ⟨p', hsame, hknown⟩ := p.exists_known P
  obtain ⟨q', hsame', hknown'⟩ := q.exists_known Q
  exact Yields.of_honest (add_sound B p q)
    (fun w r hext h => h P Q (hP.congr hp hext) (hQ.congr hq hext))
    (add_honest B n hknown hknown') (add_layout B hsame hsame') hn
    fun w hext => ⟨hsame.reads (hP.congr hp hext), hsame'.reads (hQ.congr hq hext)⟩

/-- **The bits select one output**, whatever is chosen for the doubles and the sums on the way. -/
theorem mul_yields {bits : List Boolean} {vs : List Bool} (hne : bits ≠ []) (hn : 1 ≤ n.inputs)
    (hp : p.Below n) (hbits : ∀ b ∈ bits, b.Below n) (hP : p.Reads w₀ P)
    (hvs : ReadsAll w₀ bits vs) :
    Yields n w₀ (mul B p bits) fun w r => r.Reads w (ofBits vs • P) := by
  obtain ⟨p', hsame, hknown⟩ := p.exists_known P
  obtain ⟨bits', hsame', hknown'⟩ := hvs.exists_known
  have hne' : bits' ≠ [] := by
    rintro rfl
    exact hne (List.forall₂_nil_right_iff.mp hsame')
  exact Yields.of_honest (mul_sound B p bits)
    (fun w r hext h => h P vs (hP.congr hp hext) (hvs.congr hbits hext))
    (mul_honest B n hknown hknown' hne') (mul_layout B hsame hsame') hn
    fun w hext => ⟨hsame.reads (hP.congr hp hext), hsame'.symm.readsAll (hvs.congr hbits hext)⟩

end Yields

/-- **`mul` is scalar multiplication** of any point of the curve by the number that its bits write,
and `double` and `add` are the group's. -/
theorem mul_exact :
    -- satisfied constraints force the multiple
    (∀ (p : EdwardsPoint) (bits : List Boolean) (md : Mode) (n : Counts) (r : EdwardsPoint)
      (ops : List (Op Scalar)), mul B p bits md n = .ok (r, ops) →
      ∀ (w : Assignment Scalar) (vs : List Bool) (hon : jubjub.OnCurve (w p.u.var) (w p.v.var)),
        ReadsAll w bits vs → Holds w ops →
        r.Reads w (ofBits vs • (⟨w p.u.var, w p.v.var, hon⟩ : Point))) ∧
    -- from any wires, they can be satisfied, and have no other output
    (∀ (p : EdwardsPoint) (bits : List Boolean) (n : Counts) (w₀ : Assignment Scalar) (P : Point)
      (vs : List Bool), bits ≠ [] → 1 ≤ n.inputs → p.Below n → (∀ b ∈ bits, b.Below n) →
      p.Reads w₀ P → ReadsAll w₀ bits vs →
      Yields n w₀ (mul B p bits) fun w r => r.Reads w (ofBits vs • P)) ∧
    (∀ (p q : EdwardsPoint) (n : Counts) (w₀ : Assignment Scalar) (P Q : Point),
      1 ≤ n.inputs → p.Below n → q.Below n → p.Reads w₀ P → q.Reads w₀ Q →
      Yields n w₀ (double B p) (fun w r => r.Reads w (P + P)) ∧
      Yields n w₀ (add B p q) fun w r => r.Reads w (P + Q)) ∧
    -- a prover who knows the values never meets a division by zero
    (∀ (p q : EdwardsPoint) (bits : List Boolean) (n : Counts) (P Q : Point) (vs : List Bool),
      p.Known P → q.Known Q → KnownAll bits vs →
      (∃ r ops, double B p .prove n = .ok (r, ops) ∧ r.Known (P + P)) ∧
      (∃ r ops, add B p q .prove n = .ok (r, ops) ∧ r.Known (P + Q)) ∧
      (bits ≠ [] → ∃ r ops, mul B p bits .prove n = .ok (r, ops) ∧ r.Known (ofBits vs • P))) := by
  refine ⟨?_, ?_, ?_, ?_⟩
  · intro p bits md n r ops hrun w vs hon hvs hw
    exact mul_sound B p bits md n r ops hrun w hw _ vs ⟨rfl, rfl⟩ hvs
  · intro p bits n w₀ P vs hne hn hp hbits hP hvs
    exact mul_yields B hne hn hp hbits hP hvs
  · intro p q n w₀ P Q hn hp hq hP hQ
    exact ⟨double_yields B hn hp hP, add_yields B hn hp hq hP hQ⟩
  · intro p q bits n P Q vs hp hq hvs
    exact ⟨(double_honest B n hp).runs, (add_honest B n hp hq).runs,
      fun hne => (mul_honest B n hp hvs hne).runs⟩

end

/-! ## A point of order four -/

/-- `(√-1, 0)`. -/
def quarter : Point := ⟨jubjub.sqrtNegOne, 0, by
  unfold Edwards.Curve.OnCurve
  rw [jubjub.sqrtNegOne_sq]
  ring⟩

private theorem four_nsmul_quarter : 4 • quarter = 0 := by
  -- the double has `u = 0`, so it is its own opposite
  have hu : (quarter + quarter).u = 0 := by simp [Edwards.Point.add_u, quarter]
  have hneg : quarter + quarter = -(quarter + quarter) :=
    Edwards.Point.ext (by rw [Edwards.Point.neg_u, hu, neg_zero]) rfl
  rw [show 4 = 2 * 2 from rfl, mul_smul, two_nsmul, two_nsmul]
  exact eq_neg_iff_add_eq_zero.mp hneg

/-- `quarter` in the first two auxiliary variables, one bit set in the third. -/
def quarterWires : EdwardsPoint :=
  ⟨⟨some quarter.u, .aux 0⟩, ⟨some quarter.v, .aux 1⟩⟩

def quarterAssignment : Assignment Scalar where
  val
    | .aux 0 => quarter.u
    | .aux 1 => quarter.v
    | _ => 1
  val_one := rfl

/-- `k` ones. -/
def ones (k : ℕ) : List Boolean := List.replicate k (.is ⟨.aux 2, some true⟩)

private theorem ones_known (k : ℕ) : KnownAll (ones k) (List.replicate k true) := by
  induction k with
  | zero => exact .nil
  | succ k ih => exact .cons rfl ih

private theorem ones_reads (k : ℕ) : ReadsAll quarterAssignment (ones k) (List.replicate k true) := by
  induction k with
  | zero => exact .nil
  | succ k ih => exact .cons (by simp [Boolean.Reads, Boolean.lc, quarterAssignment]) ih

private theorem ofBits_replicate_true (k : ℕ) : ofBits (List.replicate k true) + 1 = 2 ^ k := by
  induction k with
  | zero => rfl
  | succ k ih =>
    rw [List.replicate_succ, ofBits_cons, pow_succ, ← ih, Bool.toNat_true]
    ring

private theorem ones_smul_quarter (k : ℕ) :
    ofBits (List.replicate (k + 2) true) • quarter = -quarter := by
  rw [eq_neg_iff_add_eq_zero, ← succ_nsmul, ofBits_replicate_true, pow_add, mul_smul]
  exact (congrArg _ four_nsmul_quarter).trans (smul_zero _)

/-- `2²⁵⁶ - 1` is three modulo the order of the point, and more than the order of the curve. -/
theorem mul_exact_quarter : ∃ r ops,
    mul (Reference.bellman Reference.blake2s) quarterWires (ones 256) .prove ⟨1, 3⟩ = .ok (r, ops) ∧
    r.Known (-quarter) ∧
    (∃ w : Assignment Scalar, w.Extends quarterAssignment ⟨1, 3⟩ ∧ Holds w ops) ∧
    ∀ w : Assignment Scalar, w.Extends quarterAssignment ⟨1, 3⟩ → Holds w ops →
      r.Reads w (-quarter) := by
  obtain ⟨-, hyields, -, hruns⟩ := mul_exact (Reference.bellman Reference.blake2s)
  have hknown : quarterWires.Known quarter := ⟨rfl, rfl⟩
  have hbelow : quarterWires.Below ⟨1, 3⟩ :=
    ⟨show 0 < 3 by decide, show 1 < 3 by decide⟩
  have hbits : ∀ b ∈ ones 256, b.Below ⟨1, 3⟩ := fun b hb => by
    rw [List.eq_of_mem_replicate hb]
    exact Nat.lt_succ_self 2
  have hne : ones 256 ≠ [] := List.cons_ne_nil _ _
  obtain ⟨-, -, hmul⟩ := hruns quarterWires quarterWires (ones 256) ⟨1, 3⟩ _ _ _ hknown hknown
    (ones_known 256)
  obtain ⟨r, ops, hrun, hr⟩ := hmul hne
  obtain ⟨hsat, hforced⟩ := hyields quarterWires (ones 256) ⟨1, 3⟩ quarterAssignment quarter _ hne
    le_rfl hbelow hbits ⟨rfl, rfl⟩ (ones_reads 256) _ _ _ hrun
  rw [ones_smul_quarter 254] at hr hforced
  exact ⟨r, ops, hrun, hr, hsat, hforced⟩

end EdwardsPoint

end ProviiCrypto
