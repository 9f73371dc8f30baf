import ProviiCrypto.R1CS.Synth

/-!
# The test constraint system

A system that keeps the values of a run and checks the constraints against them. Paths are only
labels and are left out.

* `agrees_assignment`: the values kept are the values of the run.
* `isSatisfied_iff`: the check is satisfaction.
-/

namespace ProviiCrypto.R1CS.TestConstraintSystem

variable {F : Type}

/-- The values of the auxiliary variables allocated by `ops`, in order. -/
def auxValues : List (Op F) → List (Option F)
  | [] => []
  | .alloc v :: ops => v :: auxValues ops
  | _ :: ops => auxValues ops

theorem auxValues_append (o₁ o₂ : List (Op F)) :
    auxValues (o₁ ++ o₂) = auxValues o₁ ++ auxValues o₂ := by
  induction o₁ with
  | nil => rfl
  | cons op ops ih => cases op <;> simp [auxValues, ih]

theorem advance_aux (n : Counts) (ops : List (Op F)) :
    (n.advance ops).aux = n.aux + (auxValues ops).length := by
  induction ops generalizing n with
  | nil => rfl
  | cons op ops ih =>
    cases op with
    | alloc _ => simp only [Counts.advance, auxValues, List.length_cons, ih]; omega
    | allocInput _ => exact ih _
    | enforce _ _ _ => exact ih _

section

variable [Field F]

/-- The values the system holds after `ops`. -/
def assignment (ops : List (Op F)) : Assignment F where
  val
    | .input i => ((some 1 :: inputValues ops)[i]?.join).getD 0
    | .aux i => ((auxValues ops)[i]?.join).getD 0
  val_one := rfl

/-- **The values held are those of the run.** -/
theorem agrees_assignment (ops : List (Op F)) : Agrees (assignment ops) .init ops := by
  -- split the run at each point: what is before it is allocated, what is after it is to come
  suffices h : ∀ o₁ o₂ : List (Op F), Agrees (assignment (o₁ ++ o₂)) (Counts.init.advance o₁) o₂ from
    h [] ops
  intro o₁ o₂
  induction o₂ generalizing o₁ with
  | nil => exact trivial
  | cons op o₂ ih =>
    have hsplit : o₁ ++ op :: o₂ = (o₁ ++ [op]) ++ o₂ := by simp
    have hrest := ih (o₁ ++ [op])
    rw [← hsplit, Counts.advance_append] at hrest
    cases op with
    | enforce a b c => exact hrest
    | alloc v =>
      refine ⟨?_, hrest⟩
      rintro x rfl
      have hlen : (Counts.init.advance o₁).aux = (auxValues o₁).length := by
        rw [advance_aux]
        exact Nat.zero_add _
      simp [assignment, auxValues_append, auxValues, hlen]
    | allocInput v =>
      refine ⟨?_, hrest⟩
      rintro x rfl
      have hlen : (Counts.init.advance o₁).inputs = (inputValues o₁).length + 1 := by
        rw [advance_inputs]
        exact Nat.add_comm _ _
      simp [assignment, inputValues_append, inputValues, hlen]

variable [DecidableEq F]

instance (w : Assignment F) (op : Op F) : Decidable (op.Holds w) :=
  match op with
  | .enforce a b c => inferInstanceAs (Decidable (a.eval w * b.eval w = c.eval w))
  | .alloc _ => isTrue trivial
  | .allocInput _ => isTrue trivial

/-- `which_is_unsatisfied`: the first constraint that fails. -/
def whichIsUnsatisfied (ops : List (Op F)) : Option (Op F) :=
  ops.find? fun op => !decide (op.Holds (assignment ops))

/-- `is_satisfied`. -/
def isSatisfied (ops : List (Op F)) : Bool := (whichIsUnsatisfied ops).isNone

/-- **The check is satisfaction.** -/
theorem isSatisfied_iff (ops : List (Op F)) : isSatisfied ops = true ↔ Holds (assignment ops) ops := by
  simp [isSatisfied, whichIsUnsatisfied, Holds]

end

/-- `num_constraints`. -/
def numConstraints (ops : List (Op F)) : ℕ :=
  ops.countP fun
    | .enforce _ _ _ => true
    | _ => false

/-- `num_inputs`, the constant one included. -/
def numInputs (ops : List (Op F)) : ℕ := (Counts.init.advance ops).inputs

end ProviiCrypto.R1CS.TestConstraintSystem
