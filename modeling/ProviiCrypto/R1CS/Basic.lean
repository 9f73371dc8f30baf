import Mathlib.Algebra.BigOperators.Group.List.Basic
import Mathlib.Algebra.Field.Defs
import Mathlib.Tactic.Ring

/-!
# Rank-1 constraint systems and their synthesisers

A synthesiser runs against a constraint system it can only append to: it allocates auxiliary
variables and public inputs, each with an optional value, and enforces products of linear
combinations. `Synth F α` is such a run as a function of the variables allocated so far; it
returns the operations it emitted, in order (`Op`), or the reason it stopped (`Abort`).

* `Mode` is the only thing a synthesiser can observe of the system behind it: `prove` evaluates
  the closures that compute values, `setup` (parameter generation) never runs them.
* `Holds w ops` says that the assignment `w` satisfies every constraint in `ops`, whoever chose
  `w`; `Agrees w n ops` says that `w` takes the values computed along the run.
* `exists_agrees`: a run never allocates a variable twice, so the values it computes always
  extend an assignment of the earlier variables.
-/

namespace ProviiCrypto.R1CS

/-- A variable of the system: a public input or an auxiliary variable, by index. -/
inductive Variable where
  | input (i : Nat)
  | aux (i : Nat)
  deriving DecidableEq, Repr

/-- `CS::one()`: the constant one is the public input of index 0. -/
abbrev Variable.one : Variable := .input 0

/-- A linear combination, as the terms it was built from, in order. -/
structure LinearCombination (F : Type) where
  terms : List (Variable × F)
  deriving DecidableEq, Repr

/-- One operation on the constraint system. A variable's index is its position among the
allocations of its kind, so an allocation carries only its value. -/
inductive Op (F : Type) where
  | alloc (value : Option F)
  | allocInput (value : Option F)
  | enforce (a b c : LinearCombination F)
  deriving DecidableEq, Repr

/-- The errors of a synthesiser. -/
inductive SynthesisError where
  | assignmentMissing
  | divisionByZero
  | unsatisfiable
  | polynomialDegreeTooLarge
  | unexpectedIdentity
  | ioError
  | malformedVerifyingKey
  | unconstrainedVariable
  deriving DecidableEq, Repr

/-- Why a run stopped: an error it returned, or a panic. -/
inductive Abort where
  | error (e : SynthesisError)
  | panic
  deriving DecidableEq, Repr

/-- The two kinds of constraint system behind a synthesiser. -/
inductive Mode where
  | setup
  | prove
  deriving DecidableEq, Repr

/-- How many variables of each kind are allocated. -/
structure Counts where
  inputs : Nat
  aux : Nat
  deriving DecidableEq, Repr

namespace Counts

/-- The system a circuit starts from: only the constant one. -/
def init : Counts := ⟨1, 0⟩

variable {F : Type}

/-- The counts after a list of operations. -/
def advance (n : Counts) : List (Op F) → Counts
  | [] => n
  | .alloc _ :: ops => advance ⟨n.inputs, n.aux + 1⟩ ops
  | .allocInput _ :: ops => advance ⟨n.inputs + 1, n.aux⟩ ops
  | .enforce _ _ _ :: ops => advance n ops

@[simp] theorem advance_nil (n : Counts) : n.advance ([] : List (Op F)) = n := rfl

theorem advance_append (n : Counts) (o₁ o₂ : List (Op F)) :
    n.advance (o₁ ++ o₂) = (n.advance o₁).advance o₂ := by
  induction o₁ generalizing n with
  | nil => rfl
  | cons op ops ih => cases op <;> exact ih _

end Counts

/-! ## Linear combinations -/

namespace LinearCombination

variable {F : Type}

/-- `LinearCombination::zero()`. -/
def zero : LinearCombination F := ⟨[]⟩

/-- The term `coeff · x`. -/
def term (coeff : F) (x : Variable) : LinearCombination F := ⟨[(x, coeff)]⟩

instance : Add (LinearCombination F) := ⟨fun a b => ⟨a.terms ++ b.terms⟩⟩

instance [Neg F] : Sub (LinearCombination F) :=
  ⟨fun a b => ⟨a.terms ++ b.terms.map fun t => (t.1, -t.2)⟩⟩

/-- The terms, each scaled by `k`. -/
def smul [Mul F] (k : F) (a : LinearCombination F) : LinearCombination F :=
  ⟨a.terms.map fun t => (t.1, t.2 * k)⟩

/-- A single variable, with coefficient one. -/
def var [One F] (x : Variable) : LinearCombination F := term 1 x

end LinearCombination

/-! ## Assignments -/

/-- A total assignment of the variables, with the constant one at one. -/
structure Assignment (F : Type) [One F] where
  val : Variable → F
  val_one : val Variable.one = 1

variable {F : Type}

instance [One F] : CoeFun (Assignment F) fun _ => Variable → F := ⟨Assignment.val⟩

namespace LinearCombination

variable [Field F]

/-- The value of a linear combination under an assignment. -/
def eval (w : Assignment F) (a : LinearCombination F) : F :=
  (a.terms.map fun t => t.2 * w t.1).sum

@[simp] theorem eval_zero (w : Assignment F) : (zero : LinearCombination F).eval w = 0 := rfl

@[simp] theorem eval_term (w : Assignment F) (k : F) (x : Variable) :
    (term k x).eval w = k * w x := by simp [eval, term]

@[simp] theorem eval_var (w : Assignment F) (x : Variable) :
    (var x : LinearCombination F).eval w = w x := by simp [var]

@[simp] theorem eval_add (w : Assignment F) (a b : LinearCombination F) :
    (a + b).eval w = a.eval w + b.eval w := by
  show (((a.terms ++ b.terms).map _).sum : F) = _
  rw [List.map_append, List.sum_append]
  rfl

@[simp] theorem eval_sub (w : Assignment F) (a b : LinearCombination F) :
    (a - b).eval w = a.eval w - b.eval w := by
  show (((a.terms ++ b.terms.map fun t => (t.1, -t.2)).map _).sum : F) = _
  rw [List.map_append, List.sum_append, List.map_map, sub_eq_add_neg]
  congr 1
  unfold eval
  induction b.terms with
  | nil => simp
  | cons t ts ih =>
    simp only [List.map_cons, List.sum_cons, Function.comp_apply, ih]
    ring

@[simp] theorem eval_smul (w : Assignment F) (k : F) (a : LinearCombination F) :
    (a.smul k).eval w = k * a.eval w := by
  unfold smul eval
  rw [List.map_map]
  induction a.terms with
  | nil => simp
  | cons t ts ih =>
    simp only [List.map_cons, List.sum_cons, Function.comp_apply, ih]
    ring

end LinearCombination

@[simp] theorem Assignment.apply_one [Field F] (w : Assignment F) : w (.input 0) = 1 := w.val_one

section Semantics

variable [Field F]

/-- A constraint holds when the product of its first two sides is the third. -/
def Op.Holds (w : Assignment F) : Op F → Prop
  | .enforce a b c => a.eval w * b.eval w = c.eval w
  | _ => True

/-- **Satisfaction**: every constraint among `ops` holds under `w`. -/
def Holds (w : Assignment F) (ops : List (Op F)) : Prop := ∀ op ∈ ops, op.Holds w

@[simp] theorem holds_nil (w : Assignment F) : Holds w [] := by simp [Holds]

@[simp] theorem holds_append (w : Assignment F) (o₁ o₂ : List (Op F)) :
    Holds w (o₁ ++ o₂) ↔ Holds w o₁ ∧ Holds w o₂ := by
  simp only [Holds, List.mem_append, or_imp, forall_and]

@[simp] theorem holds_singleton (w : Assignment F) (op : Op F) :
    Holds w [op] ↔ op.Holds w := by simp [Holds]

/-- `w` takes every value the run computed: the `k`-th allocation after `n` sets the `k`-th
variable after `n`. An allocation without a value leaves its variable free. -/
def Agrees (w : Assignment F) : Counts → List (Op F) → Prop
  | _, [] => True
  | n, .alloc v :: ops =>
    (∀ x, v = some x → w (.aux n.aux) = x) ∧ Agrees w ⟨n.inputs, n.aux + 1⟩ ops
  | n, .allocInput v :: ops =>
    (∀ x, v = some x → w (.input n.inputs) = x) ∧ Agrees w ⟨n.inputs + 1, n.aux⟩ ops
  | n, .enforce _ _ _ :: ops => Agrees w n ops

theorem agrees_append (w : Assignment F) (n : Counts) (o₁ o₂ : List (Op F)) :
    Agrees w n (o₁ ++ o₂) ↔ Agrees w n o₁ ∧ Agrees w (n.advance o₁) o₂ := by
  induction o₁ generalizing n with
  | nil => simp [Agrees]
  | cons op ops ih =>
    cases op <;> simp only [List.cons_append, Agrees, ih, and_assoc] <;> rfl

/-- The variable is one of those already allocated. -/
def Variable.Below (n : Counts) : Variable → Prop
  | .input i => i < n.inputs
  | .aux i => i < n.aux

theorem Variable.Below.mono {n m : Counts} {x : Variable} (h : x.Below n)
    (hi : n.inputs ≤ m.inputs) (ha : n.aux ≤ m.aux) : x.Below m := by
  cases x with
  | input i => exact Nat.lt_of_lt_of_le h hi
  | aux i => exact Nat.lt_of_lt_of_le h ha

/-- Set one variable other than the constant one. -/
def Assignment.set (w : Assignment F) (x : Variable) (hx : x ≠ .one) (v : F) : Assignment F where
  val y := if y = x then v else w y
  val_one := by rw [if_neg hx.symm]; exact w.val_one

/-- **The values of a run extend any assignment of the earlier variables.** -/
theorem exists_agrees (w₀ : Assignment F) (ops : List (Op F)) :
    ∀ n : Counts, 1 ≤ n.inputs →
      ∃ w : Assignment F, Agrees w n ops ∧ ∀ x : Variable, x.Below n → w x = w₀ x := by
  induction ops generalizing w₀ with
  | nil => exact fun n _ => ⟨w₀, trivial, fun _ _ => rfl⟩
  | cons op ops ih =>
    intro n hn
    cases op with
    | enforce a b c =>
      obtain ⟨w, hw, hold⟩ := ih w₀ n hn
      exact ⟨w, hw, hold⟩
    | alloc v =>
      -- set the new variable first, so that the rest of the run leaves it alone
      obtain ⟨w, hw, hold⟩ := ih (w₀.set (.aux n.aux) (by simp) (v.getD 0)) ⟨n.inputs, n.aux + 1⟩ hn
      refine ⟨w, ⟨fun x hx => ?_, hw⟩, fun x hx => ?_⟩
      · rw [hold (.aux n.aux) (Nat.lt_succ_self _)]
        simp [Assignment.set, hx]
      · rw [hold x (hx.mono le_rfl (Nat.le_succ _))]
        have hne : x ≠ .aux n.aux := by rintro rfl; exact Nat.lt_irrefl _ hx
        simp [Assignment.set, hne]
    | allocInput v =>
      obtain ⟨w, hw, hold⟩ := ih (w₀.set (.input n.inputs) (by simp; omega) (v.getD 0))
        ⟨n.inputs + 1, n.aux⟩ (Nat.le_succ_of_le hn)
      refine ⟨w, ⟨fun x hx => ?_, hw⟩, fun x hx => ?_⟩
      · rw [hold (.input n.inputs) (Nat.lt_succ_self _)]
        simp [Assignment.set, hx]
      · rw [hold x (hx.mono (Nat.le_succ _) le_rfl)]
        have hne : x ≠ .input n.inputs := by rintro rfl; exact Nat.lt_irrefl _ hx
        simp [Assignment.set, hne]

/-- The assignment that is zero away from the constant one. -/
def Assignment.blank : Assignment F where
  val y := if y = .one then 1 else 0
  val_one := if_pos rfl

end Semantics

/-- An operation without the value it carries: what parameter generation sees of it. -/
def Op.erase : Op F → Op F
  | .alloc _ => .alloc none
  | .allocInput _ => .allocInput none
  | .enforce a b c => .enforce a b c

/-- **The layout of a run**: its allocations and constraints, in order, without values. -/
def layout (ops : List (Op F)) : List (Op F) := ops.map Op.erase

@[simp] theorem layout_append (o₁ o₂ : List (Op F)) :
    layout (o₁ ++ o₂) = layout o₁ ++ layout o₂ := List.map_append

theorem advance_layout (n : Counts) (ops : List (Op F)) : n.advance (layout ops) = n.advance ops := by
  induction ops generalizing n with
  | nil => rfl
  | cons op ops ih => cases op <;> exact ih _

/-- Runs of one layout leave the same counts. -/
theorem advance_congr (n : Counts) {o₁ o₂ : List (Op F)} (h : layout o₁ = layout o₂) :
    n.advance o₁ = n.advance o₂ := by
  rw [← advance_layout, h, advance_layout]

/-- Constraints do not read values: runs of one layout are satisfied by the same assignments. -/
theorem holds_congr [Field F] (w : Assignment F) {o₁ o₂ : List (Op F)}
    (h : layout o₁ = layout o₂) : Holds w o₁ ↔ Holds w o₂ := by
  have key : ∀ ops : List (Op F), Holds w ops ↔ Holds w (layout ops) := by
    intro ops
    simp only [Holds, layout, List.forall_mem_map]
    exact forall₂_congr fun op _ => by cases op <;> rfl
  rw [key o₁, h, ← key o₂]

/-- The values of the public inputs allocated by `ops`, in order. -/
def inputValues : List (Op F) → List (Option F)
  | [] => []
  | .allocInput v :: ops => v :: inputValues ops
  | _ :: ops => inputValues ops

theorem inputValues_append (o₁ o₂ : List (Op F)) :
    inputValues (o₁ ++ o₂) = inputValues o₁ ++ inputValues o₂ := by
  induction o₁ with
  | nil => rfl
  | cons op ops ih => cases op <;> simp [inputValues, ih]

/-- The number of public inputs grows by the inputs allocated. -/
theorem advance_inputs (n : Counts) (ops : List (Op F)) :
    (n.advance ops).inputs = n.inputs + (inputValues ops).length := by
  induction ops generalizing n with
  | nil => rfl
  | cons op ops ih =>
    cases op with
    | alloc _ => exact ih _
    | allocInput _ => simp only [Counts.advance, inputValues, List.length_cons, ih]; omega
    | enforce _ _ _ => exact ih _

end ProviiCrypto.R1CS
