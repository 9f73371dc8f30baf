import ProviiCrypto.Jubjub.Field

/-!
# `bellman::groth16`

The proof system, as far as the prover and the verifier call it. Nothing is assumed of it: what a
proof that verifies says is the business of its own soundness.

`Outcome` is how a call of the prover ends, panics included.
-/

namespace ProviiCrypto

/-- How a call ends. -/
inductive Outcome (ε α : Type) where
  | ok (a : α)
  | err (e : ε)
  | panic
  deriving DecidableEq, Repr

namespace Outcome

variable {ε α β : Type}

instance : Monad (Outcome ε) where
  pure := .ok
  bind x f :=
    match x with
    | .ok a => f a
    | .err e => .err e
    | .panic => .panic

/-- `opt.ok_or(e)?`. -/
def okOr (o : Option α) (e : ε) : Outcome ε α :=
  match o with
  | some a => .ok a
  | none => .err e

/-- `result.map_err(|_| e)?`. -/
def mapErr {δ : Type} (x : Except δ α) (e : ε) : Outcome ε α :=
  match x with
  | .ok a => .ok a
  | .error _ => .err e

/-- Return `e` unless `b`. -/
def ensure (b : Bool) (e : ε) : Outcome ε Unit := if b then .ok () else .err e

@[simp] theorem bind_eq_ok {x : Outcome ε α} {f : α → Outcome ε β} {b : β} :
    x >>= f = .ok b ↔ ∃ a, x = .ok a ∧ f a = .ok b := by
  constructor
  · intro h
    cases x with
    | ok a => exact ⟨a, rfl, h⟩
    | err e => cases h
    | panic => cases h
  · rintro ⟨a, rfl, h⟩
    exact h

@[simp] theorem pure_eq_ok {a b : α} : (pure a : Outcome ε α) = .ok b ↔ a = b := by
  constructor
  · intro h
    cases h
    rfl
  · rintro rfl
    rfl

@[simp] theorem okOr_eq_ok {o : Option α} {e : ε} {a : α} : okOr o e = .ok a ↔ o = some a := by
  cases o <;> simp [okOr]

@[simp] theorem mapErr_eq_ok {δ : Type} {x : Except δ α} {e : ε} {a : α} :
    mapErr x e = .ok a ↔ x = .ok a := by
  cases x <;> simp [mapErr]

@[simp] theorem ensure_eq_ok {b : Bool} {e : ε} {u : Unit} : ensure b e = .ok u ↔ b = true := by
  cases b <;> simp [ensure]

@[simp] theorem bind_eq_err {x : Outcome ε α} {f : α → Outcome ε β} {e : ε} :
    x >>= f = .err e ↔ x = .err e ∨ ∃ a, x = .ok a ∧ f a = .err e := by
  cases x with
  | ok a =>
    show f a = .err e ↔ _
    simp
  | err e' =>
    show Outcome.err e' = .err e ↔ _
    simp
  | panic =>
    show Outcome.panic = .err e ↔ _
    simp

@[simp] theorem pure_eq_err {a : α} {e : ε} : ¬ (pure a : Outcome ε α) = .err e := nofun

@[simp] theorem okOr_eq_err {o : Option α} {e e' : ε} :
    okOr o e = .err e' ↔ o = none ∧ e = e' := by
  cases o <;> simp [okOr]

@[simp] theorem mapErr_eq_err {δ : Type} {x : Except δ α} {e e' : ε} :
    mapErr x e = .err e' ↔ (∃ d, x = .error d) ∧ e = e' := by
  cases x <;> simp [mapErr]

@[simp] theorem ensure_eq_err {b : Bool} {e e' : ε} :
    ensure b e = .err e' ↔ b = false ∧ e = e' := by
  cases b <;> simp [ensure]

end Outcome

/-- `bellman::groth16` over the circuit's curve. -/
structure Groth16 where
  Parameters : Type
  VerifyingKey : Type
  PreparedVerifyingKey : Type
  Proof : Type
  /-- `Parameters::vk`. -/
  vk : Parameters → VerifyingKey
  /-- `VerifyingKey::write` to a vector. -/
  writeVk : VerifyingKey → Option (List UInt8)
  /-- `prepare_verifying_key`. -/
  prepareVerifyingKey : VerifyingKey → PreparedVerifyingKey
  /-- `Proof::write` to a vector. -/
  writeProof : Proof → Option (List UInt8)
  /-- `Proof::read`. -/
  readProof : List UInt8 → Option Proof
  /-- Whether `verify_proof` returns `Ok`. -/
  verifyProof : PreparedVerifyingKey → Proof → List Scalar → Bool

end ProviiCrypto
