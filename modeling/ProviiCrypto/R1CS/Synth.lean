import ProviiCrypto.R1CS.Basic

/-!
# The synthesiser monad

`Synth F` writes operations and threads the counts; every successful run of `m >>= f` splits into
a run of `m` and a run of `f a` (`bind_eq_ok`).
-/

namespace ProviiCrypto.R1CS

/-- A synthesiser: what it emits after the counts `n` when the system is in mode `md`. -/
def Synth (F α : Type) : Type := Mode → Counts → Except Abort (α × List (Op F))

namespace Synth

variable {F α β γ : Type}

@[ext] theorem ext {m m' : Synth F α} (h : ∀ md n, m md n = m' md n) : m = m' :=
  funext fun md => funext fun n => h md n

/-- Return without touching the system. -/
protected def pure (a : α) : Synth F α := fun _ _ => .ok (a, [])

/-- Run `m`, then `f` on its result, after the variables `m` allocated. -/
protected def bind (m : Synth F α) (f : α → Synth F β) : Synth F β := fun md n =>
  match m md n with
  | .error e => .error e
  | .ok (a, o₁) =>
    match f a md (n.advance o₁) with
    | .error e => .error e
    | .ok (b, o₂) => .ok (b, o₁ ++ o₂)

instance : Monad (Synth F) where
  pure := Synth.pure
  bind := Synth.bind

/-- Stop with a synthesis error. -/
def throw (e : SynthesisError) : Synth F α := fun _ _ => .error (.error e)

/-- Stop with a panic. -/
def panic : Synth F α := fun _ _ => .error .panic

/-- `cs.alloc`: a new auxiliary variable. The closure `f` runs only when proving. -/
def alloc (f : Except SynthesisError F) : Synth F (Variable × Option F) := fun md n =>
  match md with
  | .setup => .ok ((.aux n.aux, none), [.alloc none])
  | .prove =>
    match f with
    | .error e => .error (.error e)
    | .ok v => .ok ((.aux n.aux, some v), [.alloc (some v)])

/-- `cs.alloc_input`: a new public input. -/
def allocInput (f : Except SynthesisError F) : Synth F (Variable × Option F) := fun md n =>
  match md with
  | .setup => .ok ((.input n.inputs, none), [.allocInput none])
  | .prove =>
    match f with
    | .error e => .error (.error e)
    | .ok v => .ok ((.input n.inputs, some v), [.allocInput (some v)])

/-- `cs.enforce`: the constraint `a · b = c`. -/
def enforce (a b c : LinearCombination F) : Synth F Unit := fun _ _ =>
  .ok ((), [.enforce a b c])

/-- `opt.ok_or(e)?`. -/
def okOr (o : Option α) (e : SynthesisError) : Synth F α :=
  match o with
  | some a => pure a
  | none => throw e

theorem pure_run (a : α) (md : Mode) (n : Counts) : (pure a : Synth F α) md n = .ok (a, []) := rfl

theorem bind_run (m : Synth F α) (f : α → Synth F β) (md : Mode) (n : Counts) :
    (m >>= f) md n = match m md n with
      | .error e => .error e
      | .ok (a, o₁) =>
        match f a md (n.advance o₁) with
        | .error e => .error e
        | .ok (b, o₂) => .ok (b, o₁ ++ o₂) := rfl

/-- A successful run of a sequence splits into successful runs of its parts. -/
theorem bind_eq_ok {m : Synth F α} {f : α → Synth F β} {md : Mode} {n : Counts} {b : β}
    {ops : List (Op F)} : (m >>= f) md n = .ok (b, ops) ↔
      ∃ a o₁ o₂, m md n = .ok (a, o₁) ∧ f a md (n.advance o₁) = .ok (b, o₂) ∧ ops = o₁ ++ o₂ := by
  rw [bind_run]
  constructor
  · intro h
    split at h
    · cases h
    · rename_i a o₁ hm
      split at h
      · cases h
      · rename_i b' o₂ hf
        cases h
        exact ⟨a, o₁, o₂, hm, hf, rfl⟩
  · rintro ⟨a, o₁, o₂, hm, hf, rfl⟩
    simp only [hm, hf]

instance : LawfulMonad (Synth F) := LawfulMonad.mk' _
  (fun x => by
    ext md n
    show (Synth.bind x Synth.pure) md n = x md n
    unfold Synth.bind Synth.pure
    split
    · rename_i h; exact h.symm
    · rename_i h; simp [h])
  (fun a f => by
    ext md n
    rw [bind_run, pure_run]
    simp only [Counts.advance_nil, List.nil_append]
    split
    · rename_i h; exact h.symm
    · rename_i h; exact h.symm)
  (fun x f g => by
    ext md n
    simp only [bind_run]
    cases x md n with
    | error e => rfl
    | ok r =>
      obtain ⟨a, o₁⟩ := r
      simp only
      cases f a md (n.advance o₁) with
      | error e => rfl
      | ok r =>
        obtain ⟨b, o₂⟩ := r
        simp only [Counts.advance_append]
        cases g b md ((n.advance o₁).advance o₂) with
        | error e => rfl
        | ok r => simp [List.append_assoc])

@[simp] theorem throw_run (e : SynthesisError) (md : Mode) (n : Counts) :
    (throw e : Synth F α) md n = .error (.error e) := rfl

theorem pure_eq_ok {a b : α} {md : Mode} {n : Counts} {ops : List (Op F)} :
    (pure a : Synth F α) md n = .ok (b, ops) ↔ b = a ∧ ops = [] := by
  rw [pure_run]
  simp [eq_comm]

end Synth
end ProviiCrypto.R1CS
