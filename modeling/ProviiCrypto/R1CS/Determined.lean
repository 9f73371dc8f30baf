import ProviiCrypto.R1CS.Rules

/-!
# Constraints that determine their variables

`Sound` says what satisfied constraints force of a result, `Honest` that the prover's values
satisfy them. `Determined` says that nothing else does: a satisfying assignment takes the values
that a proving run computes.

Not every part of a synthesiser does so alone. A bit is allocated by one constraint that both of
its values satisfy, and a later constraint says which. `Determined` therefore carries what is
still to be forced (`given`); `Determined.bind_given` asks the rest of the run for it.

`Yields` asks less: the constraints can be satisfied, and the result is then the one expected, however
the variables on the way to it are chosen.

* `Agrees.unique`: two assignments that take the values of a run differ only elsewhere.
* `Yields.of_honest`: soundness for any run, and an honest run of the same layout.
-/

namespace ProviiCrypto.R1CS

variable {F α β : Type}

/-- Every variable allocated carries a value. -/
def Valued (ops : List (Op F)) : Prop := ∀ op ∈ ops, op ≠ .alloc none ∧ op ≠ .allocInput none

@[simp] theorem valued_nil : Valued ([] : List (Op F)) := by simp [Valued]

@[simp] theorem valued_append (o₁ o₂ : List (Op F)) :
    Valued (o₁ ++ o₂) ↔ Valued o₁ ∧ Valued o₂ := List.forall_mem_append

@[simp] theorem valued_cons (op : Op F) (ops : List (Op F)) :
    Valued (op :: ops) ↔ (op ≠ .alloc none ∧ op ≠ .allocInput none) ∧ Valued ops :=
  List.forall_mem_cons

section

variable [Field F]

/-- The assignment leaves the variables allocated up to `n` as they are under `w₀`. -/
def Assignment.Extends (w w₀ : Assignment F) (n : Counts) : Prop :=
  ∀ x : Variable, x.Below n → w x = w₀ x

/-- **The values of a run are all that it adds**: assignments that extend one another and take
them agree on the variables it allocated too. -/
theorem Agrees.unique {w w' : Assignment F} {n : Counts} {ops : List (Op F)} (hv : Valued ops)
    (h : Agrees w n ops) (h' : Agrees w' n ops) (hext : w.Extends w' n) :
    w.Extends w' (n.advance ops) := by
  induction ops generalizing n with
  | nil => exact hext
  | cons op ops ih =>
    obtain ⟨hop, hvs⟩ := (valued_cons op ops).mp hv
    cases op with
    | enforce a b c => exact ih hvs h h' hext
    | alloc v =>
      obtain ⟨v, rfl⟩ := Option.ne_none_iff_exists'.mp fun hnone => hop.1 (congrArg Op.alloc hnone)
      refine ih hvs h.2 h'.2 fun x hx => ?_
      by_cases hnew : x = .aux n.aux
      · rw [hnew, h.1 v rfl, h'.1 v rfl]
      · refine hext x ?_
        cases x with
        | input i => exact hx
        | aux i => exact lt_of_le_of_ne (Nat.le_of_lt_succ hx) fun hi => hnew (congrArg _ hi)
    | allocInput v =>
      obtain ⟨v, rfl⟩ := Option.ne_none_iff_exists'.mp fun hnone =>
        hop.2 (congrArg Op.allocInput hnone)
      refine ih hvs h.2 h'.2 fun x hx => ?_
      by_cases hnew : x = .input n.inputs
      · rw [hnew, h.1 v rfl, h'.1 v rfl]
      · refine hext x ?_
        cases x with
        | input i => exact lt_of_le_of_ne (Nat.le_of_lt_succ hx) fun hi => hnew (congrArg _ hi)
        | aux i => exact hx

namespace Synth

/-- **Determined values**: from the counts `n` a proving run succeeds with a result satisfying
`V`, and an assignment that satisfies `pre` and the constraints satisfies `post`; once `given`
holds of it too, it takes the values of the run. -/
def Determined (n : Counts) (m : Synth F α) (pre : Assignment F → Prop) (V : α → Prop)
    (post given : Assignment F → α → Prop) : Prop :=
  ∃ a ops, m .prove n = .ok (a, ops) ∧ V a ∧ Valued ops ∧
    ∀ w, pre w → Holds w ops → post w a ∧ (given w a → Agrees w n ops)

variable {n : Counts} {m : Synth F α} {f : α → Synth F β} {pre pre' : Assignment F → Prop}
  {V : α → Prop} {V' : β → Prop} {post given : Assignment F → α → Prop}
  {post' given' : Assignment F → β → Prop}

/-- What an honest run and satisfied constraints are known to give, with the values. -/
theorem Determined.of_honest {T Q : Assignment F → α → Prop} (h : Honest n m pre V T)
    (hs : Sound m Q) (hpost : ∀ w a, pre w → Q w a → post w a)
    (hvals : ∀ a ops, m .prove n = .ok (a, ops) → Valued ops ∧
      ∀ w, pre w → Holds w ops → given w a → Agrees w n ops) :
    Determined n m pre V post given := by
  obtain ⟨a, ops, hr, ha⟩ := h.runs
  obtain ⟨hv, hag⟩ := hvals a ops hr
  exact ⟨a, ops, hr, ha, hv, fun w hp hw => ⟨hpost w a hp (hs _ _ _ _ hr w hw), hag w hp hw⟩⟩

theorem Determined.of_pre (h : Determined n m pre V post given) (hpre : ∀ w, pre' w → pre w) :
    Determined n m pre' V post given := by
  obtain ⟨a, ops, hr, ha, hv, hw⟩ := h
  exact ⟨a, ops, hr, ha, hv, fun w hp => hw w (hpre w hp)⟩

theorem Determined.weaken {post₂ : Assignment F → α → Prop} (h : Determined n m pre V post given)
    (hpost : ∀ w a, post w a → post₂ w a) : Determined n m pre V post₂ given := by
  obtain ⟨a, ops, hr, ha, hv, hw⟩ := h
  exact ⟨a, ops, hr, ha, hv, fun w hp hh => ⟨hpost w a (hw w hp hh).1, (hw w hp hh).2⟩⟩

theorem Determined.pure {a : α} (ha : V a) (hpost : ∀ w, pre w → post w a) :
    Determined n (pure a : Synth F α) pre V post given :=
  ⟨a, [], rfl, ha, valued_nil, fun w hp _ => ⟨hpost w hp, fun _ => trivial⟩⟩

/-- The rest of a run forces what its first part left open. -/
theorem Determined.bind_given (hm : Determined n m pre V post given)
    (hf : ∀ a n', V a → Determined n' (f a) (fun w => pre w ∧ post w a) V'
      (fun w b => post' w b ∧ given w a) given') : Determined n (m >>= f) pre V' post' given' := by
  obtain ⟨a, o₁, hr₁, ha, hv₁, hw₁⟩ := hm
  obtain ⟨b, o₂, hr₂, hb, hv₂, hw₂⟩ := hf a (n.advance o₁) ha
  refine ⟨b, o₁ ++ o₂, bind_eq_ok.mpr ⟨a, o₁, o₂, hr₁, hr₂, rfl⟩, hb,
    (valued_append o₁ o₂).mpr ⟨hv₁, hv₂⟩, fun w hp hh => ?_⟩
  obtain ⟨hh₁, hh₂⟩ := (holds_append w o₁ o₂).mp hh
  obtain ⟨hp₁, hag₁⟩ := hw₁ w hp hh₁
  obtain ⟨⟨hp₂, hg⟩, hag₂⟩ := hw₂ w ⟨hp, hp₁⟩ hh₂
  exact ⟨hp₂, fun hg' => (agrees_append w n o₁ o₂).mpr ⟨hag₁ hg, hag₂ hg'⟩⟩

/-- The first part leaves nothing open. -/
theorem Determined.bind (hm : Determined n m pre V post fun _ _ => True)
    (hf : ∀ a n', V a → Determined n' (f a) (fun w => pre w ∧ post w a) V' post' given') :
    Determined n (m >>= f) pre V' post' given' := by
  refine hm.bind_given fun a n' ha => ?_
  obtain ⟨b, ops, hr, hb, hv, hw⟩ := hf a n' ha
  exact ⟨b, ops, hr, hb, hv, fun w hp hh => ⟨⟨(hw w hp hh).1, trivial⟩, (hw w hp hh).2⟩⟩

theorem Determined.enforce {a b c : LinearCombination F} :
    Determined n (enforce a b c) pre (fun _ => True)
      (fun w _ => a.eval w * b.eval w = c.eval w) fun _ _ => True :=
  ⟨(), [.enforce a b c], rfl, trivial, by simp [Valued],
    fun w _ hh => ⟨(holds_singleton w _).mp hh, fun _ => trivial⟩⟩

/-- **One output**: from the counts `n`, with the earlier variables as they are under `w₀`, the
constraints of a run can be satisfied, and `Q` holds of the result wherever they are. -/
def Yields (n : Counts) (w₀ : Assignment F) (m : Synth F α) (Q : Assignment F → α → Prop) : Prop :=
  ∀ md a ops, m md n = .ok (a, ops) →
    (∃ w : Assignment F, w.Extends w₀ n ∧ Holds w ops) ∧
    ∀ w : Assignment F, w.Extends w₀ n → Holds w ops → Q w a

theorem Yields.of_honest {w₀ : Assignment F} {m : Synth F α} {m' : Synth F β}
    {P Q : Assignment F → α → Prop} {R : α → β → Prop} (hs : Sound m P)
    (hpost : ∀ w a, w.Extends w₀ n → P w a → Q w a) (h : Honest n m' pre V' post')
    (hlayout : SameLayout R m m') (hn : 1 ≤ n.inputs) (hpre : ∀ w, w.Extends w₀ n → pre w) :
    Yields n w₀ m Q := fun md a ops hr =>
  ⟨h.satisfiable_layout hlayout hn w₀ hpre hr,
    fun w hext hw => hpost w a hext (hs md n a ops hr w hw)⟩

end Synth

end

end ProviiCrypto.R1CS
