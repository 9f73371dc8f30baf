import Mathlib.Data.List.Forall2
import ProviiCrypto.R1CS.Synth

/-!
# Rules for synthesisers

Seven properties carry a development, each with one rule per way of building a synthesiser, so
that a property of a gadget follows the gadget's text:

* `Sound m Q`: whatever assignment satisfies the constraints `m` emitted, `Q` relates it to the
  result. This is the property against a malicious prover, who picks the assignment.
* `Returns m Q`: `Q` holds of the result of a successful run.
* `Honest n m pre V post`: proving from the counts `n`, the run succeeds, its result satisfies
  `V`, and every assignment that satisfies `pre` and agrees with the values computed along the
  run satisfies the constraints and `post`.
* `Computes m Q`: `Q` relates the result of a successful proving run to every assignment that takes
  the values the run computed, whether or not it satisfies the constraints.
* `SameLayout R m m'`: successful runs of the two emit the same operations up to values, and
  results related by `R`.
* `SetsUp m V`: parameter generation succeeds, with a result satisfying `V`.
* `AuxOnly m`: no public input is allocated. Where some are, `SoundInputs` is `Sound` with the
  values an assignment gives them, and `Exposes` describes the values a proving run gives them.
-/

namespace ProviiCrypto.R1CS

namespace Synth

variable {F α β γ : Type}

/-! ## Soundness -/

section Sound

variable [Field F]

/-- Every assignment that satisfies what a successful run of `m` emitted is related to the
result by `Q`. -/
def Sound (m : Synth F α) (Q : Assignment F → α → Prop) : Prop :=
  ∀ md n a ops, m md n = .ok (a, ops) → ∀ w, Holds w ops → Q w a

theorem Sound.mono {m : Synth F α} {P Q : Assignment F → α → Prop} (h : Sound m P)
    (hPQ : ∀ w a, P w a → Q w a) : Sound m Q :=
  fun md n a ops hr w hw => hPQ w a (h md n a ops hr w hw)

theorem Sound.and {m : Synth F α} {P Q : Assignment F → α → Prop} (h : Sound m P)
    (h' : Sound m Q) : Sound m fun w a => P w a ∧ Q w a :=
  fun md n a ops hr w hw => ⟨h md n a ops hr w hw, h' md n a ops hr w hw⟩

theorem Sound.pure {a : α} {Q : Assignment F → α → Prop} (h : ∀ w, Q w a) :
    Sound (pure a : Synth F α) Q := by
  intro md n b ops hr w _
  obtain ⟨rfl, rfl⟩ := pure_eq_ok.mp hr
  exact h w

/-- What the first part forces may be used for the rest. -/
theorem Sound.bind {m : Synth F α} {f : α → Synth F β} {P : Assignment F → α → Prop}
    {Q : Assignment F → β → Prop} (hm : Sound m P)
    (hf : ∀ a, Sound (f a) fun w b => P w a → Q w b) : Sound (m >>= f) Q := by
  intro md n b ops hr w hw
  obtain ⟨a, o₁, o₂, h₁, h₂, rfl⟩ := bind_eq_ok.mp hr
  obtain ⟨hw₁, hw₂⟩ := (holds_append w o₁ o₂).mp hw
  exact hf a md _ b o₂ h₂ w hw₂ (hm md n a o₁ h₁ w hw₁)

/-- What is forced of the image of a result, of the result. -/
theorem Sound.of_map {m : Synth F α} {f : α → β} {Q : Assignment F → β → Prop}
    (h : Sound (f <$> m) Q) : Sound m fun w a => Q w (f a) := by
  intro md n a ops hr w hw
  refine h md n (f a) ops ?_ w hw
  rw [map_eq_pure_bind]
  exact bind_eq_ok.mpr ⟨a, ops, [], hr, rfl, (List.append_nil ops).symm⟩

theorem Sound.throw {e : SynthesisError} {Q : Assignment F → α → Prop} :
    Sound (throw e : Synth F α) Q := fun _ _ _ _ hr => by cases hr

theorem Sound.panic {Q : Assignment F → α → Prop} : Sound (panic : Synth F α) Q :=
  fun _ _ _ _ hr => by cases hr

theorem Sound.okOr {o : Option α} {e : SynthesisError} :
    Sound (okOr o e : Synth F α) fun _ a => o = some a := by
  cases o with
  | none => exact Sound.throw
  | some a => exact Sound.pure fun _ => rfl

/-- An allocation forces nothing. -/
theorem Sound.alloc (f : Except SynthesisError F) : Sound (alloc f) fun _ _ => True :=
  fun _ _ _ _ _ _ _ => trivial

theorem Sound.enforce (a b c : LinearCombination F) :
    Sound (enforce a b c) fun w _ => a.eval w * b.eval w = c.eval w := by
  intro md n u ops hr w hw
  cases hr
  exact (holds_singleton w _).mp hw

theorem Sound.mapM {f : α → Synth F β} {Q : α → Assignment F → β → Prop} :
    ∀ {xs : List α}, (∀ x ∈ xs, Sound (f x) (Q x)) →
      Sound (xs.mapM f) fun w ys => List.Forall₂ (fun x y => Q x w y) xs ys
  | [], _ => Sound.pure fun _ => List.Forall₂.nil
  | x :: xs, h => by
    rw [List.mapM_cons]
    refine Sound.bind (h x List.mem_cons_self) fun y =>
      Sound.bind (Sound.mapM fun z hz => h z (List.mem_cons_of_mem x hz)) fun ys => ?_
    exact Sound.pure fun w hys hy => List.Forall₂.cons hy hys

theorem Sound.forM {f : α → Synth F Unit} {Q : α → Assignment F → Prop} :
    ∀ {xs : List α}, (∀ x ∈ xs, Sound (f x) fun w _ => Q x w) →
      Sound (xs.forM f) fun w _ => ∀ x ∈ xs, Q x w
  | [], _ => Sound.pure fun _ => by simp
  | x :: xs, h => by
    rw [List.forM_eq_forM, List.forM_cons]
    refine Sound.bind (h x List.mem_cons_self) fun _ => ?_
    refine (Sound.forM fun z hz => h z (List.mem_cons_of_mem x hz)).mono fun w _ hxs hx => ?_
    exact List.forall_mem_cons.mpr ⟨hx, hxs⟩

end Sound

/-! ## Results -/

/-- Every successful run of `m` returns a result satisfying `Q`. -/
def Returns (m : Synth F α) (Q : α → Prop) : Prop :=
  ∀ md n a ops, m md n = .ok (a, ops) → Q a

theorem Returns.mono {m : Synth F α} {P Q : α → Prop} (h : Returns m P) (hPQ : ∀ a, P a → Q a) :
    Returns m Q := fun md n a ops hr => hPQ a (h md n a ops hr)

theorem Returns.pure {a : α} {Q : α → Prop} (h : Q a) : Returns (pure a : Synth F α) Q := by
  intro md n b ops hr
  obtain ⟨rfl, -⟩ := pure_eq_ok.mp hr
  exact h

theorem Returns.bind {m : Synth F α} {f : α → Synth F β} {P : α → Prop} {Q : β → Prop}
    (hm : Returns m P) (hf : ∀ a, P a → Returns (f a) Q) : Returns (m >>= f) Q := by
  intro md n b ops hr
  obtain ⟨a, o₁, o₂, h₁, h₂, -⟩ := bind_eq_ok.mp hr
  exact hf a (hm md n a o₁ h₁) md _ b o₂ h₂

theorem Returns.of_map {m : Synth F α} {f : α → β} {Q : β → Prop} (h : Returns (f <$> m) Q) :
    Returns m fun a => Q (f a) := by
  intro md n a ops hr
  refine h md n (f a) ops ?_
  rw [map_eq_pure_bind]
  exact bind_eq_ok.mpr ⟨a, ops, [], hr, rfl, (List.append_nil ops).symm⟩

theorem Returns.trivial (m : Synth F α) : Returns m fun _ => True := fun _ _ _ _ _ => True.intro

theorem Returns.throw {e : SynthesisError} {Q : α → Prop} : Returns (throw e : Synth F α) Q :=
  fun _ _ _ _ hr => by cases hr

/-- Facts about the result join what satisfied constraints force. -/
theorem Sound.and_returns [Field F] {m : Synth F α} {P : Assignment F → α → Prop} {Q : α → Prop}
    (h : Sound m P) (hr : Returns m Q) : Sound m fun w a => P w a ∧ Q a :=
  fun md n a ops hrun w hw => ⟨h md n a ops hrun w hw, hr md n a ops hrun⟩

/-! ## Honest runs -/

section Honest

variable [Field F]

/-- **The honest prover**: from the counts `n` the run succeeds with a result satisfying `V`,
and the values it computes satisfy its constraints, for every assignment of the earlier
variables satisfying `pre`. -/
def Honest (n : Counts) (m : Synth F α) (pre : Assignment F → Prop) (V : α → Prop)
    (post : Assignment F → α → Prop) : Prop :=
  ∃ a ops, m .prove n = .ok (a, ops) ∧ V a ∧
    ∀ w, Agrees w n ops → pre w → Holds w ops ∧ post w a

theorem Honest.runs {n : Counts} {m : Synth F α} {pre : Assignment F → Prop} {V : α → Prop}
    {post : Assignment F → α → Prop} (h : Honest n m pre V post) :
    ∃ a ops, m .prove n = .ok (a, ops) ∧ V a := by
  obtain ⟨a, ops, hr, ha, -⟩ := h
  exact ⟨a, ops, hr, ha⟩

theorem Honest.mono {n : Counts} {m : Synth F α} {pre pre' : Assignment F → Prop}
    {V V' : α → Prop} {post post' : Assignment F → α → Prop} (h : Honest n m pre V post)
    (hpre : ∀ w, pre' w → pre w) (hV : ∀ a, V a → V' a)
    (hpost : ∀ w a, pre' w → V a → post w a → post' w a) : Honest n m pre' V' post' := by
  obtain ⟨a, ops, hr, ha, hw⟩ := h
  refine ⟨a, ops, hr, hV a ha, fun w hag hp => ?_⟩
  obtain ⟨hh, hpo⟩ := hw w hag (hpre w hp)
  exact ⟨hh, hpost w a hp ha hpo⟩

/-- An honest run stays one under a stronger precondition. -/
theorem Honest.of_pre {n : Counts} {m : Synth F α} {pre pre' : Assignment F → Prop}
    {V : α → Prop} {post : Assignment F → α → Prop} (h : Honest n m pre V post)
    (hpre : ∀ w, pre' w → pre w) : Honest n m pre' V post :=
  h.mono hpre (fun _ => id) fun _ _ _ _ => id

/-- What satisfied constraints force also holds of an honest run. -/
theorem Honest.of_sound {n : Counts} {m : Synth F α} {pre : Assignment F → Prop} {V : α → Prop}
    {T post' Q : Assignment F → α → Prop} (h : Honest n m pre V T) (hs : Sound m Q)
    (hpost : ∀ w a, pre w → Q w a → post' w a) : Honest n m pre V post' := by
  obtain ⟨a, ops, hr, ha, hw⟩ := h
  refine ⟨a, ops, hr, ha, fun w hag hp => ?_⟩
  obtain ⟨hh, -⟩ := hw w hag hp
  exact ⟨hh, hpost w a hp (hs _ _ _ _ hr w hh)⟩

/-- Facts about the result join what an honest run computes. -/
theorem Honest.and_returns {n : Counts} {m : Synth F α} {pre : Assignment F → Prop} {V : α → Prop}
    {post : Assignment F → α → Prop} {Q : α → Prop} (h : Honest n m pre V post)
    (hr : Returns m Q) : Honest n m pre (fun a => V a ∧ Q a) post := by
  obtain ⟨a, ops, hrun, ha, hw⟩ := h
  exact ⟨a, ops, hrun, ⟨ha, hr _ _ _ _ hrun⟩, hw⟩

theorem Honest.pure {n : Counts} {a : α} {pre : Assignment F → Prop} {V : α → Prop}
    {post : Assignment F → α → Prop} (ha : V a) (hpost : ∀ w, pre w → post w a) :
    Honest n (pure a : Synth F α) pre V post :=
  ⟨a, [], rfl, ha, fun w _ hp => ⟨holds_nil w, hpost w hp⟩⟩

/-- The values of the first part are part of what the rest may assume. -/
theorem Honest.bind {n : Counts} {m : Synth F α} {f : α → Synth F β} {pre : Assignment F → Prop}
    {V : α → Prop} {V' : β → Prop} {post : Assignment F → α → Prop}
    {post' : Assignment F → β → Prop} (hm : Honest n m pre V post)
    (hf : ∀ a n', V a → Honest n' (f a) (fun w => pre w ∧ post w a) V' post') :
    Honest n (m >>= f) pre V' post' := by
  obtain ⟨a, o₁, hr₁, ha, hw₁⟩ := hm
  obtain ⟨b, o₂, hr₂, hb, hw₂⟩ := hf a (n.advance o₁) ha
  refine ⟨b, o₁ ++ o₂, bind_eq_ok.mpr ⟨a, o₁, o₂, hr₁, hr₂, rfl⟩, hb, fun w hag hp => ?_⟩
  obtain ⟨hag₁, hag₂⟩ := (agrees_append w n o₁ o₂).mp hag
  obtain ⟨hh₁, hp₁⟩ := hw₁ w hag₁ hp
  obtain ⟨hh₂, hp₂⟩ := hw₂ w hag₂ ⟨hp, hp₁⟩
  exact ⟨(holds_append w o₁ o₂).mpr ⟨hh₁, hh₂⟩, hp₂⟩

/-- A run that is honest up to where it stops. -/
theorem Honest.bind_error {n : Counts} {m : Synth F α} {f : α → Synth F β}
    {pre : Assignment F → Prop} {V : α → Prop} {post : Assignment F → α → Prop} {e : Abort}
    (hm : Honest n m pre V post) (hf : ∀ a n', V a → f a .prove n' = .error e) :
    (m >>= f) .prove n = .error e := by
  obtain ⟨a, ops, hr, ha, -⟩ := hm
  rw [bind_run, hr]
  simp only [hf a (n.advance ops) ha]

theorem Honest.alloc {n : Counts} {f : Except SynthesisError F} {v : F} (hf : f = .ok v)
    (pre : Assignment F → Prop) :
    Honest n (alloc f) pre (fun r => r.2 = some v) fun w r => w r.1 = v := by
  subst hf
  exact ⟨(.aux n.aux, some v), [.alloc (some v)], rfl, rfl,
    fun w hag _ => ⟨by simp [Op.Holds], hag.1 v rfl⟩⟩

theorem Honest.allocInput {n : Counts} {f : Except SynthesisError F} {v : F} (hf : f = .ok v)
    (pre : Assignment F → Prop) :
    Honest n (allocInput f) pre (fun r => r.2 = some v) fun w r => w r.1 = v := by
  subst hf
  exact ⟨(.input n.inputs, some v), [.allocInput (some v)], rfl, rfl,
    fun w hag _ => ⟨by simp [Op.Holds], hag.1 v rfl⟩⟩

theorem Honest.enforce {n : Counts} {a b c : LinearCombination F} {pre : Assignment F → Prop}
    (h : ∀ w, pre w → a.eval w * b.eval w = c.eval w) :
    Honest n (enforce a b c) pre (fun _ => True) fun _ _ => True :=
  ⟨(), [.enforce a b c], rfl, trivial,
    fun w _ hp => ⟨(holds_singleton w _).mpr (h w hp), trivial⟩⟩

/-- A constraint that holds may be followed by anything honest. -/
theorem Honest.enforce_bind {n : Counts} {a b c : LinearCombination F} {f : Unit → Synth F β}
    {pre : Assignment F → Prop} {V : β → Prop} {post : Assignment F → β → Prop}
    (h : ∀ w, pre w → a.eval w * b.eval w = c.eval w)
    (hf : ∀ n', Honest n' (f ()) pre V post) : Honest n (Synth.enforce a b c >>= f) pre V post :=
  (Honest.enforce h).bind fun _ n' _ =>
    (hf n').of_pre fun _ hw => hw.1

theorem Honest.okOr {n : Counts} {o : Option α} {e : SynthesisError} {a : α} (ho : o = some a)
    (pre : Assignment F → Prop) :
    Honest n (okOr o e : Synth F α) pre (fun b => b = a) fun _ _ => True := by
  subst ho
  exact Honest.pure rfl fun _ _ => trivial

/-- Over a list whose elements are matched by `R` with what they stand for: each position may
assume `A` and `P`, and establishes `V` and `Q`. -/
theorem Honest.mapM {f : α → Synth F β} {A : Assignment F → Prop} {R : α → γ → Prop}
    {P : Assignment F → α → γ → Prop} {V : γ → β → Prop} {Q : Assignment F → γ → β → Prop}
    (hf : ∀ x z, R x z → ∀ n, Honest n (f x) (fun w => A w ∧ P w x z) (V z)
      fun w y => Q w z y) {xs : List α} {zs : List γ} (h : List.Forall₂ R xs zs) :
    ∀ n : Counts, Honest n (xs.mapM f) (fun w => A w ∧ List.Forall₂ (P w) xs zs)
      (fun ys => List.Forall₂ V zs ys) fun w ys => List.Forall₂ (Q w) zs ys := by
  induction h with
  | nil => exact fun n => Honest.pure List.Forall₂.nil fun _ _ => List.Forall₂.nil
  | @cons x z xs zs hxz _ ih =>
    intro n
    have hsplit : ∀ w, List.Forall₂ (P w) (x :: xs) (z :: zs) →
        P w x z ∧ List.Forall₂ (P w) xs zs := by
      intro w h
      cases h with
      | cons h₁ h₂ => exact ⟨h₁, h₂⟩
    rw [List.mapM_cons]
    refine Honest.bind ((hf x z hxz n).of_pre fun w hp => ⟨hp.1, (hsplit w hp.2).1⟩)
      fun y n₁ hy => ?_
    refine Honest.bind ((ih n₁).of_pre fun w hp => ⟨hp.1.1, (hsplit w hp.1.2).2⟩)
      fun ys n₂ hys => ?_
    exact Honest.pure (List.Forall₂.cons hy hys) fun w hp => List.Forall₂.cons hp.1.2 hp.2

theorem Honest.forM {f : α → Synth F Unit} {pre : Assignment F → Prop} :
    ∀ {xs : List α} {n : Counts},
      (∀ x ∈ xs, ∀ n, Honest n (f x) pre (fun _ => True) fun _ _ => True) →
      Honest n (xs.forM f) pre (fun _ => True) fun _ _ => True
  | [], _, _ => Honest.pure trivial fun _ _ => trivial
  | x :: xs, n, h => by
    rw [List.forM_eq_forM, List.forM_cons]
    refine Honest.bind (h x List.mem_cons_self n) fun _ n₁ _ => ?_
    exact (Honest.forM fun z hz => h z (List.mem_cons_of_mem x hz)).of_pre fun _ hp => hp.1

/-- **An honest run has a satisfying assignment** that keeps any assignment of the earlier
variables for which the run's precondition is stable. -/
theorem Honest.satisfiable {n : Counts} {m : Synth F α} {pre : Assignment F → Prop} {V : α → Prop}
    {post : Assignment F → α → Prop} (h : Honest n m pre V post) (hn : 1 ≤ n.inputs)
    (w₀ : Assignment F) (hpre : ∀ w, (∀ x : Variable, x.Below n → w x = w₀ x) → pre w) :
    ∃ a ops w, m .prove n = .ok (a, ops) ∧ V a ∧ (∀ x : Variable, x.Below n → w x = w₀ x) ∧
      Agrees w n ops ∧ Holds w ops ∧ post w a := by
  obtain ⟨a, ops, hr, ha, hw⟩ := h
  obtain ⟨w, hag, hold⟩ := exists_agrees w₀ ops n hn
  obtain ⟨hh, hp⟩ := hw w hag (hpre w hold)
  exact ⟨a, ops, w, hr, ha, hold, hag, hh, hp⟩

end Honest

/-! ## Computed values -/

section Computes

variable [Field F]

/-- Every assignment that takes the values of a successful proving run of `m` is related to the
result by `Q`. -/
def Computes (m : Synth F α) (Q : Assignment F → α → Prop) : Prop :=
  ∀ n a ops, m .prove n = .ok (a, ops) → ∀ w, Agrees w n ops → Q w a

theorem Computes.mono {m : Synth F α} {P Q : Assignment F → α → Prop} (h : Computes m P)
    (hPQ : ∀ w a, P w a → Q w a) : Computes m Q :=
  fun n a ops hr w hw => hPQ w a (h n a ops hr w hw)

theorem Computes.pure {a : α} {Q : Assignment F → α → Prop} (h : ∀ w, Q w a) :
    Computes (pure a : Synth F α) Q := by
  intro n b ops hr w _
  obtain ⟨rfl, rfl⟩ := pure_eq_ok.mp hr
  exact h w

theorem Computes.bind {m : Synth F α} {f : α → Synth F β} {P : Assignment F → α → Prop}
    {Q : Assignment F → β → Prop} (hm : Computes m P)
    (hf : ∀ a, Computes (f a) fun w b => P w a → Q w b) : Computes (m >>= f) Q := by
  intro n b ops hr w hw
  obtain ⟨a, o₁, o₂, h₁, h₂, rfl⟩ := bind_eq_ok.mp hr
  obtain ⟨hw₁, hw₂⟩ := (agrees_append w n o₁ o₂).mp hw
  exact hf a _ b o₂ h₂ w hw₂ (hm n a o₁ h₁ w hw₁)

theorem Computes.throw {e : SynthesisError} {Q : Assignment F → α → Prop} :
    Computes (throw e : Synth F α) Q := fun _ _ _ hr => by cases hr

theorem Computes.trivial (m : Synth F α) : Computes m fun _ _ => True :=
  fun _ _ _ _ _ _ => True.intro

/-- What a part computes is kept, and the rest need not be looked at. -/
theorem Computes.skip {m : Synth F α} {f : α → Synth F β} {Q : Assignment F → β → Prop}
    (hf : ∀ a, Computes (f a) Q) : Computes (m >>= f) Q :=
  (Computes.trivial m).bind fun a => (hf a).mono fun _ _ h _ => h

/-- An honest run is the run. -/
theorem Honest.computes {m : Synth F α} {V : α → Prop} {post : Assignment F → α → Prop}
    (h : ∀ n, Honest n m (fun _ => True) V post) : Computes m post := by
  intro n a ops hr w hw
  obtain ⟨b, ops', hr', -, hpost⟩ := h n
  rw [hr', Except.ok.injEq, Prod.mk.injEq] at hr
  obtain ⟨rfl, rfl⟩ := hr
  exact (hpost w hw True.intro).2

end Computes

/-! ## Layout -/

/-- Successful runs of `m` and `m'`, in whatever modes, emit the same operations up to values
and have results related by `R`. -/
def SameLayout (R : α → β → Prop) (m : Synth F α) (m' : Synth F β) : Prop :=
  ∀ md md' n a b ops ops', m md n = .ok (a, ops) → m' md' n = .ok (b, ops') →
    layout ops = layout ops' ∧ R a b

theorem SameLayout.pure {R : α → β → Prop} {a : α} {b : β} (h : R a b) :
    SameLayout (F := F) R (pure a) (pure b) := by
  intro md md' n a' b' ops ops' h₁ h₂
  obtain ⟨rfl, rfl⟩ := pure_eq_ok.mp h₁
  obtain ⟨rfl, rfl⟩ := pure_eq_ok.mp h₂
  exact ⟨rfl, h⟩

theorem SameLayout.bind {δ : Type} {R : α → β → Prop} {S : γ → δ → Prop} {m : Synth F α}
    {m' : Synth F β} {f : α → Synth F γ} {f' : β → Synth F δ} (hm : SameLayout R m m')
    (hf : ∀ a b, R a b → SameLayout S (f a) (f' b)) : SameLayout S (m >>= f) (m' >>= f') := by
  intro md md' n c d ops ops' h₁ h₂
  obtain ⟨a, o₁, o₂, ha, hc, rfl⟩ := bind_eq_ok.mp h₁
  obtain ⟨b, p₁, p₂, hb, hd, rfl⟩ := bind_eq_ok.mp h₂
  obtain ⟨hl₁, hR⟩ := hm md md' n a b o₁ p₁ ha hb
  rw [← advance_congr n hl₁] at hd
  obtain ⟨hl₂, hS⟩ := hf a b hR md md' _ c d o₂ p₂ hc hd
  exact ⟨by rw [layout_append, layout_append, hl₁, hl₂], hS⟩

theorem SameLayout.throw_left {R : α → β → Prop} {e : SynthesisError} {m' : Synth F β} :
    SameLayout R (throw e) m' := fun _ _ _ _ _ _ _ h => by cases h

theorem SameLayout.throw_right {R : α → β → Prop} {e : SynthesisError} {m : Synth F α} :
    SameLayout R m (throw e) := fun _ _ _ _ _ _ _ _ h => by cases h

/-- A check that both runs make and that may refuse. -/
theorem SameLayout.guard {R : α → β → Prop} {c : Prop} [Decidable c] {e : SynthesisError}
    {m : Synth F α} {m' : Synth F β} (h : SameLayout R m m') :
    SameLayout R (if c then throw e else m) (if c then throw e else m') := by
  by_cases hc : c
  · rw [if_pos hc]
    exact SameLayout.throw_left
  · rwa [if_neg hc, if_neg hc]

theorem SameLayout.panic_left {R : α → β → Prop} {m' : Synth F β} :
    SameLayout R panic m' := fun _ _ _ _ _ _ _ h => by cases h

theorem SameLayout.okOr {R : α → β → Prop} {o : Option α} {o' : Option β} {e e' : SynthesisError}
    (h : ∀ a b, o = some a → o' = some b → R a b) :
    SameLayout (F := F) R (okOr o e) (okOr o' e') := by
  cases o with
  | none => exact SameLayout.throw_left
  | some a =>
    cases o' with
    | none => exact SameLayout.throw_right
    | some b => exact SameLayout.pure (h a b rfl rfl)

/-- Runs that emit one fixed operation and return its variable. -/
private theorem SameLayout.of_emits {m m' : Synth F (Variable × Option F)} {op : Op F}
    {v : Counts → Variable}
    (h : ∀ md n r ops, m md n = .ok (r, ops) → layout ops = [op] ∧ r.1 = v n)
    (h' : ∀ md n r ops, m' md n = .ok (r, ops) → layout ops = [op] ∧ r.1 = v n) :
    SameLayout (fun r r' => r.1 = r'.1) m m' := by
  intro md md' n r r' ops ops' hrun hrun'
  obtain ⟨hl, hr⟩ := h md n r ops hrun
  obtain ⟨hl', hr'⟩ := h' md' n r' ops' hrun'
  exact ⟨hl.trans hl'.symm, hr.trans hr'.symm⟩

private theorem alloc_emits (f : Except SynthesisError F) (md : Mode) (n : Counts)
    (r : Variable × Option F) (ops : List (Op F)) (h : Synth.alloc f md n = .ok (r, ops)) :
    layout ops = [.alloc none] ∧ r.1 = .aux n.aux := by
  cases md with
  | setup => cases h; exact ⟨rfl, rfl⟩
  | prove =>
    cases f with
    | error e => cases h
    | ok v => cases h; exact ⟨rfl, rfl⟩

private theorem allocInput_emits (f : Except SynthesisError F) (md : Mode) (n : Counts)
    (r : Variable × Option F) (ops : List (Op F)) (h : Synth.allocInput f md n = .ok (r, ops)) :
    layout ops = [.allocInput none] ∧ r.1 = .input n.inputs := by
  cases md with
  | setup => cases h; exact ⟨rfl, rfl⟩
  | prove =>
    cases f with
    | error e => cases h
    | ok v => cases h; exact ⟨rfl, rfl⟩

theorem SameLayout.alloc (f f' : Except SynthesisError F) :
    SameLayout (fun r r' => r.1 = r'.1) (alloc f) (alloc f') :=
  SameLayout.of_emits (alloc_emits f) (alloc_emits f')

theorem SameLayout.allocInput (f f' : Except SynthesisError F) :
    SameLayout (fun r r' => r.1 = r'.1) (allocInput f) (allocInput f') :=
  SameLayout.of_emits (allocInput_emits f) (allocInput_emits f')

theorem SameLayout.enforce {a b c a' b' c' : LinearCombination F} (ha : a = a') (hb : b = b')
    (hc : c = c') : SameLayout (fun _ _ => True) (enforce a b c) (enforce a' b' c') := by
  subst ha hb hc
  intro md md' n u u' ops ops' h₁ h₂
  cases h₁
  cases h₂
  exact ⟨rfl, trivial⟩

theorem SameLayout.mapM {δ : Type} {P : α → β → Prop} {R : γ → δ → Prop} {f : α → Synth F γ}
    {f' : β → Synth F δ} (hf : ∀ x y, P x y → SameLayout R (f x) (f' y)) {xs : List α}
    {ys : List β} (h : List.Forall₂ P xs ys) :
    SameLayout (List.Forall₂ R) (xs.mapM f) (ys.mapM f') := by
  induction h with
  | nil => exact SameLayout.pure List.Forall₂.nil
  | cons hxy _ ih =>
    rw [List.mapM_cons, List.mapM_cons]
    refine SameLayout.bind (hf _ _ hxy) fun a b hab => SameLayout.bind ih fun as bs hs => ?_
    exact SameLayout.pure (List.Forall₂.cons hab hs)

theorem SameLayout.forM {P : α → β → Prop} {f : α → Synth F Unit} {f' : β → Synth F Unit}
    (hf : ∀ x y, P x y → SameLayout (fun _ _ => True) (f x) (f' y)) {xs : List α} {ys : List β}
    (h : List.Forall₂ P xs ys) : SameLayout (fun _ _ => True) (xs.forM f) (ys.forM f') := by
  induction h with
  | nil => exact SameLayout.pure trivial
  | cons hxy _ ih =>
    rw [List.forM_eq_forM, List.forM_eq_forM, List.forM_cons, List.forM_cons]
    exact SameLayout.bind (hf _ _ hxy) fun _ _ _ => ih

/-- **A run of the same layout can be satisfied** where an honest run can: constraints do not depend
on the values that a run carries. -/
theorem Honest.satisfiable_layout [Field F] {n : Counts} {m : Synth F α} {m' : Synth F β}
    {R : α → β → Prop} {pre : Assignment F → Prop} {V : β → Prop} {post : Assignment F → β → Prop}
    (h : Honest n m' pre V post) (hlayout : SameLayout R m m') (hn : 1 ≤ n.inputs)
    (w₀ : Assignment F) (hpre : ∀ w, (∀ x : Variable, x.Below n → w x = w₀ x) → pre w) {md : Mode}
    {a : α} {ops : List (Op F)} (hr : m md n = .ok (a, ops)) :
    ∃ w : Assignment F, (∀ x : Variable, x.Below n → w x = w₀ x) ∧ Holds w ops := by
  obtain ⟨b, ops', w, hr', -, hold, -, hw, -⟩ := h.satisfiable hn w₀ hpre
  exact ⟨w, hold, (holds_congr w (hlayout md .prove n a b ops ops' hr hr').1).mpr hw⟩

/-! ## Parameter generation -/

/-- **Parameter generation succeeds**: from any counts the run that computes no values does, with a
result satisfying `V`. -/
def SetsUp (m : Synth F α) (V : α → Prop) : Prop :=
  ∀ n, ∃ a ops, m .setup n = .ok (a, ops) ∧ V a

theorem SetsUp.mono {m : Synth F α} {V V' : α → Prop} (h : SetsUp m V) (hV : ∀ a, V a → V' a) :
    SetsUp m V' := by
  intro n
  obtain ⟨a, ops, hr, ha⟩ := h n
  exact ⟨a, ops, hr, hV a ha⟩

theorem SetsUp.and_returns {m : Synth F α} {V Q : α → Prop} (h : SetsUp m V) (hr : Returns m Q) :
    SetsUp m fun a => V a ∧ Q a := by
  intro n
  obtain ⟨a, ops, hrun, ha⟩ := h n
  exact ⟨a, ops, hrun, ha, hr .setup n a ops hrun⟩

theorem SetsUp.pure {a : α} {V : α → Prop} (h : V a) : SetsUp (pure a : Synth F α) V :=
  fun _ => ⟨a, [], rfl, h⟩

theorem SetsUp.bind {m : Synth F α} {f : α → Synth F β} {V : α → Prop} {W : β → Prop}
    (hm : SetsUp m V) (hf : ∀ a, V a → SetsUp (f a) W) : SetsUp (m >>= f) W := by
  intro n
  obtain ⟨a, o₁, h₁, ha⟩ := hm n
  obtain ⟨b, o₂, h₂, hb⟩ := hf a ha (n.advance o₁)
  exact ⟨b, o₁ ++ o₂, bind_eq_ok.mpr ⟨a, o₁, o₂, h₁, h₂, rfl⟩, hb⟩

/-- A check that passes. -/
theorem SetsUp.guard {c : Prop} [Decidable c] {e : SynthesisError} {m : Synth F α} {V : α → Prop}
    (hc : ¬ c) (h : SetsUp m V) : SetsUp (if c then throw e else m) V := by
  rwa [if_neg hc]

theorem SetsUp.okOr {o : Option α} {e : SynthesisError} (h : o.isSome) :
    SetsUp (okOr o e : Synth F α) fun a => o = some a := by
  obtain ⟨a, rfl⟩ := Option.isSome_iff_exists.mp h
  exact SetsUp.pure rfl

/-- The closure of an allocation is not run. -/
theorem SetsUp.alloc (f : Except SynthesisError F) : SetsUp (alloc f) fun _ => True :=
  fun _ => ⟨_, _, rfl, trivial⟩

theorem SetsUp.allocInput (f : Except SynthesisError F) : SetsUp (allocInput f) fun _ => True :=
  fun _ => ⟨_, _, rfl, trivial⟩

theorem SetsUp.enforce (a b c : LinearCombination F) : SetsUp (enforce a b c) fun _ => True :=
  fun _ => ⟨_, _, rfl, trivial⟩

theorem SetsUp.mapM {f : α → Synth F β} {V : β → Prop} (hf : ∀ x, SetsUp (f x) V) :
    ∀ xs : List α, SetsUp (xs.mapM f) fun ys => ys.length = xs.length ∧ ∀ y ∈ ys, V y
  | [] => SetsUp.pure ⟨rfl, nofun⟩
  | x :: xs => by
    rw [List.mapM_cons]
    refine (hf x).bind fun y hy => (SetsUp.mapM hf xs).bind fun ys hys => SetsUp.pure ?_
    exact ⟨congrArg (· + 1) hys.1, List.forall_mem_cons.mpr ⟨hy, hys.2⟩⟩

theorem SetsUp.forM {f : α → Synth F Unit} (hf : ∀ x, SetsUp (f x) fun _ => True) :
    ∀ xs : List α, SetsUp (xs.forM f) fun _ => True
  | [] => SetsUp.pure trivial
  | x :: xs => by
    rw [List.forM_eq_forM, List.forM_cons]
    exact (hf x).bind fun _ _ => SetsUp.forM hf xs

/-! ## Public inputs -/

/-- No successful run of `m` allocates a public input. -/
def AuxOnly (m : Synth F α) : Prop :=
  ∀ md n a ops, m md n = .ok (a, ops) → inputValues ops = []

theorem AuxOnly.pure (a : α) : AuxOnly (pure a : Synth F α) := by
  intro md n b ops h
  obtain ⟨-, rfl⟩ := pure_eq_ok.mp h
  rfl

theorem AuxOnly.bind {m : Synth F α} {f : α → Synth F β} (hm : AuxOnly m)
    (hf : ∀ a, AuxOnly (f a)) : AuxOnly (m >>= f) := by
  intro md n b ops h
  obtain ⟨a, o₁, o₂, h₁, h₂, rfl⟩ := bind_eq_ok.mp h
  rw [inputValues_append, hm md n a o₁ h₁, hf a md _ b o₂ h₂]
  rfl

theorem AuxOnly.throw (e : SynthesisError) : AuxOnly (throw e : Synth F α) :=
  fun _ _ _ _ h => by cases h

theorem AuxOnly.guard {c : Prop} [Decidable c] {e : SynthesisError} {m : Synth F α}
    (h : AuxOnly m) : AuxOnly (if c then Synth.throw e else m) := by
  by_cases hc : c
  · rw [if_pos hc]
    exact AuxOnly.throw e
  · rwa [if_neg hc]

theorem AuxOnly.panic : AuxOnly (panic : Synth F α) := fun _ _ _ _ h => by cases h

theorem AuxOnly.okOr (o : Option α) (e : SynthesisError) : AuxOnly (okOr o e : Synth F α) := by
  cases o with
  | none => exact AuxOnly.throw e
  | some a => exact AuxOnly.pure a

theorem AuxOnly.alloc (f : Except SynthesisError F) : AuxOnly (alloc f) := by
  intro md n r ops h
  cases md with
  | setup => cases h; rfl
  | prove =>
    cases f with
    | error e => cases h
    | ok v => cases h; rfl

theorem AuxOnly.enforce (a b c : LinearCombination F) : AuxOnly (enforce a b c) := by
  intro md n u ops h
  cases h
  rfl

theorem AuxOnly.mapM {f : α → Synth F β} (hf : ∀ x, AuxOnly (f x)) (xs : List α) :
    AuxOnly (xs.mapM f) := by
  induction xs with
  | nil => exact AuxOnly.pure []
  | cons x xs ih =>
    rw [List.mapM_cons]
    exact (hf x).bind fun y => ih.bind fun ys => AuxOnly.pure (y :: ys)

theorem AuxOnly.forM {f : α → Synth F Unit} (hf : ∀ x, AuxOnly (f x)) (xs : List α) :
    AuxOnly (xs.forM f) := by
  induction xs with
  | nil => exact AuxOnly.pure ()
  | cons x xs ih =>
    rw [List.forM_eq_forM, List.forM_cons]
    exact (hf x).bind fun _ => ih

/-- What the assignment gives the public inputs that `ops` allocates from the counts `n`. -/
def inputsRead [One F] (w : Assignment F) (n : Counts) (ops : List (Op F)) : List F :=
  (List.range (inputValues ops).length).map fun i => w (.input (n.inputs + i))

theorem inputsRead_append [One F] (w : Assignment F) (n : Counts) (o₁ o₂ : List (Op F)) :
    inputsRead w n (o₁ ++ o₂) = inputsRead w n o₁ ++ inputsRead w (n.advance o₁) o₂ := by
  simp only [inputsRead, inputValues_append, List.length_append, List.range_add, List.map_append,
    List.map_map, advance_inputs]
  congr 1
  exact List.map_congr_left fun i _ => by rw [Function.comp_apply, Nat.add_assoc]

/-- An assignment that takes the values of a run gives the public inputs theirs. -/
theorem inputsRead_of_agrees [Field F] {w : Assignment F} : ∀ {n : Counts} {ops : List (Op F)}
    {xs : List F}, Agrees w n ops → inputValues ops = xs.map some → inputsRead w n ops = xs
  | _, [], [], _, _ => rfl
  | _, [], _ :: _, _, hx => by cases hx
  | n, .alloc _ :: ops, _, h, hx =>
    (inputsRead_of_agrees h.2 hx : inputsRead w ⟨n.inputs, n.aux + 1⟩ ops = _)
  | n, .enforce _ _ _ :: ops, _, h, hx =>
    (inputsRead_of_agrees h hx : inputsRead w n ops = _)
  | n, .allocInput v :: ops, xs, h, hx => by
    cases xs with
    | nil => cases hx
    | cons x xs =>
      obtain ⟨hv, hxs⟩ := List.cons.inj hx
      have hsplit := inputsRead_append w n [.allocInput v] ops
      rw [List.singleton_append] at hsplit
      rw [hsplit, show inputsRead w n [.allocInput v] = [x] from congrArg (· :: []) (h.1 x hv)]
      exact congrArg (x :: ·) (inputsRead_of_agrees h.2 hxs)

/-- `Sound`, with the public inputs that the run allocates as a further argument. -/
def SoundInputs [Field F] (m : Synth F α) (Q : Assignment F → α → List F → Prop) : Prop :=
  ∀ md n a ops, m md n = .ok (a, ops) → ∀ w, Holds w ops → Q w a (inputsRead w n ops)

theorem Sound.inputs [Field F] {m : Synth F α} {Q : Assignment F → α → Prop} (h : Sound m Q)
    (haux : AuxOnly m) : SoundInputs m fun w a is => Q w a ∧ is = [] :=
  fun md n a ops hr w hw => ⟨h md n a ops hr w hw, by simp [inputsRead, haux md n a ops hr]⟩

theorem SoundInputs.mono [Field F] {m : Synth F α} {P Q : Assignment F → α → List F → Prop}
    (h : SoundInputs m P) (hPQ : ∀ w a is, P w a is → Q w a is) : SoundInputs m Q :=
  fun md n a ops hr w hw => hPQ w a _ (h md n a ops hr w hw)

theorem SoundInputs.throw [Field F] {e : SynthesisError} {Q : Assignment F → α → List F → Prop} :
    SoundInputs (throw e : Synth F α) Q := fun _ _ _ _ hr => by cases hr

theorem SoundInputs.allocInput [Field F] (f : Except SynthesisError F) :
    SoundInputs (allocInput f) fun w r is => is = [w r.1] := by
  intro md n r ops h w _
  cases md with
  | setup => cases h; rfl
  | prove =>
    cases f with
    | error e => cases h
    | ok v => cases h; rfl

theorem SoundInputs.bind [Field F] {m : Synth F α} {f : α → Synth F β}
    {P : Assignment F → α → List F → Prop} {Q : Assignment F → β → List F → Prop}
    (hm : SoundInputs m P)
    (hf : ∀ a, SoundInputs (f a) fun w b is => ∀ is₁, P w a is₁ → Q w b (is₁ ++ is)) :
    SoundInputs (m >>= f) Q := by
  intro md n b ops hr w hw
  obtain ⟨a, o₁, o₂, h₁, h₂, rfl⟩ := bind_eq_ok.mp hr
  obtain ⟨hw₁, hw₂⟩ := (holds_append w o₁ o₂).mp hw
  rw [inputsRead_append]
  exact hf a md _ b o₂ h₂ w hw₂ _ (hm md n a o₁ h₁ w hw₁)

/-- A successful proving run of `m` exposes public inputs of values related to the result by
`Q`. -/
def Exposes (m : Synth F α) (Q : α → List (Option F) → Prop) : Prop :=
  ∀ n a ops, m .prove n = .ok (a, ops) → Q a (inputValues ops)

theorem Exposes.mono {m : Synth F α} {P Q : α → List (Option F) → Prop} (h : Exposes m P)
    (hPQ : ∀ a is, P a is → Q a is) : Exposes m Q := fun n a ops hr => hPQ a _ (h n a ops hr)

theorem Exposes.throw {e : SynthesisError} {Q : α → List (Option F) → Prop} :
    Exposes (throw e : Synth F α) Q := fun _ _ _ hr => by cases hr

theorem Exposes.allocInput (f : Except SynthesisError F) :
    Exposes (allocInput f) fun _ is => ∀ v, f = .ok v → is = [some v] := by
  intro n r ops h v hf
  subst hf
  cases h
  rfl

theorem Exposes.bind {m : Synth F α} {f : α → Synth F β} {P : α → List (Option F) → Prop}
    {Q : β → List (Option F) → Prop} (hm : Exposes m P)
    (hf : ∀ a, Exposes (f a) fun b is => ∀ is₁, P a is₁ → Q b (is₁ ++ is)) :
    Exposes (m >>= f) Q := by
  intro n b ops hr
  obtain ⟨a, o₁, o₂, h₁, h₂, rfl⟩ := bind_eq_ok.mp hr
  rw [inputValues_append]
  exact hf a _ b o₂ h₂ _ (hm n a o₁ h₁)

theorem Returns.exposes {m : Synth F α} {Q : α → Prop} (h : Returns m Q) (haux : AuxOnly m) :
    Exposes m fun a is => Q a ∧ is = [] :=
  fun n a ops hr => ⟨h .prove n a ops hr, haux .prove n a ops hr⟩

theorem AuxOnly.exposes {m : Synth F α} (h : AuxOnly m) : Exposes m fun _ is => is = [] :=
  fun n a ops hr => h .prove n a ops hr

end Synth

end ProviiCrypto.R1CS
