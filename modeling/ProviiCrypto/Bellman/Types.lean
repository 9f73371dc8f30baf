import Mathlib.Data.List.Forall2
import ProviiCrypto.R1CS.Rules

/-!
# The wires of a circuit

`AllocatedBit`, `Boolean`, `AllocatedNum` and `Num`: a wire is a variable (or a constant, or a
linear combination) with the value the prover knows for it, if any. Each kind has three
readings, and every gadget is specified by them:

* `Known`: the value carried along while proving;
* `Reads w`: the value under an assignment `w`, whoever chose it;
* `SameWire`: equality up to the values carried, which is all a layout may depend on.
-/

namespace ProviiCrypto

open R1CS

variable {F : Type}

/-- `boolean::AllocatedBit`. -/
structure AllocatedBit where
  var : Variable
  value : Option Bool
  deriving DecidableEq

/-- `boolean::Boolean`: a bit variable, its negation, or a constant. -/
inductive Boolean where
  | is (b : AllocatedBit)
  | not (b : AllocatedBit)
  | constant (c : Bool)
  deriving DecidableEq

/-- `num::AllocatedNum`. -/
structure AllocatedNum (F : Type) where
  value : Option F
  var : Variable

/-- `num::Num`: a linear combination with its value. -/
structure Num (F : Type) where
  value : Option F
  lc : LinearCombination F

/-- `Scalar::one()` or `Scalar::zero()`. -/
def bitValue [Zero F] [One F] (b : Bool) : F := if b then 1 else 0

@[simp] theorem bitValue_true [Zero F] [One F] : (bitValue true : F) = 1 := rfl

@[simp] theorem bitValue_false [Zero F] [One F] : (bitValue false : F) = 0 := rfl

theorem bitValue_injective [Field F] : Function.Injective (bitValue : Bool → F) := by
  intro a b h
  cases a <;> cases b <;> simp_all

theorem bitValue_not [Field F] (b : Bool) : (bitValue (!b) : F) = 1 - bitValue b := by
  cases b <;> simp

theorem bitValue_and [Field F] (a b : Bool) : (bitValue (a && b) : F) = bitValue a * bitValue b := by
  cases a <;> cases b <;> simp

theorem bitValue_eq_natCast [Field F] (b : Bool) : (bitValue b : F) = (b.toNat : F) := by
  cases b <;> simp

/-! ## Booleans -/

namespace Boolean

/-- `Boolean::not`. -/
def neg : Boolean → Boolean
  | .is b => .not b
  | .not b => .is b
  | .constant c => .constant (!c)

/-- `Boolean::get_value`. -/
def getValue : Boolean → Option Bool
  | .is b => b.value
  | .not b => b.value.map (!·)
  | .constant c => some c

/-- `Boolean::lc(one, coeff)`. -/
def lc [Zero F] [One F] [Neg F] (b : Boolean) (coeff : F) : LinearCombination F :=
  match b with
  | .is b => .term coeff b.var
  | .not b => .term coeff .one - .term coeff b.var
  | .constant true => .term coeff .one
  | .constant false => .zero

/-- The prover knows the value. -/
def Known (b : Boolean) (v : Bool) : Prop := b.getValue = some v

/-- The value under an assignment. -/
def Reads [Field F] (w : Assignment F) (b : Boolean) (v : Bool) : Prop :=
  (b.lc 1).eval w = bitValue v

/-- The same wire, up to the value it carries. -/
def SameWire : Boolean → Boolean → Prop
  | .is a, .is b => a.var = b.var
  | .not a, .not b => a.var = b.var
  | .constant c, .constant d => c = d
  | _, _ => False

section

variable [Field F] {w : Assignment F} {b : Boolean} {v v' : Bool}

theorem eval_lc (w : Assignment F) (b : Boolean) (k : F) :
    (b.lc k).eval w = k * (b.lc 1).eval w := by
  cases b with
  | is b => simp [lc]
  | not b => simp [lc, mul_sub]
  | constant c => cases c <;> simp [lc]

theorem Reads.eval_lc (h : b.Reads w v) (k : F) : (b.lc k).eval w = k * bitValue v := by
  rw [Boolean.eval_lc, h]

theorem Reads.unique (h : b.Reads w v) (h' : b.Reads w v') : v = v' :=
  bitValue_injective (h.symm.trans h')

theorem Reads.neg (h : b.Reads w v) : b.neg.Reads w (!v) := by
  unfold Reads at h ⊢
  rw [bitValue_not, ← h]
  cases b with
  | is b => simp [Boolean.neg, lc]
  | not b => simp [Boolean.neg, lc]
  | constant c => cases c <;> simp [Boolean.neg, lc]

@[simp] theorem reads_constant (c : Bool) : (constant c).Reads w v ↔ c = v := by
  constructor
  · intro h
    refine bitValue_injective (F := F) ?_
    rw [← (h : _ = _)]
    cases c <;> simp [lc]
  · rintro rfl
    cases c <;> simp [Reads, lc]

theorem reads_is {a : AllocatedBit} : (is a).Reads w v ↔ w a.var = bitValue v := by
  simp [Reads, lc]

end

theorem Known.neg {b : Boolean} {v : Bool} (h : b.Known v) : b.neg.Known (!v) := by
  unfold Known at h ⊢
  cases b with
  | is b => simpa [Boolean.neg, getValue] using h
  | not b =>
    obtain ⟨u, hu, rfl⟩ := Option.map_eq_some_iff.mp h
    simpa [Boolean.neg, getValue] using hu
  | constant c => simpa [Boolean.neg, getValue] using h

@[simp] theorem known_constant (c v : Bool) : (constant c).Known v ↔ c = v := by
  simp [Known, getValue]

theorem SameWire.refl : ∀ b : Boolean, SameWire b b
  | .is _ => rfl
  | .not _ => rfl
  | .constant _ => rfl

theorem SameWire.symm {b b' : Boolean} (h : SameWire b b') : SameWire b' b := by
  cases b <;> cases b' <;> simp_all [SameWire]

theorem SameWire.neg {b b' : Boolean} (h : SameWire b b') : SameWire b.neg b'.neg := by
  cases b <;> cases b' <;> simp_all [SameWire, Boolean.neg]

theorem SameWire.lc_eq [Field F] {b b' : Boolean} (h : SameWire b b') (k : F) :
    b.lc k = b'.lc k := by
  cases b <;> cases b' <;> simp_all [SameWire, lc]

theorem SameWire.reads_iff [Field F] {w : Assignment F} {b b' : Boolean} (h : SameWire b b')
    (v : Bool) : b.Reads w v ↔ b'.Reads w v := by rw [Reads, Reads, h.lc_eq]

/-- The wire's variable is one of those already allocated. -/
def Below (n : Counts) : Boolean → Prop
  | .is b => b.var.Below n
  | .not b => b.var.Below n
  | .constant _ => True

/-- A wire reads only its variable. -/
theorem Reads.congr [Field F] {n : Counts} {w w₀ : Assignment F} {b : Boolean} {v : Bool}
    (h : b.Reads w₀ v) (hb : b.Below n) (hw : ∀ x : Variable, x.Below n → w x = w₀ x) :
    b.Reads w v := by
  unfold Reads at h ⊢
  rw [← h]
  cases b with
  | is b => simp [lc, hw b.var hb]
  | not b => simp [lc, hw b.var hb]
  | constant c => cases c <;> simp [lc]

/-- The same wire, carrying the value it reads as. -/
theorem Reads.exists_known [Field F] {w : Assignment F} {b : Boolean} {v : Bool} (h : b.Reads w v) :
    ∃ b', b.SameWire b' ∧ b'.Known v := by
  cases b with
  | is b => exact ⟨.is ⟨b.var, some v⟩, rfl, rfl⟩
  | not b => exact ⟨.not ⟨b.var, some !v⟩, rfl, by simp [Known, getValue]⟩
  | constant c =>
    obtain rfl := (reads_constant c).mp h
    exact ⟨.constant c, rfl, rfl⟩

end Boolean

/-! ## Bit strings -/

theorem forall₂_zip {α β γ δ : Type} {R : α → β → Prop} {S : γ → δ → Prop} {as : List α}
    {bs : List β} {cs : List γ} {ds : List δ} (h : List.Forall₂ R as bs)
    (h' : List.Forall₂ S cs ds) :
    List.Forall₂ (fun p q => R p.1 q.1 ∧ S p.2 q.2) (as.zip cs) (bs.zip ds) := by
  induction h generalizing cs ds with
  | nil => exact List.Forall₂.nil
  | cons hab _ ih =>
    cases h' with
    | nil => exact List.Forall₂.nil
    | cons hcd hcds => exact List.Forall₂.cons ⟨hab, hcd⟩ (ih hcds)

/-- The values under an assignment of a string of wires. -/
def ReadsAll [Field F] (w : Assignment F) (bs : List Boolean) (vs : List Bool) : Prop :=
  List.Forall₂ (Boolean.Reads w) bs vs

/-- The values the prover knows of a string of wires. -/
def KnownAll (bs : List Boolean) (vs : List Bool) : Prop := List.Forall₂ Boolean.Known bs vs

/-- The same string of wires, up to the values carried. -/
def SameWires (bs bs' : List Boolean) : Prop := List.Forall₂ Boolean.SameWire bs bs'

/-- The bits an assignment puts on a string of wires. -/
def readBits [Field F] [DecidableEq F] (w : Assignment F) (bs : List Boolean) : List Bool :=
  bs.map fun b => decide ((b.lc 1).eval w = 1)

section

variable [Field F] {w : Assignment F} {bs bs₁ bs₂ : List Boolean} {vs vs' vs₁ vs₂ : List Bool}

theorem ReadsAll.length_eq (h : ReadsAll w bs vs) : bs.length = vs.length := List.Forall₂.length_eq h

theorem KnownAll.length_eq (h : KnownAll bs vs) : bs.length = vs.length := List.Forall₂.length_eq h

theorem ReadsAll.append (h₁ : ReadsAll w bs₁ vs₁) (h₂ : ReadsAll w bs₂ vs₂) :
    ReadsAll w (bs₁ ++ bs₂) (vs₁ ++ vs₂) := List.rel_append h₁ h₂

theorem KnownAll.append (h₁ : KnownAll bs₁ vs₁) (h₂ : KnownAll bs₂ vs₂) :
    KnownAll (bs₁ ++ bs₂) (vs₁ ++ vs₂) := List.rel_append h₁ h₂

theorem SameWires.append {bs bs' cs cs' : List Boolean} (h₁ : SameWires bs bs')
    (h₂ : SameWires cs cs') : SameWires (bs ++ cs) (bs' ++ cs') := List.rel_append h₁ h₂

theorem SameWires.refl (bs : List Boolean) : SameWires bs bs :=
  List.forall₂_same.mpr fun b _ => Boolean.SameWire.refl b

theorem SameWires.symm {bs bs' : List Boolean} (h : SameWires bs bs') : SameWires bs' bs :=
  h.flip.imp fun _ _ => Boolean.SameWire.symm

theorem SameWires.length_eq {bs bs' : List Boolean} (h : SameWires bs bs') :
    bs.length = bs'.length := List.Forall₂.length_eq h

theorem SameWires.readsAll {bs' : List Boolean} (h : SameWires bs bs') (h' : ReadsAll w bs' vs) :
    ReadsAll w bs vs := by
  induction h generalizing vs with
  | nil => exact h'
  | cons hb _ ih =>
    cases h' with
    | cons hv hvs => exact .cons ((hb.reads_iff _).mpr hv) (ih hvs)

theorem ReadsAll.congr {n : Counts} {w₀ : Assignment F} (h : ReadsAll w₀ bs vs)
    (hbs : ∀ b ∈ bs, b.Below n) (hw : ∀ x : Variable, x.Below n → w x = w₀ x) :
    ReadsAll w bs vs := by
  induction h with
  | nil => exact .nil
  | cons hb _ ih =>
    exact .cons (hb.congr (hbs _ List.mem_cons_self) hw)
      (ih fun b hb => hbs b (List.mem_cons_of_mem _ hb))

theorem ReadsAll.exists_known (h : ReadsAll w bs vs) : ∃ bs', SameWires bs bs' ∧ KnownAll bs' vs := by
  induction h with
  | nil => exact ⟨[], .nil, .nil⟩
  | cons hb _ ih =>
    obtain ⟨b', hw, hk⟩ := hb.exists_known
    obtain ⟨bs', hws, hks⟩ := ih
    exact ⟨b' :: bs', .cons hw hws, .cons hk hks⟩

theorem ReadsAll.unique (h : ReadsAll w bs vs) (h' : ReadsAll w bs vs') : vs = vs' := by
  induction h generalizing vs' with
  | nil => cases h'; rfl
  | cons hb _ ih =>
    cases h' with
    | cons hb' hbs' => rw [hb.unique hb', ih hbs']

/-- Constants read as themselves. -/
theorem readsAll_constant (vs : List Bool) : ReadsAll w (vs.map Boolean.constant) vs := by
  induction vs with
  | nil => exact List.Forall₂.nil
  | cons v vs ih => exact List.Forall₂.cons ((Boolean.reads_constant v).mpr rfl) ih

theorem knownAll_constant (vs : List Bool) : KnownAll (vs.map Boolean.constant) vs := by
  induction vs with
  | nil => exact List.Forall₂.nil
  | cons v vs ih => exact List.Forall₂.cons ((Boolean.known_constant v v).mpr rfl) ih

/-- The values carried, as a list. -/
theorem KnownAll.map_getValue (h : KnownAll bs vs) : bs.map Boolean.getValue = vs.map some := by
  induction h with
  | nil => rfl
  | cons hb _ ih => rw [List.map_cons, List.map_cons, (hb : _ = _), ih]

theorem KnownAll.of_map_getValue (h : bs.map Boolean.getValue = vs.map some) : KnownAll bs vs := by
  induction bs generalizing vs with
  | nil =>
    obtain rfl : vs = [] := by simpa using h
    exact .nil
  | cons b bs ih =>
    cases vs with
    | nil => cases h
    | cons v vs =>
      obtain ⟨hb, hbs⟩ := List.cons.inj h
      exact .cons hb (ih hbs)

/-- Wires that read as bits read as `readBits`. -/
theorem ReadsAll.readBits_eq [DecidableEq F] (h : ReadsAll w bs vs) : readBits w bs = vs := by
  induction h with
  | nil => rfl
  | @cons b v bs vs hb _ ih =>
    have hv : decide ((bitValue v : F) = 1) = v := by cases v <;> simp
    unfold readBits
    rw [List.map_cons, ← readBits, ih, (hb : _ = _), hv]

end

/-! ## Numbers -/

namespace AllocatedNum

/-- `AllocatedNum::alloc`: a variable with the value computed, if it was. -/
def alloc (f : Except SynthesisError F) : Synth F (AllocatedNum F) := do
  let r ← Synth.alloc f
  return ⟨r.2, r.1⟩

/-- The number's linear combination. -/
def lc [One F] (a : AllocatedNum F) : LinearCombination F := .var a.var

/-- `Num::from`. -/
def toNum [One F] (a : AllocatedNum F) : Num F := ⟨a.value, a.lc⟩

/-- `get_value().get()?`. -/
def get (a : AllocatedNum F) : Except SynthesisError F :=
  match a.value with
  | some v => .ok v
  | none => .error .assignmentMissing

theorem get_of_value {a : AllocatedNum F} {x : F} (h : a.value = some x) : a.get = .ok x := by
  simp [get, h]

end AllocatedNum

namespace Num

/-- `get_value().get()?`. -/
def get (a : Num F) : Except SynthesisError F :=
  match a.value with
  | some v => .ok v
  | none => .error .assignmentMissing

theorem get_of_value {a : Num F} {x : F} (h : a.value = some x) : a.get = .ok x := by
  simp [get, h]

end Num

/-- `invert`, with the error of a division by zero. -/
def divide [Field F] [DecidableEq F] (a b : F) : Except SynthesisError F :=
  if b = 0 then .error .divisionByZero else .ok (a * b⁻¹)

theorem divide_of_ne_zero [Field F] [DecidableEq F] {a b : F} (hb : b ≠ 0) :
    divide a b = .ok (a / b) := by
  unfold divide
  rw [if_neg hb, div_eq_mul_inv]

namespace AllocatedNum

theorem honest_alloc [Field F] {n : Counts} {f : Except SynthesisError F} {v : F} (hf : f = .ok v)
    (pre : Assignment F → Prop) :
    Synth.Honest n (alloc f) pre (fun a => a.value = some v) fun w a => w a.var = v :=
  (Synth.Honest.alloc hf pre).bind fun _ _ hr => Synth.Honest.pure hr fun _ hp => hp.2

/-- The variable is the next auxiliary one. -/
theorem var_alloc {f : Except SynthesisError F} {md : Mode} {n : Counts} {a : AllocatedNum F}
    {ops : List (Op F)} (h : alloc f md n = .ok (a, ops)) : a.var = .aux n.aux := by
  obtain ⟨r, o₁, o₂, hr, hp, -⟩ := Synth.bind_eq_ok.mp h
  obtain ⟨rfl, -⟩ := Synth.pure_eq_ok.mp hp
  cases md with
  | setup => cases hr; rfl
  | prove =>
    cases f with
    | error e => cases hr
    | ok v => cases hr; rfl

theorem sound_alloc [Field F] (f : Except SynthesisError F) :
    Synth.Sound (alloc f) fun _ _ => True :=
  fun _ _ _ _ _ _ _ => trivial

theorem sameLayout_alloc (f f' : Except SynthesisError F) :
    Synth.SameLayout (fun a a' => a.var = a'.var) (alloc f) (alloc f') :=
  (Synth.SameLayout.alloc f f').bind fun _ _ h => Synth.SameLayout.pure h

theorem setsUp_alloc (f : Except SynthesisError F) : Synth.SetsUp (alloc f) fun _ => True :=
  (Synth.SetsUp.alloc f).bind fun _ _ => Synth.SetsUp.pure trivial

theorem auxOnly_alloc (f : Except SynthesisError F) : Synth.AuxOnly (alloc f) :=
  (Synth.AuxOnly.alloc f).bind fun _ => Synth.AuxOnly.pure _

end AllocatedNum

end ProviiCrypto
