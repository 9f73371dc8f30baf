import ProviiCrypto.Bellman.Interface
import ProviiCrypto.Commons.Basic

/-!
# `gadgets::bits`

Allocation of bit strings, equality of bit strings, the direction mux and the comparison.

* `allocBits_*`: the one fact about every allocation: the wires are bits, and while proving they
  carry and read as the given values.
* `enforceGe_sound`: the borrow chain. The invariant of the loop is that the operands from the
  current position on, with the borrow into it, still compare.
-/

namespace ProviiCrypto

open R1CS R1CS.Synth Number

variable {H : Blake2s} (B : Bellman H)

/-! ## Allocation -/

/-- `AllocatedBit::alloc` over a string of values, each as `Boolean::Is`. -/
def allocBits (values : List (Option Bool)) : Synth Scalar (List Boolean) :=
  values.mapM fun v => do return .is (← B.allocBit v)

/-- `alloc_bytes_witness_fixed`. -/
def allocBytesWitnessFixed (value : Option (List UInt8)) (expectedBytes : ℕ) :
    Synth Scalar (List Boolean) :=
  match value with
  | some bytes =>
    if bytes.length ≠ expectedBytes then throw .unsatisfiable
    else allocBits B (bytes.flatMap fun byte => (u8Bits byte).map some)
  | none => allocBits B (List.replicate (expectedBytes * 8) none)

/-- `alloc_u32_input`. -/
def allocU32Input (value : UInt32) : Synth Scalar (List Boolean) :=
  allocBits B ((u32Bits value).map some)

/-- `alloc_u32_witness`. -/
def allocU32Witness (value : Option UInt32) : Synth Scalar (List Boolean) :=
  allocBits B ((List.range 32).map fun i => value.map fun v => (v >>> i.toUInt32) &&& 1 == 1)

/-- `alloc_u8_bits`. -/
def allocU8Bits (value : Option UInt8) : Synth Scalar (List Boolean) :=
  allocBits B ((List.range 8).map fun i => value.map fun b => (b >>> i.toUInt8) &&& 1 == 1)

/-- `alloc_u8_witness`. -/
def allocU8Witness (value : Option UInt8) : Synth Scalar (List Boolean) := allocU8Bits B value

/-- `alloc_u64_witness`: the bytes big-endian, the bits of each little-endian. -/
def allocU64Witness (value : Option UInt64) : Synth Scalar (List Boolean) := do
  let bytes ← (List.range 8).mapM fun i =>
    allocU8Bits B (value.map fun v : UInt64 => (v >>> (8 * (7 - i.toUInt64)) &&& 0xff).toUInt8)
  return bytes.flatten

/-- `alloc_bytes_input`. -/
def allocBytesInput (bytes : List UInt8) : Synth Scalar (List Boolean) :=
  allocBits B (bytes.flatMap fun b => (u8Bits b).map some)

/-- `alloc_bool_vec_witness_fixed`. -/
def allocBoolVecWitnessFixed (bits : Option (List Bool)) (expectedLen : ℕ) :
    Synth Scalar (List Boolean) :=
  match bits with
  | some b =>
    if b.length ≠ expectedLen then throw .unsatisfiable else allocBits B (b.map some)
  | none => allocBits B (List.replicate expectedLen none)

/-- The constant wires of a byte. -/
def constantByte (b : UInt8) : List Boolean := (u8Bits b).map .constant

@[simp] theorem length_constantByte (b : UInt8) : (constantByte b).length = 8 := by
  rw [constantByte, u8Bits_eq, List.length_map, length_byteBits]

theorem length_flatMap_constantByte (bytes : List UInt8) :
    (bytes.flatMap constantByte).length = 8 * bytes.length := by
  simp [List.length_flatMap, mul_comm]

/-- Allocated wires are bits, as many as values. -/
theorem allocBits_sound (values : List (Option Bool)) :
    Sound (allocBits B values) fun w bs => ∃ vs, vs.length = values.length ∧ ReadsAll w bs vs := by
  refine (Sound.mapM (Q := fun _ w b => ∃ x, Boolean.Reads w b x) fun v _ => ?_).mono ?_
  · exact Sound.bind (B.allocBit_sound v) fun b => Sound.pure fun w ⟨x, hx⟩ =>
      ⟨x, Boolean.reads_is.mpr hx⟩
  · intro w bs h
    induction h with
    | nil => exact ⟨[], rfl, List.Forall₂.nil⟩
    | cons hb _ ih =>
      obtain ⟨x, hx⟩ := hb
      obtain ⟨vs, hlen, hvs⟩ := ih
      exact ⟨x :: vs, by simp [hlen], List.Forall₂.cons hx hvs⟩

theorem allocBits_honest (n : Counts) (vs : List Bool) (pre : Assignment Scalar → Prop) :
    Honest n (allocBits B (vs.map some)) pre (fun bs => KnownAll bs vs)
      fun w bs => ReadsAll w bs vs := by
  have hbit : ∀ v x, v = some x → ∀ n, Honest n (do return Boolean.is (← B.allocBit v))
      (fun w => pre w ∧ True) (fun b => b.Known x) fun w b => b.Reads w x := by
    rintro _ x rfl n
    exact (B.allocBit_honest n x _).bind fun b _ hb =>
      Honest.pure hb fun w hw => Boolean.reads_is.mpr hw.2
  have hvs : List.Forall₂ (fun v x => v = some x) (vs.map some) vs := by
    rw [List.forall₂_map_left_iff]
    exact List.forall₂_same.mpr fun _ _ => rfl
  refine (Honest.mapM (P := fun _ _ _ => True) hbit hvs n).mono (fun w hp => ⟨hp, ?_⟩)
    (fun _ h => h.flip) fun _ _ _ _ h => h.flip
  exact hvs.imp fun _ _ _ => trivial

/-- Allocated bits take the values they are given. -/
theorem allocBits_computes (vs : List Bool) :
    Computes (allocBits B (vs.map some)) fun w bs => ReadsAll w bs vs :=
  Honest.computes fun n => allocBits_honest B n vs _

theorem allocBits_layout {values values' : List (Option Bool)}
    (h : values.length = values'.length) :
    SameLayout SameWires (allocBits B values) (allocBits B values') := by
  refine SameLayout.mapM (P := fun _ _ => True) (fun v v' _ => ?_) ?_
  · exact SameLayout.bind (B.allocBit_layout v v') fun b b' hb => SameLayout.pure hb
  · rw [List.forall₂_iff_get]
    exact ⟨h, fun _ _ _ => trivial⟩

theorem allocBits_auxOnly (values : List (Option Bool)) : AuxOnly (allocBits B values) :=
  AuxOnly.mapM (fun v => (B.allocBit_auxOnly v).bind fun _ => AuxOnly.pure _) values

/-- The values the wires carry are the values given, in either mode. -/
theorem allocBits_value {values : List (Option Bool)} {md : Mode} {n : Counts} {bs : List Boolean}
    {ops : List (Op Scalar)} (h : allocBits B values md n = .ok (bs, ops)) :
    bs.map Boolean.getValue = values := by
  induction values generalizing n bs ops with
  | nil =>
    obtain ⟨rfl, -⟩ := pure_eq_ok.mp h
    rfl
  | cons v values ih =>
    unfold allocBits at h
    rw [List.mapM_cons] at h
    obtain ⟨b, o₁, o₂, hb, h, -⟩ := bind_eq_ok.mp h
    obtain ⟨bs', o₃, o₄, hbs, h, -⟩ := bind_eq_ok.mp h
    obtain ⟨a, o₅, o₆, ha, hpure, -⟩ := bind_eq_ok.mp hb
    obtain ⟨rfl, -⟩ := pure_eq_ok.mp hpure
    obtain ⟨rfl, -⟩ := pure_eq_ok.mp h
    rw [List.map_cons, ih hbs, Boolean.getValue, B.allocBit_value v _ _ _ _ ha]

/-- Bits that are known are known of the wires. -/
theorem allocBits_known (values : List Bool) :
    Returns (allocBits B (values.map some)) fun bs => KnownAll bs values := by
  intro md n bs ops h
  exact KnownAll.of_map_getValue (allocBits_value B h)

/-! ### The allocators as `allocBits`

With a value they allocate its bits; without one, as many bits of unknown value. -/

/-- The bits of a value that may be unknown. -/
def knownBits (k : ℕ) (bits : Option (List Bool)) : List (Option Bool) :=
  match bits with
  | some bs => bs.map some
  | none => List.replicate k none

theorem length_knownBits {k : ℕ} {bits : Option (List Bool)} (h : ∀ bs ∈ bits, bs.length = k) :
    (knownBits k bits).length = k := by
  cases bits with
  | none => simp [knownBits]
  | some bs => simpa [knownBits] using h bs rfl

theorem allocBytesWitnessFixed_eq (value : Option (List UInt8)) (k : ℕ)
    (h : ∀ bytes ∈ value, bytes.length = k) :
    allocBytesWitnessFixed B value k = allocBits B (knownBits (8 * k) (value.map bytesBits)) := by
  cases value with
  | none => simp [allocBytesWitnessFixed, knownBits, Nat.mul_comm]
  | some bytes =>
    rw [allocBytesWitnessFixed, if_neg (by simp [h bytes rfl]), ← List.map_flatMap, flatMap_u8Bits]
    rfl

theorem allocU32Input_eq (value : UInt32) :
    allocU32Input B value = allocBits B ((toBits 32 value.toNat).map some) := by
  unfold allocU32Input
  rw [u32Bits_eq]

theorem allocU32Witness_eq (value : Option UInt32) :
    allocU32Witness B value =
      allocBits B (knownBits 32 (value.map fun v => toBits 32 v.toNat)) := by
  cases value with
  | none => rfl
  | some v =>
    rw [Option.map_some, ← u32Bits_eq, allocU32Witness, knownBits, u32Bits, List.map_map]
    rfl

theorem allocU8Bits_eq (value : Option UInt8) :
    allocU8Bits B value = allocBits B (knownBits 8 (value.map byteBits)) := by
  cases value with
  | none => rfl
  | some v =>
    rw [Option.map_some, ← u8Bits_eq, allocU8Bits, knownBits, u8Bits, List.map_map]
    rfl

theorem allocBytesInput_eq (bytes : List UInt8) :
    allocBytesInput B bytes = allocBits B ((bytesBits bytes).map some) := by
  unfold allocBytesInput
  rw [← List.map_flatMap, flatMap_u8Bits]

theorem allocBoolVecWitnessFixed_eq (bits : Option (List Bool)) (k : ℕ)
    (h : ∀ bs ∈ bits, bs.length = k) :
    allocBoolVecWitnessFixed B bits k = allocBits B (knownBits k bits) := by
  cases bits with
  | none => rfl
  | some bs => rw [allocBoolVecWitnessFixed, if_neg (by simp [h bs rfl])]; rfl

theorem allocBits_append (xs ys : List (Option Bool)) :
    allocBits B (xs ++ ys) = do
      let bs ← allocBits B xs
      let cs ← allocBits B ys
      return bs ++ cs := by
  simp only [allocBits, List.mapM_append]

private theorem allocBits_flatten {α : Type} (f : α → List (Option Bool)) (xs : List α) :
    (do let bss ← xs.mapM fun x => allocBits B (f x); return bss.flatten) =
      allocBits B (xs.flatMap f) := by
  induction xs with
  | nil => rfl
  | cons x xs ih =>
    rw [List.flatMap_cons, allocBits_append, ← ih, List.mapM_cons]
    simp

theorem allocU64Witness_eq (value : Option UInt64) :
    allocU64Witness B value = allocBits B (knownBits 64 (value.map fun v => bytesBits (u64Be v))) := by
  simp only [allocU64Witness, allocU8Bits_eq]
  rw [allocBits_flatten]
  cases value with
  | none => rfl
  | some v =>
    simp only [Option.map_some, knownBits, bytesBits, u64Be, List.flatMap_map, List.map_flatMap]

/-! ### What the allocators have in common -/

/-- A synthesiser that allocates `k` bits, or refuses. -/
def AllocatesBits (k : ℕ) (m : Synth Scalar (List Boolean)) : Prop :=
  (∃ values, values.length = k ∧ m = allocBits B values) ∨ ∃ e, m = Synth.throw e

namespace AllocatesBits

variable {B} {k : ℕ} {m m' : Synth Scalar (List Boolean)}

theorem sound (h : AllocatesBits B k m) :
    Sound m fun w bs => ∃ vs, vs.length = k ∧ ReadsAll w bs vs := by
  rcases h with ⟨values, rfl, rfl⟩ | ⟨e, rfl⟩
  · exact allocBits_sound B values
  · exact Sound.throw

theorem layout (h : AllocatesBits B k m) (h' : AllocatesBits B k m') :
    SameLayout SameWires m m' := by
  rcases h with ⟨values, hlen, rfl⟩ | ⟨e, rfl⟩
  · rcases h' with ⟨values', hlen', rfl⟩ | ⟨e, rfl⟩
    · exact allocBits_layout B (hlen.trans hlen'.symm)
    · exact SameLayout.throw_right
  · exact SameLayout.throw_left

theorem auxOnly (h : AllocatesBits B k m) : AuxOnly m := by
  rcases h with ⟨values, -, rfl⟩ | ⟨e, rfl⟩
  · exact allocBits_auxOnly B values
  · exact AuxOnly.throw e

end AllocatesBits

private theorem allocatesBits_known {k : ℕ} {bits : Option (List Bool)}
    (h : ∀ bs ∈ bits, bs.length = k) : AllocatesBits B k (allocBits B (knownBits k bits)) :=
  .inl ⟨_, length_knownBits h, rfl⟩

private theorem length_of_mem_map {α : Type} {f : α → List Bool} {k : ℕ} (hf : ∀ a, (f a).length = k)
    {o : Option α} : ∀ bs ∈ o.map f, bs.length = k := by
  intro bs hbs
  obtain ⟨a, -, rfl⟩ := Option.map_eq_some_iff.mp hbs
  exact hf a

theorem allocatesBits_bytes (value : Option (List UInt8)) (k : ℕ) :
    AllocatesBits B (8 * k) (allocBytesWitnessFixed B value k) := by
  by_cases h : ∀ bytes ∈ value, bytes.length = k
  · rw [allocBytesWitnessFixed_eq B value k h]
    refine allocatesBits_known B fun bs hbs => ?_
    obtain ⟨bytes, hb, rfl⟩ := Option.map_eq_some_iff.mp hbs
    rw [length_bytesBits, h bytes hb]
  · cases value with
    | none => exact absurd (by simp) h
    | some bytes =>
      refine .inr ⟨.unsatisfiable, ?_⟩
      rw [allocBytesWitnessFixed, if_pos fun hlen => h fun b hb => Option.mem_some.mp hb ▸ hlen]

theorem allocatesBits_boolVec (bits : Option (List Bool)) (k : ℕ) :
    AllocatesBits B k (allocBoolVecWitnessFixed B bits k) := by
  by_cases h : ∀ bs ∈ bits, bs.length = k
  · rw [allocBoolVecWitnessFixed_eq B bits k h]
    exact allocatesBits_known B h
  · cases bits with
    | none => exact absurd (by simp) h
    | some bs =>
      refine .inr ⟨.unsatisfiable, ?_⟩
      rw [allocBoolVecWitnessFixed, if_pos fun hlen => h fun b hb => Option.mem_some.mp hb ▸ hlen]

theorem allocatesBits_u32 (value : Option UInt32) : AllocatesBits B 32 (allocU32Witness B value) := by
  rw [allocU32Witness_eq]
  exact allocatesBits_known B (length_of_mem_map fun _ => length_toBits _ _)

theorem allocatesBits_u8 (value : Option UInt8) : AllocatesBits B 8 (allocU8Witness B value) := by
  unfold allocU8Witness
  rw [allocU8Bits_eq]
  exact allocatesBits_known B (length_of_mem_map length_byteBits)

theorem allocatesBits_u64 (value : Option UInt64) : AllocatesBits B 64 (allocU64Witness B value) := by
  rw [allocU64Witness_eq]
  exact allocatesBits_known B (length_of_mem_map fun v => by simp)

/-! ## Equality -/

/-- `enforce_bits_equal`. -/
def enforceBitsEqual (a b : List Boolean) : Synth Scalar Unit :=
  if a.length ≠ b.length then throw .unsatisfiable
  else (a.zip b).forM fun (x, y) => enforce (x.lc 1) (.var .one) (y.lc 1)

theorem enforceBitsEqual_sound (a b : List Boolean) :
    Sound (enforceBitsEqual a b) fun w _ => ∀ vs, ReadsAll w a vs → ReadsAll w b vs := by
  unfold enforceBitsEqual
  split
  · exact Sound.throw
  · rename_i hlen
    refine (Sound.forM (Q := fun p w => (p.1.lc 1).eval w = (p.2.lc 1).eval w) fun p _ =>
      (Sound.enforce _ _ _).mono fun w _ h => by simpa using h).mono fun w _ h vs hvs => ?_
    have hlen : b.length = a.length := by omega
    refine List.forall₂_iff_get.mpr ⟨hlen.trans hvs.length_eq, fun i hi hi' => ?_⟩
    have ha := (List.forall₂_iff_get.mp hvs).2 i (by omega) hi'
    have := h (a[i], b[i]) (List.mem_iff_getElem.mpr ⟨i, by simp; omega, by simp⟩)
    exact this.symm.trans ha

theorem enforceBitsEqual_honest (n : Counts) {a b : List Boolean} {vs : List Bool}
    (ha : a.length = vs.length) (hb : b.length = vs.length) :
    Honest n (enforceBitsEqual a b) (fun w => ReadsAll w a vs ∧ ReadsAll w b vs) (fun _ => True)
      fun _ _ => True := by
  unfold enforceBitsEqual
  rw [if_neg (by omega)]
  refine Honest.forM fun p hp n => Honest.enforce fun w ⟨hwa, hwb⟩ => ?_
  obtain ⟨i, hi, rfl⟩ := List.mem_iff_getElem.mp hp
  simp only [List.length_zip, lt_min_iff] at hi
  have h₁ := (List.forall₂_iff_get.mp hwa).2 i hi.1 (by omega)
  have h₂ := (List.forall₂_iff_get.mp hwb).2 i hi.2 (by omega)
  simp only [List.getElem_zip]
  rw [LinearCombination.eval_var, Assignment.apply_one, mul_one]
  exact h₁.trans h₂.symm

theorem enforceBitsEqual_layout {a a' b b' : List Boolean} (ha : SameWires a a')
    (hb : SameWires b b') :
    SameLayout (fun _ _ => True) (enforceBitsEqual a b) (enforceBitsEqual a' b') := by
  unfold enforceBitsEqual
  rw [ha.length_eq, hb.length_eq]
  split
  · exact SameLayout.throw_left
  · exact SameLayout.forM (fun p q h => SameLayout.enforce (h.1.lc_eq 1) rfl (h.2.lc_eq 1))
      (forall₂_zip ha hb)

theorem enforceBitsEqual_auxOnly (a b : List Boolean) : AuxOnly (enforceBitsEqual a b) := by
  unfold enforceBitsEqual
  split
  · exact AuxOnly.throw _
  · exact AuxOnly.forM (fun _ => AuxOnly.enforce _ _ _) _

/-! ## The mux -/

/-- The value of `if d { a } else { b }`, when all three are known. -/
def muxValue (d a b : Option Bool) : Option Bool :=
  match d, a, b with
  | some d, some a, some b => some (if d then a else b)
  | _, _, _ => none

/-- One position of `conditional_swap`: the left and the right output bit. -/
def swapBit (direction a b : Boolean) : Synth Scalar (Boolean × Boolean) := do
  let left ← B.allocBit (muxValue direction.getValue a.getValue b.getValue)
  enforce (direction.lc 1) (a.lc 1 - b.lc 1) (.var left.var - b.lc 1)
  let right ← B.allocBit (muxValue direction.getValue b.getValue a.getValue)
  enforce (direction.lc 1) (b.lc 1 - a.lc 1) (.var right.var - a.lc 1)
  return (.is left, .is right)

/-- `conditional_swap`: `(a, b)` when the direction bit is set, `(b, a)` when it is not. -/
def conditionalSwap (direction : Boolean) (a b : List Boolean) :
    Synth Scalar (List Boolean × List Boolean) :=
  if a.length ≠ b.length then throw .unsatisfiable
  else do
    let pairs ← (a.zip b).mapM fun (x, y) => swapBit B direction x y
    return (pairs.map (·.1), pairs.map (·.2))

theorem swapBit_sound (direction a b : Boolean) :
    Sound (swapBit B direction a b) fun w r => ∀ d x y, direction.Reads w d → a.Reads w x →
      b.Reads w y → r.1.Reads w (if d then x else y) ∧ r.2.Reads w (if d then y else x) := by
  refine Sound.bind (B.allocBit_sound _) fun left => Sound.bind (Sound.enforce _ _ _) fun _ =>
    Sound.bind (B.allocBit_sound _) fun right => Sound.bind (Sound.enforce _ _ _) fun _ =>
    Sound.pure fun w hr _ hl _ d x y hd hx hy => ?_
  simp only [LinearCombination.eval_sub, LinearCombination.eval_var, hd.eval_lc, hx.eval_lc,
    hy.eval_lc, one_mul] at hr hl
  rw [Boolean.reads_is, Boolean.reads_is]
  cases d with
  | true => exact ⟨by simpa [eq_comm] using hl, by simpa [eq_comm] using hr⟩
  | false =>
    exact ⟨sub_eq_zero.mp (by simpa using hl.symm), sub_eq_zero.mp (by simpa using hr.symm)⟩

theorem swapBit_honest (n : Counts) {direction a b : Boolean} {d x y : Bool}
    (hd : direction.Known d) (ha : a.Known x) (hb : b.Known y) :
    Honest n (swapBit B direction a b)
      (fun w => direction.Reads w d ∧ a.Reads w x ∧ b.Reads w y)
      (fun r => r.1.Known (if d then x else y) ∧ r.2.Known (if d then y else x))
      fun w r => r.1.Reads w (if d then x else y) ∧ r.2.Reads w (if d then y else x) := by
  unfold swapBit
  rw [show muxValue direction.getValue a.getValue b.getValue = some (if d then x else y) by
      rw [hd, ha, hb]; rfl,
    show muxValue direction.getValue b.getValue a.getValue = some (if d then y else x) by
      rw [hd, ha, hb]; rfl]
  refine (B.allocBit_honest n _ _).bind fun left _ hl => ?_
  refine (Honest.enforce ?_).bind fun _ _ _ => ?_
  · rintro w ⟨⟨hwd, hwa, hwb⟩, hwl⟩
    simp only [LinearCombination.eval_sub, LinearCombination.eval_var, hwd.eval_lc, hwa.eval_lc,
      hwb.eval_lc, one_mul, hwl]
    cases d <;> simp
  refine (B.allocBit_honest _ _ _).bind fun right _ hr => ?_
  refine (Honest.enforce ?_).bind fun _ _ _ => Honest.pure ⟨hl, hr⟩ ?_
  · rintro w ⟨⟨⟨⟨hwd, hwa, hwb⟩, -⟩, -⟩, hwr⟩
    simp only [LinearCombination.eval_sub, LinearCombination.eval_var, hwd.eval_lc, hwa.eval_lc,
      hwb.eval_lc, one_mul, hwr]
    cases d <;> simp
  · rintro w ⟨⟨⟨⟨-, hwl⟩, -⟩, hwr⟩, -⟩
    exact ⟨Boolean.reads_is.mpr hwl, Boolean.reads_is.mpr hwr⟩

private theorem unzip_forall₂ {R : Boolean → Bool → Prop} {d : Bool} {xs ys : List Bool}
    {pairs : List (Boolean × Boolean)} (hlen : xs.length = ys.length)
    (h : List.Forall₂ (fun q r => R r.1 (if d then q.1 else q.2) ∧ R r.2 (if d then q.2 else q.1))
      (xs.zip ys) pairs) :
    List.Forall₂ R (pairs.map (·.1)) (if d then xs else ys) ∧
      List.Forall₂ R (pairs.map (·.2)) (if d then ys else xs) := by
  have hx : (xs.zip ys).map (·.1) = xs := List.map_fst_zip hlen.le
  have hy : (xs.zip ys).map (·.2) = ys := List.map_snd_zip hlen.ge
  have h₁ := (h.imp fun _ _ h => h.1).flip
  have h₂ := (h.imp fun _ _ h => h.2).flip
  cases d
  · refine ⟨List.forall₂_map_left_iff.mpr ?_, List.forall₂_map_left_iff.mpr ?_⟩
    · exact hy ▸ List.forall₂_map_right_iff.mpr h₁
    · exact hx ▸ List.forall₂_map_right_iff.mpr h₂
  · refine ⟨List.forall₂_map_left_iff.mpr ?_, List.forall₂_map_left_iff.mpr ?_⟩
    · exact hx ▸ List.forall₂_map_right_iff.mpr h₁
    · exact hy ▸ List.forall₂_map_right_iff.mpr h₂

/-- **The mux**: the outputs are the operands, in the order the direction says. -/
theorem conditionalSwap_sound (direction : Boolean) (a b : List Boolean) :
    Sound (conditionalSwap B direction a b) fun w r => ∀ d xs ys, direction.Reads w d →
      ReadsAll w a xs → ReadsAll w b ys →
      ReadsAll w r.1 (if d then xs else ys) ∧ ReadsAll w r.2 (if d then ys else xs) := by
  unfold conditionalSwap
  split
  · exact Sound.throw
  · rename_i hlen
    refine Sound.bind (Sound.mapM fun p _ => swapBit_sound B direction p.1 p.2) fun pairs =>
      Sound.pure fun w h d xs ys hd hxs hys => ?_
    refine unzip_forall₂ (by rw [← hxs.length_eq, ← hys.length_eq]; omega) ?_
    obtain ⟨hpl, hget⟩ := List.forall₂_iff_get.mp h
    obtain ⟨hzl, hzget⟩ := List.forall₂_iff_get.mp (forall₂_zip hxs hys)
    refine List.forall₂_iff_get.mpr ⟨by omega, fun i hi hi' => ?_⟩
    obtain ⟨hx, hy⟩ := hzget i (by omega) hi
    exact hget i (by omega) hi' d _ _ hd hx hy

theorem conditionalSwap_honest (n : Counts) {direction : Boolean} {a b : List Boolean} {d : Bool}
    {xs ys : List Bool} (hd : direction.Known d) (ha : KnownAll a xs) (hb : KnownAll b ys)
    (hlen : xs.length = ys.length) :
    Honest n (conditionalSwap B direction a b)
      (fun w => direction.Reads w d ∧ ReadsAll w a xs ∧ ReadsAll w b ys)
      (fun r => KnownAll r.1 (if d then xs else ys) ∧ KnownAll r.2 (if d then ys else xs))
      fun w r => ReadsAll w r.1 (if d then xs else ys) ∧ ReadsAll w r.2 (if d then ys else xs) := by
  have hal := ha.length_eq
  have hbl := hb.length_eq
  unfold conditionalSwap
  rw [if_neg (by omega)]
  refine Honest.bind ((Honest.mapM (A := fun w => direction.Reads w d)
    (P := fun w p q => p.1.Reads w q.1 ∧ p.2.Reads w q.2)
    (fun p q h n => swapBit_honest B n hd h.1 h.2) (forall₂_zip ha hb) n).of_pre fun w hp =>
      ⟨hp.1, forall₂_zip hp.2.1 hp.2.2⟩)
    fun pairs _ hpairs => Honest.pure (unzip_forall₂ hlen hpairs) fun w hw => ?_
  exact unzip_forall₂ hlen hw.2

theorem conditionalSwap_layout {direction direction' : Boolean} {a a' b b' : List Boolean}
    (hd : direction.SameWire direction') (ha : SameWires a a') (hb : SameWires b b') :
    SameLayout (fun r r' => SameWires r.1 r'.1 ∧ SameWires r.2 r'.2)
      (conditionalSwap B direction a b) (conditionalSwap B direction' a' b') := by
  unfold conditionalSwap
  rw [ha.length_eq, hb.length_eq]
  split
  · exact SameLayout.throw_left
  refine SameLayout.bind (SameLayout.mapM (R := fun r r' => r.1.SameWire r'.1 ∧ r.2.SameWire r'.2)
    (fun p q h => ?_) (forall₂_zip ha hb)) fun r r' h => SameLayout.pure ⟨?_, ?_⟩
  · obtain ⟨h₁, h₂⟩ := h
    refine SameLayout.bind (B.allocBit_layout _ _) fun l l' hl => ?_
    refine SameLayout.bind (SameLayout.enforce (hd.lc_eq 1) (by rw [h₁.lc_eq, h₂.lc_eq])
      (by rw [hl, h₂.lc_eq])) fun _ _ _ => ?_
    refine SameLayout.bind (B.allocBit_layout _ _) fun r r' hr => ?_
    refine SameLayout.bind (SameLayout.enforce (hd.lc_eq 1) (by rw [h₁.lc_eq, h₂.lc_eq])
      (by rw [hr, h₁.lc_eq])) fun _ _ _ => ?_
    exact SameLayout.pure ⟨hl, hr⟩
  · exact List.forall₂_map_left_iff.mpr (List.forall₂_map_right_iff.mpr (h.imp fun _ _ h => h.1))
  · exact List.forall₂_map_left_iff.mpr (List.forall₂_map_right_iff.mpr (h.imp fun _ _ h => h.2))

theorem conditionalSwap_auxOnly (direction : Boolean) (a b : List Boolean) :
    AuxOnly (conditionalSwap B direction a b) := by
  unfold conditionalSwap
  split
  · exact AuxOnly.throw _
  refine AuxOnly.bind (AuxOnly.mapM (fun p => ?_) _) fun _ => AuxOnly.pure _
  exact (B.allocBit_auxOnly _).bind fun _ => (AuxOnly.enforce _ _ _).bind fun _ =>
    (B.allocBit_auxOnly _).bind fun _ => (AuxOnly.enforce _ _ _).bind fun _ => AuxOnly.pure _

/-! ## The comparison -/

/-- `boolean_or`, by De Morgan's law. -/
def booleanOr (a b : Boolean) : Synth Scalar Boolean := do
  let notAAndNotB ← B.and a.neg b.neg
  return notAAndNotB.neg

/-- The last position of `enforce_ge`: the final borrow, from the carry logic, is zero. -/
def enforceNoBorrow (a b borrow : Boolean) : Synth Scalar Unit := do
  let notA := a.neg
  let notAAndB ← B.and notA b
  let notAAndBorrow ← B.and notA borrow
  let bAndBorrow ← B.and b borrow
  let term1 ← booleanOr B notAAndB notAAndBorrow
  let finalBorrow ← booleanOr B term1 bAndBorrow
  enforce (finalBorrow.lc 1) (.var .one) .zero

/-- The value of the next borrow: `b + borrow > a`. -/
def nextBorrowValue (a b borrow : Option Bool) : Option Bool :=
  match a, b, borrow with
  | some a, some b, some borrow => some ((b && !a) || (borrow && !a) || (b && borrow))
  | _, _, _ => none

/-- The value of the difference bit: `a - b - borrow + 2 next`, tested against one. -/
def diffValue (a b borrow next : Option Bool) : Option Bool :=
  match a, b, borrow, next with
  | some a, some b, some borrow, some next =>
    some (((a.toNat : Int) - b.toNat - borrow.toNat + 2 * next.toNat).tmod 2 == 1)
  | _, _, _, _ => none

/-- A position of `enforce_ge` before the last: the next borrow and the difference bit, tied to
the operands by the subtraction. -/
def subtractBit (a b borrow : Boolean) : Synth Scalar Boolean := do
  let nextValue := nextBorrowValue a.getValue b.getValue borrow.getValue
  let nextBorrow ← B.allocBit nextValue
  let diff ← B.allocBit (diffValue a.getValue b.getValue borrow.getValue nextValue)
  enforce (a.lc 1 - b.lc 1 - borrow.lc 1 - (Boolean.is diff).lc 1) (.var .one)
    (.zero - (Boolean.is nextBorrow).lc ((2 : ℕ) : Scalar))
  return .is nextBorrow

/-- The loop of `enforce_ge`, from the lowest position. -/
def enforceGeLoop (borrow : Boolean) : List (Boolean × Boolean) → Synth Scalar Unit
  | [] => pure ()
  | [(a, b)] => enforceNoBorrow B a b borrow
  | (a, b) :: rest => do
    let nextBorrow ← subtractBit B a b borrow
    enforceGeLoop nextBorrow rest

/-- `enforce_ge`: `a ≥ b`, for little-endian strings of one length. -/
def enforceGe (a b : List Boolean) : Synth Scalar Unit :=
  if a.length ≠ b.length then throw .unsatisfiable
  else enforceGeLoop B (.constant false) (a.zip b)

theorem booleanOr_sound (a b : Boolean) : Sound (booleanOr B a b) fun w c =>
    ∀ x y, a.Reads w x → b.Reads w y → c.Reads w (x || y) :=
  Sound.bind (B.and_sound _ _) fun c => Sound.pure fun w h x y hx hy => by
    have := (h (!x) (!y) hx.neg hy.neg).neg
    rwa [Bool.not_and, Bool.not_not, Bool.not_not] at this

theorem booleanOr_honest (n : Counts) {a b : Boolean} {x y : Bool} (ha : a.Known x)
    (hb : b.Known y) : Honest n (booleanOr B a b) (fun w => a.Reads w x ∧ b.Reads w y)
      (fun c => c.Known (x || y)) fun w c => c.Reads w (x || y) := by
  refine Honest.bind ((B.and_honest n _ _ _ _ ha.neg hb.neg).of_pre fun w hp =>
    ⟨hp.1.neg, hp.2.neg⟩) fun c _ hc => ?_
  have hxy : (!(!x && !y)) = (x || y) := by cases x <;> cases y <;> rfl
  exact Honest.pure (hxy ▸ hc.neg) fun w hw => hxy ▸ hw.2.neg

theorem booleanOr_layout {a a' b b' : Boolean} (ha : a.SameWire a') (hb : b.SameWire b') :
    SameLayout Boolean.SameWire (booleanOr B a b) (booleanOr B a' b') :=
  (B.and_layout ha.neg hb.neg).bind fun _ _ h => SameLayout.pure h.neg

/-- The majority of `¬a`, `b` and the borrow: the borrow out of a position. -/
def borrowOut (a b c : Bool) : Bool := (!a && b) || (!a && c) || (b && c)

theorem borrowOut_eq_false_iff (a b c : Bool) :
    borrowOut a b c = false ↔ b.toNat + c.toNat ≤ a.toNat := by
  cases a <;> cases b <;> cases c <;> simp [borrowOut]

theorem enforceNoBorrow_sound (a b borrow : Boolean) :
    Sound (enforceNoBorrow B a b borrow) fun w _ => ∀ x y c, a.Reads w x → b.Reads w y →
      borrow.Reads w c → borrowOut x y c = false := by
  refine Sound.bind (B.and_sound _ _) fun p => Sound.bind (B.and_sound _ _) fun q =>
    Sound.bind (B.and_sound _ _) fun r => Sound.bind (booleanOr_sound B _ _) fun s =>
    Sound.bind (booleanOr_sound B _ _) fun t => (Sound.enforce _ _ _).mono
      fun w _ ht hor hor' hr hq hp x y c ha hb hc => ?_
  have hout := hor _ _ (hor' _ _ (hp _ _ ha.neg hb) (hq _ _ ha.neg hc)) (hr _ _ hb hc)
  have hzero : t.Reads w false := by simpa [Boolean.Reads] using ht
  exact hout.unique hzero

theorem enforceNoBorrow_honest (n : Counts) {a b borrow : Boolean} {x y c : Bool} (ha : a.Known x)
    (hb : b.Known y) (hc : borrow.Known c) (h : borrowOut x y c = false) :
    Honest n (enforceNoBorrow B a b borrow)
      (fun w => a.Reads w x ∧ b.Reads w y ∧ borrow.Reads w c) (fun _ => True) fun _ _ => True := by
  refine Honest.bind ((B.and_honest n _ _ _ _ ha.neg hb).of_pre fun w hp => ⟨hp.1.neg, hp.2.1⟩)
    fun p _ hp => ?_
  refine Honest.bind ((B.and_honest _ _ _ _ _ ha.neg hc).of_pre fun w hw => ⟨hw.1.1.neg, hw.1.2.2⟩)
    fun q _ hq => ?_
  refine Honest.bind ((B.and_honest _ _ _ _ _ hb hc).of_pre fun w hw => ⟨hw.1.1.2.1, hw.1.1.2.2⟩)
    fun r _ hr => ?_
  refine Honest.bind ((booleanOr_honest B _ hp hq).of_pre fun w hw => ⟨hw.1.1.2, hw.1.2⟩)
    fun s _ hs => ?_
  refine Honest.bind ((booleanOr_honest B _ hs hr).of_pre fun w hw => ⟨hw.2, hw.1.2⟩) fun t _ _ =>
    Honest.enforce fun w hw => ?_
  have ht : t.Reads w (borrowOut x y c) := hw.2
  rw [h] at ht
  simpa using ht.eval_lc 1

/-- The constraint of a position, over the integers: the field is large enough. -/
theorem subtract_iff : ∀ a b c d e : Bool,
    (bitValue a - bitValue b - bitValue c - bitValue d : Scalar) = -(2 * bitValue e) ↔
      a.toNat + 2 * e.toNat = b.toNat + c.toNat + d.toNat := by
  decide

theorem subtractBit_sound (a b borrow : Boolean) :
    Sound (subtractBit B a b borrow) fun w next => ∀ x y c, a.Reads w x → b.Reads w y →
      borrow.Reads w c → ∃ e d : Bool, next.Reads w e ∧
        x.toNat + 2 * e.toNat = y.toNat + c.toNat + d.toNat := by
  refine Sound.bind (B.allocBit_sound _) fun next => Sound.bind (B.allocBit_sound _) fun diff =>
    Sound.bind (Sound.enforce _ _ _) fun _ => Sound.pure fun w h hd hn x y c hx hy hc => ?_
  obtain ⟨e, he⟩ := hn
  obtain ⟨d, hd⟩ := hd
  refine ⟨e, d, Boolean.reads_is.mpr he, (subtract_iff x y c d e).mp ?_⟩
  simpa [hx.eval_lc, hy.eval_lc, hc.eval_lc, (Boolean.reads_is.mpr he).eval_lc,
    (Boolean.reads_is.mpr hd).eval_lc] using h

theorem diffValue_borrowOut : ∀ x y c : Bool, ∃ d,
    diffValue (some x) (some y) (some c) (some (borrowOut x y c)) = some d ∧
      x.toNat + 2 * (borrowOut x y c).toNat = y.toNat + c.toNat + d.toNat := by
  decide

theorem nextBorrowValue_some (x y c : Bool) :
    nextBorrowValue (some x) (some y) (some c) = some (borrowOut x y c) := by
  cases x <;> cases y <;> cases c <;> rfl

theorem subtractBit_honest (n : Counts) {a b borrow : Boolean} {x y c : Bool} (ha : a.Known x)
    (hb : b.Known y) (hc : borrow.Known c) :
    Honest n (subtractBit B a b borrow)
      (fun w => a.Reads w x ∧ b.Reads w y ∧ borrow.Reads w c)
      (fun next => next.Known (borrowOut x y c)) fun w next => next.Reads w (borrowOut x y c) := by
  obtain ⟨d, hd, hval⟩ := diffValue_borrowOut x y c
  simp only [subtractBit, show a.getValue = some x from ha, show b.getValue = some y from hb,
    show borrow.getValue = some c from hc, nextBorrowValue_some, hd]
  refine (B.allocBit_honest n _ _).bind fun next _ hkn => ?_
  refine (B.allocBit_honest _ _ _).bind fun diff _ _ => ?_
  refine (Honest.enforce fun w hw => ?_).bind fun _ _ _ =>
    Honest.pure hkn fun w hw => Boolean.reads_is.mpr hw.1.1.2
  obtain ⟨⟨⟨hx, hy, hc⟩, hwn⟩, hwd⟩ := hw
  have := (subtract_iff x y c d (borrowOut x y c)).mpr hval
  simpa [hx.eval_lc, hy.eval_lc, hc.eval_lc, (Boolean.reads_is.mpr hwn).eval_lc,
    (Boolean.reads_is.mpr hwd).eval_lc] using this

/-- **The borrow chain**: from any position, with the borrow into it, the operands compare. -/
theorem enforceGeLoop_sound : ∀ (ps : List (Boolean × Boolean)) (borrow : Boolean), ps ≠ [] →
    Sound (enforceGeLoop B borrow ps) fun w _ => ∀ xs ys c, ReadsAll w (ps.map (·.1)) xs →
      ReadsAll w (ps.map (·.2)) ys → borrow.Reads w c → ofBits ys + c.toNat ≤ ofBits xs
  | [], _, h => absurd rfl h
  | [(a, b)], borrow, _ => by
    refine (enforceNoBorrow_sound B a b borrow).mono fun w _ h xs ys c hxs hys hc => ?_
    obtain ⟨x, _, hx, hnil, rfl⟩ := List.forall₂_cons_left_iff.mp hxs
    obtain ⟨y, _, hy, hnil', rfl⟩ := List.forall₂_cons_left_iff.mp hys
    rw [List.forall₂_nil_left_iff.mp hnil, List.forall₂_nil_left_iff.mp hnil']
    have := (borrowOut_eq_false_iff x y c).mp (h x y c hx hy hc)
    simpa [ofBits_cons] using this
  | (a, b) :: p :: ps, borrow, _ => by
    refine Sound.bind (subtractBit_sound B a b borrow) fun next =>
      (enforceGeLoop_sound (p :: ps) next (List.cons_ne_nil _ _)).mono
        fun w _ ih h xs ys c hxs hys hc => ?_
    obtain ⟨x, xs', hx, hxs', rfl⟩ := List.forall₂_cons_left_iff.mp hxs
    obtain ⟨y, ys', hy, hys', rfl⟩ := List.forall₂_cons_left_iff.mp hys
    obtain ⟨e, d, he, hval⟩ := h x y c hx hy hc
    have := ih xs' ys' e hxs' hys' he
    rw [ofBits_cons, ofBits_cons]
    omega

theorem enforceGeLoop_honest : ∀ (ps : List (Boolean × Boolean)) (borrow : Boolean) (n : Counts)
    {xs ys : List Bool} {c : Bool}, ps ≠ [] → KnownAll (ps.map (·.1)) xs →
    KnownAll (ps.map (·.2)) ys → borrow.Known c → ofBits ys + c.toNat ≤ ofBits xs →
    Honest n (enforceGeLoop B borrow ps) (fun w => ReadsAll w (ps.map (·.1)) xs ∧
      ReadsAll w (ps.map (·.2)) ys ∧ borrow.Reads w c) (fun _ => True) fun _ _ => True
  | [], _, _, _, _, _, h, _, _, _, _ => absurd rfl h
  | [(a, b)], borrow, n, xs, ys, c, _, hxs, hys, hc, hle => by
    obtain ⟨x, _, hx, hnil, rfl⟩ := List.forall₂_cons_left_iff.mp hxs
    obtain ⟨y, _, hy, hnil', rfl⟩ := List.forall₂_cons_left_iff.mp hys
    obtain rfl := List.forall₂_nil_left_iff.mp hnil
    obtain rfl := List.forall₂_nil_left_iff.mp hnil'
    have hout : borrowOut x y c = false :=
      (borrowOut_eq_false_iff x y c).mpr (by simpa [ofBits_cons] using hle)
    refine (enforceNoBorrow_honest B n hx hy hc hout).of_pre fun w hw => ?_
    exact ⟨(List.forall₂_cons.mp hw.1).1, (List.forall₂_cons.mp hw.2.1).1, hw.2.2⟩
  | (a, b) :: p :: ps, borrow, n, xs, ys, c, _, hxs, hys, hc, hle => by
    obtain ⟨x, xs', hx, hxs', rfl⟩ := List.forall₂_cons_left_iff.mp hxs
    obtain ⟨y, ys', hy, hys', rfl⟩ := List.forall₂_cons_left_iff.mp hys
    -- the borrow out is what the remaining positions owe
    have hrest : ofBits ys' + (borrowOut x y c).toNat ≤ ofBits xs' := by
      rw [ofBits_cons, ofBits_cons] at hle
      have hx := Bool.toNat_lt x
      cases hb : borrowOut x y c with
      | false =>
        have := (borrowOut_eq_false_iff x y c).mp hb
        rw [Bool.toNat_false]
        omega
      | true =>
        have := (borrowOut_eq_false_iff x y c).not.mp (by simp [hb])
        rw [Bool.toNat_true]
        omega
    refine Honest.bind ((subtractBit_honest B n hx hy hc).of_pre fun w hw => ?_)
      fun next _ hnext => ?_
    · exact ⟨(List.forall₂_cons.mp hw.1).1, (List.forall₂_cons.mp hw.2.1).1, hw.2.2⟩
    refine (enforceGeLoop_honest (p :: ps) next _ (List.cons_ne_nil _ _) hxs' hys' hnext
      hrest).of_pre fun w hw => ?_
    exact ⟨(List.forall₂_cons.mp hw.1.1).2, (List.forall₂_cons.mp hw.1.2.1).2, hw.2⟩

theorem enforceGeLoop_layout : ∀ {ps ps' : List (Boolean × Boolean)} {borrow borrow' : Boolean},
    List.Forall₂ (fun p q => p.1.SameWire q.1 ∧ p.2.SameWire q.2) ps ps' →
    borrow.SameWire borrow' →
    SameLayout (fun _ _ => True) (enforceGeLoop B borrow ps) (enforceGeLoop B borrow' ps')
  | [], _, _, _, h, _ => by
    obtain rfl := List.forall₂_nil_left_iff.mp h
    exact SameLayout.pure trivial
  | [(a, b)], _, borrow, borrow', h, hc => by
    obtain ⟨⟨a', b'⟩, _, ⟨ha, hb⟩, hnil, rfl⟩ := List.forall₂_cons_left_iff.mp h
    obtain rfl := List.forall₂_nil_left_iff.mp hnil
    refine (B.and_layout ha.neg hb).bind fun _ _ h₁ => (B.and_layout ha.neg hc).bind fun _ _ h₂ =>
      (B.and_layout hb hc).bind fun _ _ h₃ => (booleanOr_layout B h₁ h₂).bind fun _ _ h₄ =>
      (booleanOr_layout B h₄ h₃).bind fun _ _ h₅ => ?_
    exact SameLayout.enforce (h₅.lc_eq 1) rfl rfl
  | (a, b) :: p :: ps, _, borrow, borrow', h, hc => by
    obtain ⟨⟨a', b'⟩, _, ⟨ha, hb⟩, hrest, rfl⟩ := List.forall₂_cons_left_iff.mp h
    obtain ⟨p', ps', hp, hps, rfl⟩ := List.forall₂_cons_left_iff.mp hrest
    refine SameLayout.bind (R := Boolean.SameWire) ?_ fun next next' hnext =>
      enforceGeLoop_layout (List.Forall₂.cons hp hps) hnext
    refine (B.allocBit_layout _ _).bind fun n n' hn => (B.allocBit_layout _ _).bind fun d d' hd => ?_
    have hn' : (Boolean.is n).SameWire (.is n') := hn
    have hd' : (Boolean.is d).SameWire (.is d') := hd
    refine (SameLayout.enforce ?_ rfl (by rw [hn'.lc_eq])).bind fun _ _ _ => SameLayout.pure hn'
    rw [ha.lc_eq, hb.lc_eq, hc.lc_eq, hd'.lc_eq]

theorem enforceGeLoop_auxOnly : ∀ (ps : List (Boolean × Boolean)) (borrow : Boolean),
    AuxOnly (enforceGeLoop B borrow ps)
  | [], _ => AuxOnly.pure ()
  | [(_, _)], _ =>
    have hor : ∀ a b, AuxOnly (booleanOr B a b) := fun _ _ =>
      (B.and_auxOnly _ _).bind fun _ => AuxOnly.pure _
    (B.and_auxOnly _ _).bind fun _ => (B.and_auxOnly _ _).bind fun _ =>
      (B.and_auxOnly _ _).bind fun _ => (hor _ _).bind fun _ => (hor _ _).bind fun _ =>
      AuxOnly.enforce _ _ _
  | (a, b) :: p :: ps, borrow =>
    have hbit : AuxOnly (subtractBit B a b borrow) :=
      (B.allocBit_auxOnly _).bind fun _ => (B.allocBit_auxOnly _).bind fun _ =>
        (AuxOnly.enforce _ _ _).bind fun _ => AuxOnly.pure _
    hbit.bind fun next => enforceGeLoop_auxOnly (p :: ps) next

/-- **`enforce_ge` forces `a ≥ b`**, for the numbers the strings spell. -/
theorem enforceGe_sound (a b : List Boolean) : Sound (enforceGe B a b) fun w _ => ∀ xs ys,
    ReadsAll w a xs → ReadsAll w b ys → ofBits ys ≤ ofBits xs := by
  unfold enforceGe
  split
  · exact Sound.throw
  · rename_i hlen
    have hlen : a.length = b.length := by omega
    by_cases hnil : a.zip b = []
    · intro md n _ ops _ w _ xs ys hxs hys
      obtain rfl : b = [] := by simpa [hlen] using congrArg List.length hnil
      obtain rfl : a = [] := List.length_eq_zero_iff.mp (by simpa using hlen)
      rw [List.forall₂_nil_left_iff.mp hxs, List.forall₂_nil_left_iff.mp hys]
    · refine (enforceGeLoop_sound B _ _ hnil).mono fun w _ h xs ys hxs hys => ?_
      have := h xs ys false (by rwa [List.map_fst_zip hlen.le])
        (by rwa [List.map_snd_zip hlen.ge]) ((Boolean.reads_constant false).mpr rfl)
      simpa using this

theorem enforceGe_honest (n : Counts) {a b : List Boolean} {xs ys : List Bool} (ha : KnownAll a xs)
    (hb : KnownAll b ys) (hlen : xs.length = ys.length) (hle : ofBits ys ≤ ofBits xs) :
    Honest n (enforceGe B a b) (fun w => ReadsAll w a xs ∧ ReadsAll w b ys) (fun _ => True)
      fun _ _ => True := by
  have hl : a.length = b.length := by rw [ha.length_eq, hb.length_eq, hlen]
  rw [enforceGe, if_neg (by omega)]
  by_cases hnil : a.zip b = []
  · rw [hnil]
    exact Honest.pure trivial fun _ _ => trivial
  · refine (enforceGeLoop_honest B _ _ n hnil (by rwa [List.map_fst_zip hl.le])
      (by rwa [List.map_snd_zip hl.ge]) ((Boolean.known_constant false false).mpr rfl)
      (by simpa using hle)).of_pre fun w hw => ?_
    rw [List.map_fst_zip hl.le, List.map_snd_zip hl.ge]
    exact ⟨hw.1, hw.2, (Boolean.reads_constant false).mpr rfl⟩

theorem enforceGe_layout {a a' b b' : List Boolean} (ha : SameWires a a') (hb : SameWires b b') :
    SameLayout (fun _ _ => True) (enforceGe B a b) (enforceGe B a' b') := by
  unfold enforceGe
  rw [ha.length_eq, hb.length_eq]
  split
  · exact SameLayout.throw_left
  · exact enforceGeLoop_layout B (forall₂_zip ha hb) (Boolean.SameWire.refl _)

theorem enforceGe_auxOnly (a b : List Boolean) : AuxOnly (enforceGe B a b) := by
  unfold enforceGe
  split
  · exact AuxOnly.throw _
  · exact enforceGeLoop_auxOnly B _ _

end ProviiCrypto
