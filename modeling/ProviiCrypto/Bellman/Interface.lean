import ProviiCrypto.Bellman.Types
import ProviiCrypto.Jubjub.Field
import ProviiCrypto.Number.Bits

/-!
# The gadgets of bellman

The circuit is built from gadgets of the `bellman` crate. `Bellman H` is what the circuit relies
on about them, for a hash function `H` that the Blake2s gadget is a circuit for. Each gadget has
four laws:

* `*_sound`: its constraints force its output, whatever the assignment;
* `*_honest`: while proving it succeeds on known inputs, and the values it computes satisfy its
  constraints;
* `*_layout`: what it emits depends on the wires it is given, not on the values they carry;
* `*_auxOnly`: it allocates no public input (`pack_*`: exactly the packed ones).
-/

namespace ProviiCrypto

open R1CS R1CS.Synth Number

/-- Blake2s with a 32-byte digest: personalisation and message to digest. -/
abbrev Blake2s : Type := Bytes 8 → List UInt8 → Bytes 32

/-- `Scalar::CAPACITY`: the bits that fit one field element. -/
def scalarCapacity : ℕ := 254

/-- The gadgets of `bellman`, with the laws the circuit relies on. -/
structure Bellman (H : Blake2s) where
  /-- `AllocatedBit::alloc`. -/
  allocBit : Option Bool → Synth Scalar AllocatedBit
  allocBit_value : ∀ v md n b ops, allocBit v md n = .ok (b, ops) → b.value = v
  allocBit_sound : ∀ v, Sound (allocBit v) fun w b => ∃ x, w b.var = bitValue x
  allocBit_honest : ∀ n x pre, Honest n (allocBit (some x)) pre (fun b => b.value = some x)
    fun w b => w b.var = bitValue x
  allocBit_layout : ∀ v v', SameLayout (fun b b' => b.var = b'.var) (allocBit v) (allocBit v')
  allocBit_auxOnly : ∀ v, AuxOnly (allocBit v)
  /-- `Boolean::and`. -/
  and : Boolean → Boolean → Synth Scalar Boolean
  and_sound : ∀ a b, Sound (and a b) fun w c =>
    ∀ x y, a.Reads w x → b.Reads w y → c.Reads w (x && y)
  and_honest : ∀ n a b x y, a.Known x → b.Known y →
    Honest n (and a b) (fun w => a.Reads w x ∧ b.Reads w y) (fun c => c.Known (x && y))
      fun w c => c.Reads w (x && y)
  and_layout : ∀ {a a' b b'}, a.SameWire a' → b.SameWire b' →
    SameLayout Boolean.SameWire (and a b) (and a' b')
  and_auxOnly : ∀ a b, AuxOnly (and a b)
  /-- `AllocatedNum::mul`. -/
  mul : AllocatedNum Scalar → AllocatedNum Scalar → Synth Scalar (AllocatedNum Scalar)
  mul_sound : ∀ a b, Sound (mul a b) fun w c => w c.var = w a.var * w b.var
  mul_honest : ∀ n a b x y, a.value = some x → b.value = some y →
    Honest n (mul a b) (fun w => w a.var = x ∧ w b.var = y) (fun c => c.value = some (x * y))
      fun w c => w c.var = x * y
  mul_layout : ∀ {a a' b b' : AllocatedNum Scalar}, a.var = a'.var → b.var = b'.var →
    SameLayout (fun c c' => c.var = c'.var) (mul a b) (mul a' b')
  mul_auxOnly : ∀ a b, AuxOnly (mul a b)
  /-- `AllocatedNum::square`. -/
  square : AllocatedNum Scalar → Synth Scalar (AllocatedNum Scalar)
  square_sound : ∀ a, Sound (square a) fun w c => w c.var = w a.var ^ 2
  square_honest : ∀ n a x, a.value = some x →
    Honest n (square a) (fun w => w a.var = x) (fun c => c.value = some (x ^ 2))
      fun w c => w c.var = x ^ 2
  square_layout : ∀ {a a' : AllocatedNum Scalar}, a.var = a'.var →
    SameLayout (fun c c' => c.var = c'.var) (square a) (square a')
  square_auxOnly : ∀ a, AuxOnly (square a)
  /-- `AllocatedNum::assert_nonzero`. -/
  assertNonzero : AllocatedNum Scalar → Synth Scalar Unit
  assertNonzero_sound : ∀ a, Sound (assertNonzero a) fun w _ => w a.var ≠ 0
  assertNonzero_honest : ∀ n a x, a.value = some x → x ≠ 0 →
    Honest n (assertNonzero a) (fun w => w a.var = x) (fun _ => True) fun _ _ => True
  assertNonzero_layout : ∀ {a a' : AllocatedNum Scalar}, a.var = a'.var →
    SameLayout (fun _ _ => True) (assertNonzero a) (assertNonzero a')
  assertNonzero_auxOnly : ∀ a, AuxOnly (assertNonzero a)
  /-- `AllocatedNum::to_bits_le_strict`: the 255 bits of the canonical representative. -/
  toBitsLeStrict : AllocatedNum Scalar → Synth Scalar (List Boolean)
  toBitsLeStrict_sound : ∀ a, Sound (toBitsLeStrict a) fun w bs =>
    ReadsAll w bs (toBits 255 (w a.var).val)
  toBitsLeStrict_honest : ∀ n a x, a.value = some x →
    Honest n (toBitsLeStrict a) (fun w => w a.var = x) (fun bs => KnownAll bs (toBits 255 x.val))
      fun w bs => ReadsAll w bs (toBits 255 x.val)
  toBitsLeStrict_layout : ∀ {a a' : AllocatedNum Scalar}, a.var = a'.var →
    SameLayout SameWires (toBitsLeStrict a) (toBitsLeStrict a')
  toBitsLeStrict_auxOnly : ∀ a, AuxOnly (toBitsLeStrict a)
  /-- `lookup::lookup3_xy_with_conditional_negation`: entry `a + 2b` of a table of four, its second
  coordinate negated by `c`. -/
  lookup3 : List Boolean → List (Scalar × Scalar) → Synth Scalar (Num Scalar × Num Scalar)
  lookup3_sound : ∀ a b c t, t.length = 4 → Sound (lookup3 [a, b, c] t) fun w r =>
    ∀ x y z, a.Reads w x → b.Reads w y → c.Reads w z →
      ∃ e, t[x.toNat + 2 * y.toNat]? = some e ∧ r.1.lc.eval w = e.1 ∧
        r.2.lc.eval w = if z then -e.2 else e.2
  lookup3_honest : ∀ n a b c t x y z e, t.length = 4 → a.Known x → b.Known y → c.Known z →
    t[x.toNat + 2 * y.toNat]? = some e →
    Honest n (lookup3 [a, b, c] t) (fun w => a.Reads w x ∧ b.Reads w y ∧ c.Reads w z)
      (fun r => r.1.value = some e.1 ∧ r.2.value = some (if z then -e.2 else e.2)) fun _ _ => True
  lookup3_layout : ∀ {bs bs' t}, SameWires bs bs' →
    SameLayout (fun r r' => r.1.lc = r'.1.lc ∧ r.2.lc = r'.2.lc) (lookup3 bs t) (lookup3 bs' t)
  lookup3_auxOnly : ∀ bs t, AuxOnly (lookup3 bs t)
  /-- `multipack::compute_multipacking`. -/
  computeMultipacking : List Bool → List Scalar
  computeMultipacking_eq : ∀ bits,
    computeMultipacking bits = (chunks scalarCapacity bits).map fun c => (ofBits c : Scalar)
  /-- `multipack::pack_into_inputs`. -/
  packIntoInputs : List Boolean → Synth Scalar Unit
  pack_sound : ∀ bits md n ops, packIntoInputs bits md n = .ok ((), ops) →
    ∀ w vs, Holds w ops → ReadsAll w bits vs →
      (List.range (inputValues ops).length).map (fun i => w (.input (n.inputs + i))) =
        computeMultipacking vs
  pack_honest : ∀ n bits vs, KnownAll bits vs →
    Honest n (packIntoInputs bits) (fun w => ReadsAll w bits vs) (fun _ => True) fun _ _ => True
  pack_inputs : ∀ bits vs n ops, KnownAll bits vs → packIntoInputs bits .prove n = .ok ((), ops) →
    inputValues ops = (computeMultipacking vs).map some
  pack_layout : ∀ {bits bits'}, SameWires bits bits' →
    SameLayout (fun _ _ => True) (packIntoInputs bits) (packIntoInputs bits')
  /-- `blake2s::blake2s`, on a message of whole bytes. -/
  blake2s : List Boolean → Bytes 8 → Synth Scalar (List Boolean)
  blake2s_sound : ∀ bits p, Sound (blake2s bits p) fun w out =>
    ∀ msg, ReadsAll w bits (bytesBits msg) → ReadsAll w out (bytesBits (H p msg).1)
  blake2s_honest : ∀ n bits p msg, KnownAll bits (bytesBits msg) →
    Honest n (blake2s bits p) (fun w => ReadsAll w bits (bytesBits msg))
      (fun out => KnownAll out (bytesBits (H p msg).1))
      fun w out => ReadsAll w out (bytesBits (H p msg).1)
  blake2s_layout : ∀ {bits bits'} p, SameWires bits bits' →
    SameLayout SameWires (blake2s bits p) (blake2s bits' p)
  blake2s_auxOnly : ∀ bits p, AuxOnly (blake2s bits p)

/-- `lookup::lookup3_xy`, which only multiplication of a fixed base calls: entry `a + 2b + 4c` of a
table of eight, in two allocated variables. -/
structure FixedLookup where
  lookup3Xy : List Boolean → List (Scalar × Scalar) →
    Synth Scalar (AllocatedNum Scalar × AllocatedNum Scalar)
  lookup3Xy_sound : ∀ a b c t, t.length = 8 → Sound (lookup3Xy [a, b, c] t) fun w r =>
    ∀ x y z, a.Reads w x → b.Reads w y → c.Reads w z →
      ∃ e, t[x.toNat + 2 * y.toNat + 4 * z.toNat]? = some e ∧ w r.1.var = e.1 ∧ w r.2.var = e.2
  lookup3Xy_honest : ∀ n a b c t x y z e, t.length = 8 → a.Known x → b.Known y → c.Known z →
    t[x.toNat + 2 * y.toNat + 4 * z.toNat]? = some e →
    Honest n (lookup3Xy [a, b, c] t) (fun w => a.Reads w x ∧ b.Reads w y ∧ c.Reads w z)
      (fun r => r.1.value = some e.1 ∧ r.2.value = some e.2) fun _ _ => True
  lookup3Xy_layout : ∀ {bs bs' t}, SameWires bs bs' →
    SameLayout (fun r r' => r.1.var = r'.1.var ∧ r.2.var = r'.2.var) (lookup3Xy bs t)
      (lookup3Xy bs' t)

variable {H : Blake2s}

/-- Parameter generation succeeds in each gadget. Blake2s asks for whole bytes and returns a digest,
the field element's bits are 255. -/
structure Bellman.SetsUp (B : Bellman H) : Prop where
  allocBit : ∀ v, Synth.SetsUp (B.allocBit v) fun _ => True
  and : ∀ a b, Synth.SetsUp (B.and a b) fun _ => True
  mul : ∀ a b, Synth.SetsUp (B.mul a b) fun _ => True
  square : ∀ a, Synth.SetsUp (B.square a) fun _ => True
  assertNonzero : ∀ a, Synth.SetsUp (B.assertNonzero a) fun _ => True
  toBitsLeStrict : ∀ a, Synth.SetsUp (B.toBitsLeStrict a) fun bs => bs.length = 255
  lookup3 : ∀ a b c t, t.length = 4 → Synth.SetsUp (B.lookup3 [a, b, c] t) fun _ => True
  packIntoInputs : ∀ bits, Synth.SetsUp (B.packIntoInputs bits) fun _ => True
  blake2s : ∀ bits p, 8 ∣ bits.length → Synth.SetsUp (B.blake2s bits p) fun out => out.length = 256

end ProviiCrypto
