import Mathlib.Tactic.NormNum
import ProviiCrypto.Number.Bits

/-!
# `provii-crypto-commons`

Domain separation tags, the bias that carries signed day counts into the circuit's unsigned
comparison, the credential message and its prehash transcript.

* `bias_le_bias_iff`: biasing preserves the signed order.
* `exists_u64Be`: the transcript's big-endian fields range over all eight-byte strings.
-/

namespace ProviiCrypto

open Number

/-- The bytes of an ASCII literal `b"..."`. -/
def ascii (s : String) : List UInt8 := s.toList.map fun c => c.toNat.toUInt8

/-! ## Domain separation tags -/

/-- `CRED_DST`. -/
def credDst : List UInt8 := ascii "provii.cred.v0"

/-- `NULLIFIER_DST`. -/
def nullifierDst : List UInt8 := ascii "provii.nullifier.pedersen.v0"

/-- `REDJUBJUB_PERSONALIZATION`. -/
def redjubjubPersonalization : Bytes 8 := ⟨ascii "ProviiRJ", by decide⟩

/-- `REDJUBJUB_NONCE_TAG`. -/
def redjubjubNonceTag : List UInt8 := ascii "ProviiRJ/nonce"

/-- Eight zero bytes: Blake2s without personalisation. -/
def noPersonalization : Bytes 8 := ⟨List.replicate 8 0, by decide⟩

theorem length_nullifierDst : nullifierDst.length = 28 := by decide

/-! ## Errors -/

/-- `Error`. -/
inductive Error where
  | invalidFormat
  | invalidProof
  | verificationFailed
  | invalidInput
  | invalidSignature
  | invalidOriginHash
  | missingTimestamp
  | futureTimestamp
  | credentialBanned
  | nullifierStoreFailure
  | expired
  | notFound
  | rateLimitExceeded
  | proverFailed
  | verifierNotInitialized
  | alreadyInitialized
  | internal
  | fieldTooLong
  deriving DecidableEq, Repr

/-! ## The sign bias -/

/-- `SIGN_BIAS`. -/
def signBias : UInt32 := 0x80000000

/-- `bias_for_circuit`. -/
def biasForCircuit (days : Int32) : UInt32 := days.toUInt32 ^^^ signBias

/-- `unbias_from_circuit`. -/
def unbiasFromCircuit (biased : UInt32) : Int32 := (biased ^^^ signBias).toInt32

theorem unbias_bias (days : Int32) : unbiasFromCircuit (biasForCircuit days) = days := by
  unfold unbiasFromCircuit biasForCircuit
  rw [UInt32.xor_assoc]
  simp

theorem bias_unbias (biased : UInt32) : biasForCircuit (unbiasFromCircuit biased) = biased := by
  unfold unbiasFromCircuit biasForCircuit
  rw [UInt32.toUInt32_toInt32, UInt32.xor_assoc]
  simp

theorem biasForCircuit_injective : Function.Injective biasForCircuit := by
  intro a b h
  rw [← unbias_bias a, h, unbias_bias]

/-- A day count is determined by the bits it is given in. -/
theorem biasBits_injective {a b : Int32}
    (h : toBits 32 (biasForCircuit a).toNat = toBits 32 (biasForCircuit b).toNat) : a = b :=
  biasForCircuit_injective (UInt32.toNat_inj.mp
    (toBits_injOn (biasForCircuit a).toNat_lt (biasForCircuit b).toNat_lt h))

/-- Flipping the top bit of a 32-bit number adds it, modulo `2 ^ 32`. -/
private theorem xor_top {n : ℕ} (h : n < 2 ^ 32) : n ^^^ 2 ^ 31 = (n + 2 ^ 31) % 2 ^ 32 := by
  have hdiv := Nat.xor_div_two_pow (a := n) (b := 2 ^ 31) (n := 31)
  have hmod := Nat.xor_mod_two_pow (a := n) (b := 2 ^ 31) (n := 31)
  have hcase : n / 2 ^ 31 = 0 ∨ n / 2 ^ 31 = 1 := by omega
  rcases hcase with hc | hc <;> rw [hc] at hdiv <;> norm_num at hdiv hmod ⊢ <;> omega

/-- The biased value is the day count moved up by `2 ^ 31`. -/
theorem toNat_biasForCircuit (days : Int32) :
    ((biasForCircuit days).toNat : ℤ) = days.toInt + 2 ^ 31 := by
  have hlt : days.toUInt32.toNat < 2 ^ 32 := days.toUInt32.toNat_lt
  have hint : days.toInt = if 2 * days.toUInt32.toNat < 2 ^ 32 then (days.toUInt32.toNat : ℤ)
      else (days.toUInt32.toNat : ℤ) - 2 ^ 32 := BitVec.toInt_eq_toNat_cond days.toBitVec
  unfold biasForCircuit
  rw [UInt32.toNat_xor, show signBias.toNat = 2 ^ 31 from rfl, xor_top hlt, hint]
  split <;> omega

/-- **Biasing preserves the signed order.** -/
theorem bias_le_bias_iff (a b : Int32) :
    (biasForCircuit a).toNat ≤ (biasForCircuit b).toNat ↔ a ≤ b := by
  rw [Int32.le_iff_toInt_le]
  have ha := toNat_biasForCircuit a
  have hb := toNat_biasForCircuit b
  omega

/-! ## Bit extraction

The circuit and the host read a number's bits by shifting and masking. -/

/-- `(b >> i) & 1 == 1` for the eight bits of a byte. -/
def u8Bits (b : UInt8) : List Bool := (List.range 8).map fun i => (b >>> i.toUInt8) &&& 1 == 1

/-- `(v >> i) & 1 == 1` for the 32 bits of a word. -/
def u32Bits (v : UInt32) : List Bool := (List.range 32).map fun i => (v >>> i.toUInt32) &&& 1 == 1

theorem u8Bits_eq (b : UInt8) : u8Bits b = byteBits b := by
  refine List.map_congr_left fun i hi => ?_
  have hi : i < 8 := List.mem_range.mp hi
  have hval : i.toUInt8.toNat = i := by simp [Nat.toUInt8]; omega
  rw [Bool.eq_iff_iff, beq_iff_eq, ← UInt8.toNat_inj, UInt8.toNat_and, UInt8.toNat_shiftRight,
    Nat.testBit_eq_decide_div_mod_eq, hval, Nat.mod_eq_of_lt hi, show (1 : UInt8).toNat = 1 from rfl,
    Nat.and_one_is_mod, Nat.shiftRight_eq_div_pow]
  simp

theorem u32Bits_eq (v : UInt32) : u32Bits v = toBits 32 v.toNat := by
  refine List.map_congr_left fun i hi => ?_
  have hi : i < 32 := List.mem_range.mp hi
  have hval : i.toUInt32.toNat = i := by simp [Nat.toUInt32]; omega
  rw [Bool.eq_iff_iff, beq_iff_eq, ← UInt32.toNat_inj, UInt32.toNat_and, UInt32.toNat_shiftRight,
    Nat.testBit_eq_decide_div_mod_eq, hval, Nat.mod_eq_of_lt hi,
    show (1 : UInt32).toNat = 1 from rfl, Nat.and_one_is_mod, Nat.shiftRight_eq_div_pow]
  simp

theorem flatMap_u8Bits (bs : List UInt8) : bs.flatMap u8Bits = bytesBits bs :=
  List.flatMap_congr fun b _ => u8Bits_eq b

/-! ## Random bytes -/

/-- The bytes that a random number generator delivers. -/
abbrev RngStream : Type := ℕ → UInt8

/-- `fill_bytes` of a buffer of `k` bytes. -/
def fillBytes (rng : RngStream) (k : ℕ) : Bytes k := ⟨(List.range k).map rng, by simp⟩

/-! ## The credential message -/

/-- `CredMsgV2`, its strings as their UTF-8 bytes. -/
structure CredMsgV2 where
  v : UInt8
  kid : List UInt8
  c : Bytes 32
  iat : UInt64
  exp : UInt64
  schema : List UInt8
  deriving DecidableEq

/-- `write_u64::<BigEndian>`. -/
def u64Be (x : UInt64) : List UInt8 :=
  (List.range 8).map fun i => (x >>> (8 * (7 - i.toUInt64)) &&& 0xff).toUInt8

@[simp] theorem length_u64Be (x : UInt64) : (u64Be x).length = 8 := by simp [u64Be]

/-- A big-endian number is a little-endian one backwards. -/
theorem u64Be_eq (x : UInt64) : u64Be x = (leBytes 8 x.toNat).reverse := by
  have hbyte : ∀ i < 8, (x >>> (8 * (7 - i.toUInt64)) &&& 0xff).toUInt8 =
      UInt8.ofNat (x.toNat / 256 ^ (7 - i)) := by
    intro i hi
    have hshift : (8 * (7 - i.toUInt64)).toNat = 8 * (7 - i) := by
      interval_cases i <;> rfl
    have hmask : (x.toNat / 256 ^ (7 - i)) &&& 255 = x.toNat / 256 ^ (7 - i) % 256 :=
      Nat.and_two_pow_sub_one_eq_mod _ 8
    rw [← UInt8.toNat_inj, UInt64.toNat_toUInt8, UInt64.toNat_and, UInt64.toNat_shiftRight, hshift,
      Nat.mod_eq_of_lt (by omega : 8 * (7 - i) < 64), Nat.shiftRight_eq_div_pow, pow_mul,
      show (0xff : UInt64).toNat = 255 from rfl, show 2 ^ 8 = 256 from rfl, hmask]
    simp
  refine List.ext_getElem (by simp) fun i h₁ h₂ => ?_
  rw [length_u64Be] at h₁
  rw [List.getElem_reverse]
  simp only [u64Be, leBytes, List.getElem_map, List.getElem_range, List.length_map,
    List.length_range]
  exact hbyte i h₁

theorem u64Be_injective : Function.Injective u64Be := by
  intro x y h
  rw [u64Be_eq, u64Be_eq, List.reverse_inj] at h
  have hx := leNat_leBytes_of_lt (k := 8) x.toNat_lt
  rw [h, leNat_leBytes_of_lt y.toNat_lt] at hx
  exact UInt64.toNat_inj.mp hx.symm

/-- Every eight bytes are a number. -/
theorem exists_u64Be (bs : Bytes 8) : ∃ x, u64Be x = bs.1 := by
  refine ⟨UInt64.ofNat (leNat bs.1.reverse), ?_⟩
  have hlen : bs.1.reverse.length = 8 := by rw [List.length_reverse, bs.2]
  have hlt : leNat bs.1.reverse < 2 ^ 64 := by
    have := leNat_lt bs.1.reverse
    rwa [hlen] at this
  have hround := leBytes_leNat bs.1.reverse
  rw [hlen] at hround
  rw [u64Be_eq, UInt64.toNat_ofNat_of_lt' hlt, hround, List.reverse_reverse]

/-- `cred_v2_prehash_bytes`. -/
def credV2PrehashBytes (v : UInt8) (kid : List UInt8) (c : Bytes 32) (iat exp : UInt64)
    (schema : List UInt8) : Except Error (List UInt8) :=
  if kid.length > 255 ∨ schema.length > 255 then .error .fieldTooLong
  else .ok (credDst ++ [v] ++ [kid.length.toUInt8] ++ kid ++ c.1 ++ u64Be iat ++ u64Be exp ++
    [schema.length.toUInt8] ++ schema)

end ProviiCrypto
