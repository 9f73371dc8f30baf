import Mathlib.Data.Nat.Digits.Lemmas
import Mathlib.Data.Nat.Bitwise
import Mathlib.Data.List.Forall2

/-!
# Bits and bytes

Numbers as bit strings and as byte strings, both least significant first.

* `toBits w n` and `ofBits bs` are inverse on strings of one length (`toBits_ofBits`,
  `ofBits_toBits`); `ofBits_injective` is what packing relies on.
* `bytesBits` spells a byte string as bits, each byte from its least significant bit;
  `ofBits_bytesBits` says that both spell one number.
-/

namespace ProviiCrypto.Number

/-- The number spelled by a bit string. -/
def ofBits (bs : List Bool) : ℕ := Nat.ofDigits 2 (bs.map Bool.toNat)

/-- The `w` low bits of `n`. -/
def toBits (w n : ℕ) : List Bool := (List.range w).map n.testBit

@[simp] theorem ofBits_nil : ofBits [] = 0 := rfl

theorem ofBits_cons (b : Bool) (bs : List Bool) : ofBits (b :: bs) = b.toNat + 2 * ofBits bs := by
  simp [ofBits, Nat.ofDigits_cons]

theorem ofBits_append (xs ys : List Bool) :
    ofBits (xs ++ ys) = ofBits xs + 2 ^ xs.length * ofBits ys := by
  simp [ofBits, Nat.ofDigits_append]

theorem ofBits_lt (bs : List Bool) : ofBits bs < 2 ^ bs.length := by
  have h := Nat.ofDigits_lt_base_pow_length (b := 2) (l := bs.map Bool.toNat) (by norm_num)
    (fun x hx => by
      obtain ⟨b, -, rfl⟩ := List.mem_map.mp hx
      exact Bool.toNat_lt b)
  simpa [ofBits] using h

@[simp] theorem length_toBits (w n : ℕ) : (toBits w n).length = w := by simp [toBits]

theorem toBits_succ (w n : ℕ) : toBits (w + 1) n = n.testBit 0 :: toBits w (n / 2) := by
  simp only [toBits, List.range_succ_eq_map, List.map_cons, List.map_map]
  congr 1
  exact List.map_congr_left fun i _ => by simp [Nat.testBit_succ]

theorem ofBits_toBits (w n : ℕ) : ofBits (toBits w n) = n % 2 ^ w := by
  induction w generalizing n with
  | zero => simp [toBits, Nat.mod_one]
  | succ w ih =>
    have h0 : (n.testBit 0).toNat = n % 2 := by
      rw [Nat.testBit_zero]
      rcases Nat.mod_two_eq_zero_or_one n with h | h <;> simp [h]
    rw [toBits_succ, ofBits_cons, ih, pow_succ', Nat.mod_mul, h0]

theorem ofBits_toBits_of_lt {w n : ℕ} (h : n < 2 ^ w) : ofBits (toBits w n) = n := by
  rw [ofBits_toBits, Nat.mod_eq_of_lt h]

/-- Strings of one length that spell one number are equal. -/
theorem ofBits_injective : ∀ {xs ys : List Bool}, xs.length = ys.length →
    ofBits xs = ofBits ys → xs = ys
  | [], [], _, _ => rfl
  | x :: xs, y :: ys, hlen, h => by
    rw [ofBits_cons, ofBits_cons] at h
    have hxy : x = y := by
      cases x <;> cases y <;> simp only [Bool.toNat_true, Bool.toNat_false] at h ⊢ <;> omega
    subst hxy
    rw [ofBits_injective (by simpa using hlen) (by omega : ofBits xs = ofBits ys)]

theorem toBits_ofBits (bs : List Bool) : toBits bs.length (ofBits bs) = bs :=
  ofBits_injective (length_toBits _ _) (ofBits_toBits_of_lt (ofBits_lt bs))

/-- Numbers below `2 ^ n` are determined by their `n` bits. -/
theorem toBits_injOn {a b n : ℕ} (ha : a < 2 ^ n) (hb : b < 2 ^ n) (h : toBits n a = toBits n b) :
    a = b := by
  rw [← ofBits_toBits_of_lt ha, h, ofBits_toBits_of_lt hb]

/-! ## Bytes -/

/-- A byte array of fixed length, `[u8; n]`. -/
abbrev Bytes (n : ℕ) : Type := {bs : List UInt8 // bs.length = n}

/-- The bits of a byte, from the least significant. -/
def byteBits (b : UInt8) : List Bool := toBits 8 b.toNat

/-- The bits of a byte string, in order. -/
def bytesBits (bs : List UInt8) : List Bool := bs.flatMap byteBits

/-- The number spelled by a byte string, least significant byte first. -/
def leNat (bs : List UInt8) : ℕ := Nat.ofDigits 256 (bs.map UInt8.toNat)

/-- The `k` low bytes of `n`. -/
def leBytes (k n : ℕ) : List UInt8 := (List.range k).map fun i => UInt8.ofNat (n / 256 ^ i)

@[simp] theorem length_byteBits (b : UInt8) : (byteBits b).length = 8 := length_toBits _ _

@[simp] theorem bytesBits_nil : bytesBits [] = [] := rfl

@[simp] theorem bytesBits_cons (b : UInt8) (bs : List UInt8) :
    bytesBits (b :: bs) = byteBits b ++ bytesBits bs := rfl

@[simp] theorem bytesBits_append (xs ys : List UInt8) :
    bytesBits (xs ++ ys) = bytesBits xs ++ bytesBits ys := List.flatMap_append

@[simp] theorem length_bytesBits (bs : List UInt8) : (bytesBits bs).length = 8 * bs.length := by
  induction bs with
  | nil => rfl
  | cons b bs ih => simp only [bytesBits_cons, List.length_append, length_byteBits, ih,
      List.length_cons]; omega

@[simp] theorem leNat_nil : leNat [] = 0 := rfl

theorem leNat_cons (b : UInt8) (bs : List UInt8) : leNat (b :: bs) = b.toNat + 256 * leNat bs := by
  simp [leNat, Nat.ofDigits_cons]

theorem ofBits_byteBits (b : UInt8) : ofBits (byteBits b) = b.toNat :=
  ofBits_toBits_of_lt b.toNat_lt

theorem byteBits_injective : Function.Injective byteBits := by
  intro a b h
  have hn := congrArg ofBits h
  rwa [ofBits_byteBits, ofBits_byteBits, UInt8.toNat_inj] at hn

theorem ofBits_bytesBits (bs : List UInt8) : ofBits (bytesBits bs) = leNat bs := by
  induction bs with
  | nil => rfl
  | cons b bs ih =>
    rw [bytesBits_cons, ofBits_append, ih, ofBits_byteBits, length_byteBits, leNat_cons]
    norm_num

theorem leNat_lt (bs : List UInt8) : leNat bs < 256 ^ bs.length := by
  have h := ofBits_lt (bytesBits bs)
  rw [ofBits_bytesBits, length_bytesBits, pow_mul] at h
  exact h

theorem bytesBits_injective {xs ys : List UInt8} (h : bytesBits xs = bytesBits ys) : xs = ys := by
  induction xs generalizing ys with
  | nil =>
    cases ys with
    | nil => rfl
    | cons y ys => exact absurd (congrArg List.length h) (by simp; omega)
  | cons x xs ih =>
    cases ys with
    | nil => simpa using congrArg List.length h
    | cons y ys =>
      obtain ⟨hxy, hrest⟩ := List.append_inj h (by simp)
      rw [byteBits_injective hxy, ih hrest]

theorem leNat_injective {xs ys : List UInt8} (hlen : xs.length = ys.length)
    (h : leNat xs = leNat ys) : xs = ys :=
  bytesBits_injective (ofBits_injective (by simp [hlen])
    (by rw [ofBits_bytesBits, ofBits_bytesBits, h]))

@[simp] theorem length_leBytes (k n : ℕ) : (leBytes k n).length = k := by simp [leBytes]

theorem leBytes_succ (k n : ℕ) : leBytes (k + 1) n = UInt8.ofNat n :: leBytes k (n / 256) := by
  simp only [leBytes, List.range_succ_eq_map, List.map_cons, List.map_map, pow_zero, Nat.div_one]
  congr 1
  refine List.map_congr_left fun i _ => ?_
  simp [pow_succ', Nat.div_div_eq_div_mul]

theorem leNat_leBytes (k n : ℕ) : leNat (leBytes k n) = n % 256 ^ k := by
  induction k generalizing n with
  | zero => simp [leBytes, Nat.mod_one]
  | succ k ih =>
    rw [leBytes_succ, leNat_cons, ih, pow_succ', Nat.mod_mul]
    simp

theorem leNat_leBytes_of_lt {k n : ℕ} (h : n < 256 ^ k) : leNat (leBytes k n) = n := by
  rw [leNat_leBytes, Nat.mod_eq_of_lt h]

theorem leBytes_leNat (bs : List UInt8) : leBytes bs.length (leNat bs) = bs :=
  leNat_injective (length_leBytes _ _) (leNat_leBytes_of_lt (leNat_lt bs))

theorem bytesBits_leBytes (k n : ℕ) : bytesBits (leBytes k n) = toBits (8 * k) n := by
  refine ofBits_injective (by simp) ?_
  rw [ofBits_bytesBits, leNat_leBytes, ofBits_toBits, pow_mul]
  norm_num

/-- Every bit string of whole bytes is the bits of a byte string. -/
theorem exists_bytesBits {k : ℕ} {bs : List Bool} (h : bs.length = 8 * k) :
    ∃ xs : Bytes k, bytesBits xs.1 = bs :=
  ⟨⟨leBytes k (ofBits bs), length_leBytes _ _⟩, by
    rw [bytesBits_leBytes, ← h, toBits_ofBits]⟩

/-! ## Halves -/

/-- `[0; 64]` with its first half overwritten. -/
def padTo64 (b : Bytes 32) : Bytes 64 :=
  ⟨b.1 ++ List.replicate 32 0, by simp [b.2]⟩

/-- The first half, `bytes[0..32]`. -/
def lowHalf (b : Bytes 64) : Bytes 32 := ⟨b.1.take 32, by simp [b.2]⟩

/-- The second half, `bytes[32..64]`. -/
def highHalf (b : Bytes 64) : Bytes 32 := ⟨b.1.drop 32, by simp [b.2]⟩

/-- The concatenation of two halves. -/
def joinHalves (a b : Bytes 32) : Bytes 64 := ⟨a.1 ++ b.1, by simp [a.2, b.2]⟩

@[simp] theorem lowHalf_joinHalves (a b : Bytes 32) : lowHalf (joinHalves a b) = a :=
  Subtype.ext (by simp [lowHalf, joinHalves, ← a.2])

@[simp] theorem highHalf_joinHalves (a b : Bytes 32) : highHalf (joinHalves a b) = b :=
  Subtype.ext (by simp [highHalf, joinHalves, ← a.2])

theorem joinHalves_halves (b : Bytes 64) : joinHalves (lowHalf b) (highHalf b) = b :=
  Subtype.ext (List.take_append_drop 32 b.1)

theorem leNat_padTo64 (b : Bytes 32) : leNat (padTo64 b).1 = leNat b.1 := by
  rw [← ofBits_bytesBits, ← ofBits_bytesBits, padTo64, bytesBits_append, ofBits_append,
    ofBits_bytesBits (List.replicate 32 0)]
  rfl

/-! ## Chunks -/

/-- A list in pieces of `k`, the last one possibly shorter. -/
def chunks {α : Type} (k : ℕ) (xs : List α) : List (List α) :=
  (List.range ((xs.length + (k - 1)) / k)).map fun i => (xs.drop (k * i)).take k

section

variable {α : Type} {k : ℕ} {xs : List α}

@[simp] theorem chunks_nil (hk : 0 < k) : chunks k ([] : List α) = [] := by
  simp [chunks, Nat.div_eq_of_lt (Nat.sub_one_lt_of_lt hk)]

theorem chunks_eq_cons (hk : 0 < k) (h : xs ≠ []) :
    chunks k xs = xs.take k :: chunks k (xs.drop k) := by
  have hpos : 0 < xs.length := List.length_pos_iff.mpr h
  have hcount : (xs.length + (k - 1)) / k = ((xs.drop k).length + (k - 1)) / k + 1 := by
    rw [List.length_drop]
    rcases le_or_gt k xs.length with hle | hlt
    · rw [← Nat.add_div_right _ hk]
      congr 1
      omega
    · rw [Nat.sub_eq_zero_of_le hlt.le, Nat.div_eq_of_lt (by omega : 0 + (k - 1) < k)]
      exact Nat.div_eq_of_lt_le (by omega) (by omega)
  rw [chunks, hcount, List.range_succ_eq_map, List.map_cons, List.map_map, chunks]
  congr 1
  refine List.map_congr_left fun i _ => ?_
  rw [Function.comp_apply, List.drop_drop, Nat.mul_succ, Nat.add_comm]

/-- The number of pieces. -/
@[simp] theorem length_chunks : (chunks k xs).length = (xs.length + (k - 1)) / k := by
  simp [chunks]

end

/-- **Packing is injective**: strings of one length whose pieces spell the same numbers are equal,
when each number determines its piece. -/
theorem chunks_injective {β : Type} {k : ℕ} (hk : 0 < k) (f : List Bool → β)
    (hf : ∀ xs ys : List Bool, xs.length = ys.length → xs.length ≤ k → f xs = f ys → xs = ys)
    {xs ys : List Bool} (hlen : xs.length = ys.length)
    (h : (chunks k xs).map f = (chunks k ys).map f) : xs = ys := by
  induction hn : xs.length using Nat.strong_induction_on generalizing xs ys with
  | _ n ih =>
    subst hn
    by_cases hx : xs = []
    · subst hx
      exact (List.length_eq_zero_iff.mp hlen.symm).symm
    · have hy : ys ≠ [] := fun h0 => hx (List.length_eq_zero_iff.mp (by simp [hlen, h0]))
      rw [chunks_eq_cons hk hx, chunks_eq_cons hk hy, List.map_cons, List.map_cons,
        List.cons.injEq] at h
      have hpos : 0 < xs.length := List.length_pos_iff.mpr hx
      have htake := hf _ _ (by simp [hlen]) (by simp) h.1
      have hdrop := ih (xs.drop k).length (by simp; omega) (by simp [hlen]) h.2 rfl
      rw [← List.take_append_drop k xs, htake, hdrop, List.take_append_drop]

end ProviiCrypto.Number
