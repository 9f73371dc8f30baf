import Mathlib.Data.Finset.Card
import ProviiCrypto.Commit

/-!
# The randomness of a commitment

Randomness is drawn as bytes and handed on as bits, and the host's check rebuilds bytes from the
bits to count their values.

* `rebuiltBytes_generate`: the bytes rebuilt are those drawn, without the bits not handed on.
* `countSeen_eq`: the check's loop over a table of flags with a 16-bit counter counts the values.
* `commitment_randomness`: what is generated, what is rebuilt and what is accepted.
-/

namespace ProviiCrypto

open Number

/-- `generate_commitment_randomness`. -/
def generateCommitmentRandomness (rng : RngStream) (numBits : ℕ) : List Bool :=
  let buf := (fillBytes rng ((numBits + 7) / 8)).1
  (List.range numBits).map fun i => (buf.getD (i / 8) 0 >>> (i % 8).toUInt8) &&& 1 == 1

/-- The bytes that `validate_commitment_randomness` collects. -/
def rebuiltBytes (rBits : List Bool) : List UInt8 := (chunks 8 rBits).map (chunkByte 0 0)

/-- The `k` low bits of a byte. -/
def lowBits (k : ℕ) (b : UInt8) : UInt8 := UInt8.ofNat (b.toNat % 2 ^ k)

/-! ## From bits to bytes -/

theorem toNat_one_shiftLeft {i : ℕ} (hi : i < 8) : ((1 : UInt8) <<< i.toUInt8).toNat = 2 ^ i := by
  interval_cases i <;> rfl

/-- A byte collects the number that its bits spell. -/
theorem toNat_chunkByte : ∀ (chunk : List Bool) (i : ℕ) (byte : UInt8), byte.toNat < 2 ^ i →
    i + chunk.length ≤ 8 → (chunkByte i byte chunk).toNat = byte.toNat + 2 ^ i * ofBits chunk
  | [], i, byte, _, _ => by simp [chunkByte]
  | bit :: chunk, i, byte, hbyte, hlen => by
    rw [List.length_cons] at hlen
    have hset : (if bit then byte ||| ((1 : UInt8) <<< i.toUInt8) else byte).toNat =
        byte.toNat + 2 ^ i * bit.toNat := by
      cases bit with
      | false => simp
      | true =>
        have hor := Nat.two_pow_add_eq_or_of_lt hbyte 1
        rw [mul_one] at hor
        rw [if_pos rfl, UInt8.toNat_or, toNat_one_shiftLeft (by omega), Nat.or_comm, ← hor,
          Bool.toNat_true, mul_one, Nat.add_comm]
    have hlt : byte.toNat + 2 ^ i * bit.toNat < 2 ^ (i + 1) := by
      have hbit := Nat.mul_le_mul_left (2 ^ i) (Nat.lt_succ_iff.mp (Bool.toNat_lt bit))
      rw [pow_succ]
      omega
    unfold chunkByte
    rw [toNat_chunkByte chunk (i + 1) _ (hset ▸ hlt) (by omega), hset, ofBits_cons, pow_succ]
    ring

theorem toNat_chunkByte_zero {chunk : List Bool} (hlen : chunk.length ≤ 8) :
    (chunkByte 0 0 chunk).toNat = ofBits chunk := by
  rw [toNat_chunkByte chunk 0 0 (by decide) (by omega)]
  simp

/-! ## From bytes to bits and back -/

theorem shiftRight_and_one (b : UInt8) {i : ℕ} (hi : i < 8) :
    ((b >>> i.toUInt8) &&& 1 == 1) = b.toNat.testBit i :=
  List.map_inj_left.mp (u8Bits_eq b) i (List.mem_range.mpr hi)

theorem generateCommitmentRandomness_eq (rng : RngStream) (n : ℕ) :
    generateCommitmentRandomness rng n =
      (List.range n).map fun i => (rng (i / 8)).toNat.testBit (i % 8) := by
  refine List.map_congr_left fun i hi => ?_
  have hi : i < n := List.mem_range.mp hi
  have hbuf : (fillBytes rng ((n + 7) / 8)).1.getD (i / 8) 0 = rng (i / 8) := by
    unfold fillBytes
    rw [List.getD_eq_getElem _ _ (by simp; omega)]
    simp
  rw [hbuf]
  exact shiftRight_and_one _ (Nat.mod_lt i (by norm_num))

/-- The bits handed on, byte by byte. -/
theorem chunks_generate (rng : RngStream) (n : ℕ) :
    chunks 8 (generateCommitmentRandomness rng n) =
      (List.range ((n + 7) / 8)).map fun i => toBits (min 8 (n - 8 * i)) (rng i).toNat := by
  rw [generateCommitmentRandomness_eq]
  unfold chunks
  rw [List.length_map, List.length_range]
  refine List.map_congr_left fun i _ => List.ext_getElem ?_ fun j hj _ => ?_
  · simp
  · simp only [List.length_take, List.length_drop, List.length_map, List.length_range] at hj
    have hdiv : (8 * i + j) / 8 = i := by omega
    have hmod : (8 * i + j) % 8 = j := by omega
    simp only [toBits, List.getElem_take, List.getElem_drop, List.getElem_map, List.getElem_range,
      hdiv, hmod]

/-- A byte all of whose bits are handed on is whole. -/
theorem lowBits_of_le {k : ℕ} (hk : 8 ≤ k) (b : UInt8) : lowBits k b = b := by
  unfold lowBits
  rw [Nat.mod_eq_of_lt (b.toNat_lt.trans_le (Nat.pow_le_pow_right (by norm_num) hk))]
  exact UInt8.ofNat_toNat

/-- **The bytes rebuilt are those drawn**, without the bits of the last one that were not handed
on. -/
theorem rebuiltBytes_generate (rng : RngStream) (n : ℕ) :
    rebuiltBytes (generateCommitmentRandomness rng n) =
      (List.range ((n + 7) / 8)).map fun i => lowBits (n - 8 * i) (rng i) := by
  unfold rebuiltBytes
  rw [chunks_generate, List.map_map]
  refine List.map_congr_left fun i _ => UInt8.toNat_inj.mp ?_
  have hb := (rng i).toNat_lt
  rw [Function.comp_apply, toNat_chunkByte_zero (by simp), ofBits_toBits]
  rcases le_total 8 (n - 8 * i) with hle | hle
  · rw [min_eq_left hle, lowBits_of_le hle, Nat.mod_eq_of_lt hb]
  · rw [min_eq_right hle, lowBits]
    exact (UInt8.toNat_ofNat_of_lt' (lt_of_le_of_lt (Nat.mod_le _ _) hb)).symm

/-! ## Counting values -/

/-- A value not seen is one of those counted. -/
theorem card_cons_sdiff (b : UInt8) (bytes : List UInt8) (seen : Finset UInt8) :
    ((b :: bytes).toFinset \ seen).card =
      if b ∈ seen then (bytes.toFinset \ seen).card
      else (bytes.toFinset \ insert b seen).card + 1 := by
  rw [List.toFinset_cons]
  split_ifs with hb
  · rw [Finset.insert_sdiff_of_mem _ hb]
  · have hsplit : insert b bytes.toFinset \ seen = insert b (bytes.toFinset \ insert b seen) := by
      ext c
      simp only [Finset.mem_sdiff, Finset.mem_insert]
      by_cases hc : c = b
      · simp [hc, hb]
      · simp [hc]
    rw [hsplit, Finset.card_insert_of_notMem (by simp)]

/-- There are 256 values. -/
theorem card_toFinset_le (bytes : List UInt8) : bytes.toFinset.card ≤ 256 := by
  calc bytes.toFinset.card
      = (bytes.toFinset.image UInt8.toNat).card :=
        (Finset.card_image_of_injective _ fun _ _ => UInt8.toNat_inj.mp).symm
    _ ≤ (Finset.range 256).card := by
        refine Finset.card_le_card fun n hn => ?_
        obtain ⟨b, -, rfl⟩ := Finset.mem_image.mp hn
        exact Finset.mem_range.mpr b.toNat_lt
    _ = 256 := Finset.card_range 256

theorem getD_set (table : List Bool) (htable : table.length = 256) (a b : UInt8) :
    (table.set a.toNat true).getD b.toNat false =
      if b = a then true else table.getD b.toNat false := by
  have ha : a.toNat < table.length := htable ▸ a.toNat_lt
  simp only [List.getD_eq_getElem?_getD, List.getElem?_set, UInt8.toNat_inj, eq_comm (a := b)]
  by_cases hab : a = b
  · simp [hab, hab ▸ ha]
  · simp [hab]

/-- The loop's invariant: the table flags the values seen, and the counter does not saturate. -/
theorem countSeen_eq_add : ∀ (bytes : List UInt8) (table : List Bool) (seen : Finset UInt8)
    (unique : UInt16), table.length = 256 →
    (∀ b : UInt8, table.getD b.toNat false = decide (b ∈ seen)) →
    unique.toNat + (bytes.toFinset \ seen).card < 2 ^ 16 →
    (countSeen bytes table unique).toNat = unique.toNat + (bytes.toFinset \ seen).card
  | [], _, _, _, _, _, _ => by simp [countSeen]
  | b :: bytes, table, seen, unique, htable, hseen, hlt => by
    rw [card_cons_sdiff] at hlt ⊢
    unfold countSeen
    by_cases hb : b ∈ seen
    · have hflag : table.getD b.toNat false = true := (hseen b).trans (decide_eq_true hb)
      rw [if_pos hb] at hlt ⊢
      rw [if_pos hflag]
      exact countSeen_eq_add bytes table seen unique htable hseen hlt
    · have hflag : ¬ table.getD b.toNat false = true := by
        rw [hseen b, decide_eq_true_eq]
        exact hb
      rw [if_neg hb] at hlt ⊢
      have hadd : (u16SaturatingAdd unique 1).toNat = unique.toNat + 1 := by
        unfold u16SaturatingAdd
        rw [show (1 : UInt16).toNat = 1 from rfl, min_eq_left (by omega)]
        exact UInt16.toNat_ofNat_of_lt' (show unique.toNat + 1 < 2 ^ 16 by omega)
      have hseen' : ∀ c : UInt8, (table.set b.toNat true).getD c.toNat false =
          decide (c ∈ insert b seen) := by
        intro c
        rw [getD_set table htable, hseen c]
        by_cases hc : c = b
        · simp [hc]
        · simp [hc]
      rw [if_neg hflag, countSeen_eq_add bytes _ (insert b seen) _ (by rw [List.length_set, htable])
        hseen' (by omega), hadd]
      omega

/-- **The loop counts the values**, with a table of 256 flags and a counter of 16 bits. -/
theorem countSeen_eq (bytes : List UInt8) :
    (countSeen bytes (List.replicate 256 false) 0).toNat = bytes.toFinset.card := by
  have hle := card_toFinset_le bytes
  rw [countSeen_eq_add bytes _ ∅ 0 List.length_replicate (fun b => ?_) (by
    rw [Finset.sdiff_empty, show (0 : UInt16).toNat = 0 from rfl]
    omega)]
  · rw [Finset.sdiff_empty]
    exact Nat.zero_add _
  · rw [List.getD_eq_getElem _ _ (by rw [List.length_replicate]; exact b.toNat_lt),
      List.getElem_replicate]
    rfl

theorem eight_le_countSeen (bytes : List UInt8) :
    8 ≤ countSeen bytes (List.replicate 256 false) 0 ↔ 8 ≤ bytes.toFinset.card := by
  rw [UInt16.le_iff_toNat_le, countSeen_eq]
  rfl

/-- What the check accepts. -/
theorem validateCommitmentRandomness_eq_ok {rBits : List Bool} :
    validateCommitmentRandomness rBits = .ok () ↔
      32 ≤ rBits.length ∧ 8 ≤ (rebuiltBytes rBits).toFinset.card := by
  unfold validateCommitmentRandomness
  rw [← eight_le_countSeen]
  by_cases hlen : rBits.length < 32
  · rw [if_pos hlen]
    exact iff_of_false nofun fun h => absurd h.1 (by omega)
  · rw [if_neg hlen]
    dsimp only
    unfold rebuiltBytes
    split_ifs with hcount
    · exact iff_of_true rfl ⟨by omega, hcount⟩
    · exact iff_of_false nofun fun h => hcount h.2

/-- **Generation, packing and acceptance agree**: as many bits come out as are asked for; the bytes
rebuilt from them are those drawn, the last one without the bits that were not handed on; the check
accepts at least 32 bits whose bytes take at least eight values, which its loop counts; and the
commitment is made exactly for what the check accepts of a length from 128 to 1096, whatever the
date. -/
theorem commitment_randomness (S : Sapling) :
    (∀ rng n, (generateCommitmentRandomness rng n).length = n ∧
      rebuiltBytes (generateCommitmentRandomness rng n) =
        (List.range ((n + 7) / 8)).map fun i => lowBits (n - 8 * i) (rng i)) ∧
    (∀ rBits, (countSeen (rebuiltBytes rBits) (List.replicate 256 false) 0).toNat =
      (rebuiltBytes rBits).toFinset.card) ∧
    (∀ rBits, validateCommitmentRandomness rBits = .ok () ↔
      32 ≤ rBits.length ∧ 8 ≤ (rebuiltBytes rBits).toFinset.card) ∧
    ∀ dobDays rBits, (∃ c, S.pedersenCommitDobValidated dobDays rBits = .ok c) ↔
      (32 ≤ rBits.length ∧ 8 ≤ (rebuiltBytes rBits).toFinset.card) ∧
        128 ≤ rBits.length ∧ rBits.length ≤ 1096 := by
  refine ⟨fun rng n => ⟨?_, rebuiltBytes_generate rng n⟩, ?_, ?_, ?_⟩
  · rw [generateCommitmentRandomness_eq, List.length_map, List.length_range]
  · intro rBits
    exact countSeen_eq _
  · exact fun rBits => validateCommitmentRandomness_eq_ok
  · intro dobDays rBits
    rw [S.pedersenCommitDobValidated_isOk, validateCommitmentRandomness_eq_ok]

end ProviiCrypto
