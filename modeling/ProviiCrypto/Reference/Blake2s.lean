import ProviiCrypto.Bellman.Interface
import ProviiCrypto.Commons.Basic

/-!
# Blake2s

The hash function itself, with a 32-byte digest, no key and a personalisation: what the host calls
and the gadget is a circuit for. Results about the repository hold for any function in its place;
this one is for evaluating them.
-/

namespace ProviiCrypto.Reference

open Number

/-- The initial chaining value. -/
def blake2sIv : List UInt32 :=
  [0x6a09e667, 0xbb67ae85, 0x3c6ef372, 0xa54ff53a, 0x510e527f, 0x9b05688c, 0x1f83d9ab, 0x5be0cd19]

/-- The message schedule. -/
def blake2sSigma : List (List ℕ) :=
  [[0, 1, 2, 3, 4, 5, 6, 7, 8, 9, 10, 11, 12, 13, 14, 15],
   [14, 10, 4, 8, 9, 15, 13, 6, 1, 12, 0, 2, 11, 7, 5, 3],
   [11, 8, 12, 0, 5, 2, 15, 13, 10, 14, 3, 6, 7, 1, 9, 4],
   [7, 9, 3, 1, 13, 12, 11, 14, 2, 6, 5, 10, 4, 0, 15, 8],
   [9, 0, 5, 7, 2, 4, 10, 15, 14, 1, 11, 12, 6, 8, 3, 13],
   [2, 12, 6, 10, 0, 11, 8, 3, 4, 13, 7, 5, 15, 14, 1, 9],
   [12, 5, 1, 15, 14, 13, 4, 10, 0, 7, 6, 3, 9, 2, 8, 11],
   [13, 11, 7, 14, 12, 1, 3, 9, 5, 0, 15, 4, 8, 6, 2, 10],
   [6, 15, 14, 9, 11, 3, 0, 8, 12, 2, 13, 7, 1, 4, 10, 5],
   [10, 2, 8, 4, 7, 6, 1, 5, 15, 11, 9, 14, 3, 12, 13, 0]]

/-- Rotation to the right. -/
def rotr (x : UInt32) (k : UInt32) : UInt32 := (x >>> k) ||| (x <<< (32 - k))

/-- The mixing function, on four words of the working vector. -/
def mix (v : List UInt32) (i j k l : ℕ) (x y : UInt32) : List UInt32 :=
  let a := v.getD i 0 + v.getD j 0 + x
  let d := rotr (v.getD l 0 ^^^ a) 16
  let c := v.getD k 0 + d
  let b := rotr (v.getD j 0 ^^^ c) 12
  let a := a + b + y
  let d := rotr (d ^^^ a) 8
  let c := c + d
  let b := rotr (b ^^^ c) 7
  (((v.set i a).set j b).set k c).set l d

/-- One round: the columns, then the diagonals. -/
def blake2sRound (m : List UInt32) (v : List UInt32) (s : List ℕ) : List UInt32 :=
  let w := fun i => m.getD (s.getD i 0) 0
  let v := mix v 0 4 8 12 (w 0) (w 1)
  let v := mix v 1 5 9 13 (w 2) (w 3)
  let v := mix v 2 6 10 14 (w 4) (w 5)
  let v := mix v 3 7 11 15 (w 6) (w 7)
  let v := mix v 0 5 10 15 (w 8) (w 9)
  let v := mix v 1 6 11 12 (w 10) (w 11)
  let v := mix v 2 7 8 13 (w 12) (w 13)
  mix v 3 4 9 14 (w 14) (w 15)

/-- The compression function: chaining value, block, bytes hashed so far, last block. -/
def blake2sCompress (h m : List UInt32) (t : ℕ) (last : Bool) : List UInt32 :=
  let low := (UInt32.ofNat t ^^^ blake2sIv.getD 4 0)
  let high := (UInt32.ofNat (t / 2 ^ 32) ^^^ blake2sIv.getD 5 0)
  let flag := if last then ~~~ blake2sIv.getD 6 0 else blake2sIv.getD 6 0
  let v := h ++ blake2sIv.take 4 ++ [low, high, flag, blake2sIv.getD 7 0]
  let v := blake2sSigma.foldl (blake2sRound m) v
  (List.range 8).map fun i => h.getD i 0 ^^^ v.getD i 0 ^^^ v.getD (i + 8) 0

/-- The sixteen words of a block, its missing bytes zero. -/
def blockWords (block : List UInt8) : List UInt32 :=
  (List.range 16).map fun i => UInt32.ofNat (leNat ((block.drop (4 * i)).take 4))

/-- The chain of compressions over the blocks after `t` bytes. -/
def blake2sBlocks (h : List UInt32) (t : ℕ) : List (List UInt8) → List UInt32
  | [] => h
  | [block] => blake2sCompress h (blockWords block) (t + block.length) true
  | block :: blocks =>
    blake2sBlocks (blake2sCompress h (blockWords block) (t + block.length) false)
      (t + block.length) blocks

/-- The parameter block, applied to the initial chaining value. -/
def blake2sInit (p : Bytes 8) : List UInt32 :=
  List.zipWith (· ^^^ ·) blake2sIv
    [0x01010020, 0, 0, 0, 0, 0, UInt32.ofNat (leNat (p.1.take 4)), UInt32.ofNat (leNat (p.1.drop 4))]

/-- The bytes of the digest. -/
def blake2sDigest (p : Bytes 8) (msg : List UInt8) : List UInt8 :=
  let blocks := if msg = [] then [[]] else chunks 64 msg
  (blake2sBlocks (blake2sInit p) 0 blocks).flatMap fun w => leBytes 4 w.toNat

theorem length_blake2sCompress (h m : List UInt32) (t : ℕ) (last : Bool) :
    (blake2sCompress h m t last).length = 8 := by simp [blake2sCompress]

theorem length_blake2sBlocks : ∀ (h : List UInt32) (t : ℕ) (blocks : List (List UInt8)),
    h.length = 8 → (blake2sBlocks h t blocks).length = 8
  | _, _, [], hh => hh
  | _, _, [_], _ => length_blake2sCompress _ _ _ _
  | _, _, _ :: b :: bs, _ => length_blake2sBlocks _ _ (b :: bs) (length_blake2sCompress _ _ _ _)

/-- Blake2s. -/
def blake2s : Blake2s := fun p msg => ⟨blake2sDigest p msg, by
  have hinit : (blake2sInit p).length = 8 := by simp [blake2sInit, blake2sIv]
  rw [blake2sDigest, List.length_flatMap, List.sum_eq_card_nsmul _ 4 (by simp)]
  simp [length_blake2sBlocks _ _ _ hinit]⟩

example : (blake2s noPersonalization (ascii "abc")).1.take 4 = [0x50, 0x8c, 0x5e, 0x8c] := by
  decide +kernel

end ProviiCrypto.Reference
