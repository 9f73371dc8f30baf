import Mathlib.Tactic.NormNum.BigOperators
import Mathlib.Tactic.NormNum.Prime
import Mathlib.Tactic.ReduceModChar
import ProviiCrypto.Number.Pratt

/-!
# The two prime fields

`Scalar` is the scalar field of BLS12-381, over which the circuit and the Jubjub curve are
defined; `Fr` is the scalar field of Jubjub, whose modulus is the order of the prime-order
subgroup. Both moduli are proved prime by their factor chains.
-/

namespace ProviiCrypto

/-- The modulus of the BLS12-381 scalar field. -/
abbrev scalarModulus : ℕ :=
  52435875175126190479447740508185965837690552500527637822603658699938581184513

/-- The order of the prime-order subgroup of Jubjub. -/
abbrev subgroupOrder : ℕ :=
  6554484396890773809930967563523245729705921265872317281365359162392183254199

theorem scalarModulus_prime : scalarModulus.Prime := by
  refine Number.prime_of_pratt 7 [(2, 32), (3, 1), (11, 1), (19, 1), (10177, 1), (125527, 1),
    (859267, 1), (906349, 2), (2508409, 1), (2529403, 1), (52437899, 1), (254760293, 2)] ?_ (by
    norm_num) ?_ ?_
  · norm_num [List.Forall]
  · norm_num
    reduce_mod_char
  · norm_num [List.Forall]
    and_intros <;> (reduce_mod_char; decide)

section SubgroupOrder

/-! ## The factor chain of `subgroupOrder - 1` -/

private theorem prime_2567293236931 : Nat.Prime 2567293236931 := by
  refine Number.prime_of_pratt 2 [(2, 1), (3, 1), (5, 1), (457, 1), (187256983, 1)] ?_ (by
    norm_num) ?_ ?_
  · norm_num [List.Forall]
  · norm_num
    reduce_mod_char
  · norm_num [List.Forall]
    and_intros <;> (reduce_mod_char; decide)

private theorem prime_431305263804409 : Nat.Prime 431305263804409 := by
  refine Number.prime_of_pratt 13 [(2, 3), (3, 1), (7, 1), (2567293236931, 1)] ?_ (by norm_num)
    ?_ ?_
  · exact ⟨by norm_num, by norm_num, by norm_num, prime_2567293236931⟩
  · norm_num
    reduce_mod_char
  · norm_num [List.Forall]
    and_intros <;> (reduce_mod_char; decide)

private theorem prime_203928654140967434528233 : Nat.Prime 203928654140967434528233 := by
  refine Number.prime_of_pratt 5 [(2, 3), (3, 2), (6566909, 1), (431305263804409, 1)] ?_ (by
    norm_num) ?_ ?_
  · exact ⟨by norm_num, by norm_num, by norm_num, prime_431305263804409⟩
  · norm_num
    reduce_mod_char
  · norm_num [List.Forall]
    and_intros <;> (reduce_mod_char; decide)

private theorem prime_1036009829 : Nat.Prime 1036009829 := by
  refine Number.prime_of_pratt 2 [(2, 2), (7, 1), (499, 1), (74149, 1)] ?_ (by norm_num) ?_ ?_
  · norm_num [List.Forall]
  · norm_num
    reduce_mod_char
  · norm_num [List.Forall]
    and_intros <;> (reduce_mod_char; decide)

private theorem prime_35203613989421 : Nat.Prime 35203613989421 := by
  refine Number.prime_of_pratt 2 [(2, 2), (5, 1), (1699, 1), (1036009829, 1)] ?_ (by norm_num) ?_ ?_
  · exact ⟨by norm_num, by norm_num, by norm_num, prime_1036009829⟩
  · norm_num
    reduce_mod_char
  · norm_num [List.Forall]
    and_intros <;> (reduce_mod_char; decide)

private theorem prime_12954929948106929 : Nat.Prime 12954929948106929 := by
  refine Number.prime_of_pratt 3 [(2, 4), (23, 1), (35203613989421, 1)] ?_ (by norm_num) ?_ ?_
  · exact ⟨by norm_num, by norm_num, prime_35203613989421⟩
  · norm_num
    reduce_mod_char
  · norm_num [List.Forall]
    and_intros <;> (reduce_mod_char; decide)

private theorem prime_1710050753150114629 : Nat.Prime 1710050753150114629 := by
  refine Number.prime_of_pratt 6 [(2, 2), (3, 1), (11, 1), (12954929948106929, 1)] ?_ (by
    norm_num) ?_ ?_
  · exact ⟨by norm_num, by norm_num, by norm_num, prime_12954929948106929⟩
  · norm_num
    reduce_mod_char
  · norm_num [List.Forall]
    and_intros <;> (reduce_mod_char; decide)

private theorem prime_16356472538621 : Nat.Prime 16356472538621 := by
  refine Number.prime_of_pratt 2 [(2, 2), (5, 1), (23, 1), (62701, 1), (567097, 1)] ?_ (by
    norm_num) ?_ ?_
  · norm_num [List.Forall]
  · norm_num
    reduce_mod_char
  · norm_num [List.Forall]
    and_intros <;> (reduce_mod_char; decide)

private theorem prime_623312455501769069 : Nat.Prime 623312455501769069 := by
  refine Number.prime_of_pratt 2 [(2, 2), (7, 1), (1361, 1), (16356472538621, 1)] ?_ (by
    norm_num) ?_ ?_
  · exact ⟨by norm_num, by norm_num, by norm_num, prime_16356472538621⟩
  · norm_num
    reduce_mod_char
  · norm_num [List.Forall]
    and_intros <;> (reduce_mod_char; decide)

private theorem prime_255074062430788457494141376149 :
    Nat.Prime 255074062430788457494141376149 := by
  refine Number.prime_of_pratt 2 [(2, 2), (3, 1), (311, 1), (5521, 1), (19861, 1),
    (623312455501769069, 1)] ?_ (by norm_num) ?_ ?_
  · exact ⟨by norm_num, by norm_num, by norm_num, by norm_num, by norm_num,
      prime_623312455501769069⟩
  · norm_num
    reduce_mod_char
  · norm_num [List.Forall]
    and_intros <;> (reduce_mod_char; decide)

theorem subgroupOrder_prime : subgroupOrder.Prime := by
  refine Number.prime_of_pratt 6 [(2, 1), (3, 1), (12281, 1), (203928654140967434528233, 1),
    (1710050753150114629, 1), (255074062430788457494141376149, 1)] ?_ (by norm_num) ?_ ?_
  · exact ⟨by norm_num, by norm_num, by norm_num, prime_203928654140967434528233,
      prime_1710050753150114629, prime_255074062430788457494141376149⟩
  · norm_num
    reduce_mod_char
  · norm_num [List.Forall]
    and_intros <;> (reduce_mod_char; decide)

end SubgroupOrder

instance : Fact scalarModulus.Prime := ⟨scalarModulus_prime⟩

instance : Fact subgroupOrder.Prime := ⟨subgroupOrder_prime⟩

/-- `bls12_381::Scalar`. -/
abbrev Scalar : Type := ZMod scalarModulus

/-- `jubjub::Fr`. -/
abbrev Fr : Type := ZMod subgroupOrder

end ProviiCrypto
