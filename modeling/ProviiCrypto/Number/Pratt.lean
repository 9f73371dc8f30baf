import Mathlib.NumberTheory.LucasPrimality

/-!
# Primality of large numbers

A Pratt certificate of `p` is a primitive root `a` and the factorisation of `p - 1`. Its modular
powers are stated in `ZMod p`, where `reduce_mod_char` evaluates them by repeated squaring.
-/

namespace ProviiCrypto.Number

/-- **Pratt's certificate**: `a` has order exactly `p - 1`, since its order divides `p - 1` and
no `(p - 1) / q`. -/
theorem prime_of_pratt {p : ℕ} (a : ZMod p) (factors : List (ℕ × ℕ))
    (hprime : factors.Forall fun f => f.1.Prime)
    (hprod : (factors.map fun f => f.1 ^ f.2).prod = p - 1)
    (hone : a ^ (p - 1) = 1)
    (hroot : factors.Forall fun f => a ^ ((p - 1) / f.1) ≠ 1) : p.Prime := by
  rw [List.forall_iff_forall_mem] at hprime hroot
  refine lucas_primality p a hone ?_
  intro q hq hdvd
  -- a prime divisor of `p - 1` divides one of the listed prime powers
  rw [← hprod] at hdvd
  obtain ⟨_, hmem, hqx⟩ := (Prime.dvd_prod_iff hq.prime).mp hdvd
  obtain ⟨f, hf, rfl⟩ := List.mem_map.mp hmem
  have hqf : q = f.1 := (Nat.prime_dvd_prime_iff_eq hq (hprime f hf)).mp (hq.dvd_of_dvd_pow hqx)
  rw [hqf]
  exact hroot f hf

end ProviiCrypto.Number
