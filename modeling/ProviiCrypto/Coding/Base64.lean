import Mathlib.Data.List.Nodup
import Mathlib.Tactic.Linarith

/-!
# Base64 for URLs, without padding

Three bytes are four digits of six bits; a last group of one or two bytes is two or three digits,
filled up with zero bits. `base64Url_injective`: the text determines the bytes.
-/

namespace ProviiCrypto.Coding

/-- The digits. -/
def base64UrlAlphabet : List Char :=
  "ABCDEFGHIJKLMNOPQRSTUVWXYZabcdefghijklmnopqrstuvwxyz0123456789-_".toList

/-- A number below 64 as a digit. -/
def base64UrlDigit (n : ℕ) : Char := base64UrlAlphabet.getD n 'A'

/-- A number as `k` digits, most significant first. -/
def base64UrlDigits : ℕ → ℕ → List Char
  | 0, _ => []
  | k + 1, n => base64UrlDigits k (n / 64) ++ [base64UrlDigit (n % 64)]

/-- The text of a byte string. -/
def base64Url : List UInt8 → List Char
  | [] => []
  | [a] => base64UrlDigits 2 (a.toNat * 16)
  | [a, b] => base64UrlDigits 3 ((a.toNat * 256 + b.toNat) * 4)
  | a :: b :: c :: rest =>
    base64UrlDigits 4 ((a.toNat * 256 + b.toNat) * 256 + c.toNat) ++ base64Url rest

theorem base64UrlDigit_inj {m n : ℕ} (hm : m < 64) (hn : n < 64)
    (h : base64UrlDigit m = base64UrlDigit n) : m = n := by
  have hnodup : base64UrlAlphabet.Nodup := by decide
  have hlen : base64UrlAlphabet.length = 64 := by decide
  unfold base64UrlDigit at h
  simp only [List.getD_eq_getElem?_getD, List.getElem?_eq_getElem (hlen.symm ▸ hm),
    List.getElem?_eq_getElem (hlen.symm ▸ hn), Option.getD_some] at h
  exact hnodup.getElem_inj_iff.mp h

@[simp] theorem length_base64UrlDigits (k n : ℕ) : (base64UrlDigits k n).length = k := by
  induction k generalizing n with
  | zero => rfl
  | succ k ih => simp [base64UrlDigits, ih]

/-- The digits determine the number. -/
theorem base64UrlDigits_inj {k m n : ℕ} (hm : m < 64 ^ k) (hn : n < 64 ^ k)
    (h : base64UrlDigits k m = base64UrlDigits k n) : m = n := by
  induction k generalizing m n with
  | zero => omega
  | succ k ih =>
    rw [pow_succ] at hm hn
    obtain ⟨hhigh, hlow⟩ := List.append_inj' h rfl
    have hdiv := ih (by omega) (by omega) hhigh
    have hmod := base64UrlDigit_inj (Nat.mod_lt m (by omega)) (Nat.mod_lt n (by omega))
      (List.head_eq_of_cons_eq hlow)
    omega

/-- A text has four digits for three bytes. -/
theorem length_base64Url (bs : List UInt8) :
    (base64Url bs).length = (4 * bs.length + 2) / 3 := by
  fun_induction base64Url bs with
  | case1 => rfl
  | case2 a => simp
  | case3 a b => simp
  | case4 a b c rest ih =>
    simp only [List.length_append, length_base64UrlDigits, ih, List.length_cons]
    omega

/-- **The text determines the bytes.** -/
theorem base64Url_injective : Function.Injective base64Url := by
  intro xs ys h
  have hlen : xs.length = ys.length := by
    have := congrArg List.length h
    rw [length_base64Url, length_base64Url] at this
    omega
  -- the groups of the two strings correspond
  fun_induction base64Url xs generalizing ys with
  | case1 => exact (List.length_eq_zero_iff.mp hlen.symm).symm
  | case2 a =>
    obtain ⟨a', rfl⟩ := List.length_eq_one_iff.mp hlen.symm
    have ha := a.toNat_lt
    have ha' := a'.toNat_lt
    have hn := base64UrlDigits_inj (k := 2) (by omega) (by omega) h
    rw [UInt8.toNat_inj.mp (by omega : a.toNat = a'.toNat)]
  | case3 a b =>
    obtain ⟨a', b', rfl⟩ := List.length_eq_two.mp hlen.symm
    have ha := a.toNat_lt
    have ha' := a'.toNat_lt
    have hb := b.toNat_lt
    have hb' := b'.toNat_lt
    have hn := base64UrlDigits_inj (k := 3) (by omega) (by omega) h
    rw [UInt8.toNat_inj.mp (by omega : a.toNat = a'.toNat),
      UInt8.toNat_inj.mp (by omega : b.toNat = b'.toNat)]
  | case4 a b c rest ih =>
    match ys, hlen with
    | a' :: b' :: c' :: rest', hlen =>
      obtain ⟨hgroup, hrest⟩ := List.append_inj h (by simp)
      have ha := a.toNat_lt
      have ha' := a'.toNat_lt
      have hb := b.toNat_lt
      have hb' := b'.toNat_lt
      have hc := c.toNat_lt
      have hc' := c'.toNat_lt
      have hn := base64UrlDigits_inj (k := 4) (by omega) (by omega) hgroup
      rw [UInt8.toNat_inj.mp (by omega : a.toNat = a'.toNat),
        UInt8.toNat_inj.mp (by omega : b.toNat = b'.toNat),
        UInt8.toNat_inj.mp (by omega : c.toNat = c'.toNat),
        ih hrest (by simpa using hlen)]

end ProviiCrypto.Coding
