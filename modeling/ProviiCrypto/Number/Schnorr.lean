import Mathlib.Algebra.Module.Defs
import Mathlib.Algebra.NoZeroSMulDivisors.Basic
import Mathlib.Tactic.Module

/-!
# Schnorr transcripts

Commitment `r`, challenge `c` and response `s` for a public key `vk`, over a vector space whose
scalars are the exponents. Two accepted transcripts with one commitment have one response, or give
away the logarithm of the key (`extract`).
-/

namespace ProviiCrypto.Schnorr

variable {F P : Type} [Field F] [AddCommGroup P] [Module F P]

/-- Commitment, challenge and response. -/
structure Transcript (F P : Type) where
  r : P
  c : F
  s : F

/-- The equation that a verifier checks. -/
def Transcript.Accepts (g vk : P) (t : Transcript F P) : Prop := t.s • g = t.r + t.c • vk

/-- The transcript of the key `x` with the nonce `k`. -/
def honest (g : P) (x k c : F) : Transcript F P := ⟨k • g, c, k + c * x⟩

/-- The logarithm that two transcripts with one commitment and two challenges give away. -/
def extract [DecidableEq F] [DecidableEq P] (t t' : Transcript F P) : Option F :=
  if t.r = t'.r ∧ t.c ≠ t'.c then some ((t.s - t'.s) / (t.c - t'.c)) else none

variable {g vk : P} {t t' : Transcript F P}

/-- The commitment leaves out what the challenges have in common. -/
theorem sub_smul_eq (h : t.Accepts g vk) (h' : t'.Accepts g vk) (hr : t.r = t'.r) :
    (t.s - t'.s) • g = (t.c - t'.c) • vk := by
  rw [sub_smul, sub_smul, h, h', hr, add_sub_add_left_eq_sub]

/-- **Special soundness**: what is extracted is the logarithm of the key, whoever made the
transcripts. -/
theorem smul_of_extract [DecidableEq F] [DecidableEq P] (h : t.Accepts g vk) (h' : t'.Accepts g vk)
    {x : F} (hx : extract t t' = some x) : x • g = vk := by
  unfold extract at hx
  split at hx
  · rename_i hne
    obtain rfl := Option.some.inj hx
    have hsub : t.c - t'.c ≠ 0 := sub_ne_zero.mpr hne.2
    rw [div_eq_inv_mul, mul_smul, sub_smul_eq h h' hne.1, smul_smul, inv_mul_cancel₀ hsub, one_smul]
  · cases hx

/-- **One response, or the key.** -/
theorem eq_or_extract [DecidableEq F] [DecidableEq P] (hg : g ≠ 0) (h : t.Accepts g vk)
    (h' : t'.Accepts g vk) (hr : t.r = t'.r) :
    t.c = t'.c ∧ t.s = t'.s ∨ ∃ x, extract t t' = some x ∧ x • g = vk := by
  by_cases hc : t.c = t'.c
  · left
    have hsub := sub_smul_eq h h' hr
    rw [hc, sub_self, zero_smul] at hsub
    exact ⟨hc, sub_eq_zero.mp ((smul_eq_zero.mp hsub).resolve_right hg)⟩
  · right
    have hextract : extract t t' = some ((t.s - t'.s) / (t.c - t'.c)) := if_pos ⟨hr, hc⟩
    exact ⟨_, hextract, smul_of_extract h h' hextract⟩

/-- **A signer's transcripts** give its key away exactly when a nonce serves two challenges. -/
theorem extract_honest [DecidableEq F] [DecidableEq P] (hg : g ≠ 0) (x k k' c c' : F) :
    extract (honest g x k c) (honest g x k' c') = some x ↔ k = k' ∧ c ≠ c' := by
  have hnonce : k • g = k' • g ↔ k = k' := smul_left_inj hg
  unfold extract honest
  simp only [hnonce]
  split
  · rename_i h
    obtain ⟨rfl, hc⟩ := h
    have hsub : c - c' ≠ 0 := sub_ne_zero.mpr hc
    refine iff_of_true (congrArg some ?_) ⟨rfl, hc⟩
    rw [add_sub_add_left_eq_sub, ← sub_mul, mul_div_cancel_left₀ x hsub]
  · rename_i h
    exact iff_of_false (Option.some_ne_none x).symm h

end ProviiCrypto.Schnorr
