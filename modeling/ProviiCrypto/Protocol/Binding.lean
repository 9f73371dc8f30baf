import ProviiCrypto.Protocol.Basic

/-!
# What a challenge and a replay tag bind

Neither `rp_challenge` nor `compute_replay_tag` writes the length of its first argument, so a
string can move from one argument to the other.

* `rpChallengeBytes_binds_iff`: a challenge binds its origin and nonce but for a string that the
  origin ends with and the nonce could begin with.
* `computeReplayTag_binds_iff`: a tag binds its arguments but for a string between two separators.
* `rpChallengeBytes_inj_of_length`, `computeReplayTag_inj_of_length`: arguments of one length are
  bound.
-/

namespace ProviiCrypto.Protocol

open Number Coding

/-! ## Challenges -/

variable {origin nonce origin' nonce' : List UInt8}

theorem rpChallengeBytes_eq_iff : rpChallengeBytes origin nonce = rpChallengeBytes origin' nonce' ↔
    (origin = origin' ∧ nonce = nonce') ∨ Shifted origin nonce origin' nonce' ∨
      Shifted origin' nonce' origin nonce := by
  unfold rpChallengeBytes
  rw [List.append_cancel_right_eq]
  exact append_eq_append_iff_shifted

/-- Challenges with nonces of one length are bound. -/
theorem rpChallengeBytes_inj_of_length (hlen : nonce.length = nonce'.length)
    (heq : rpChallengeBytes origin nonce = rpChallengeBytes origin' nonce') :
    origin = origin' ∧ nonce = nonce' := by
  rcases rpChallengeBytes_eq_iff.mp heq with h | h | h
  · exact h
  · exact absurd h.length_lt.2 (by omega)
  · exact absurd h.length_lt.2 (by omega)

/-- **When a challenge binds its origin and nonce**: unless one origin is the other followed by a
string that the other's nonce begins with, and the nonces agree from there on. -/
theorem rpChallengeBytes_binds_iff (origin nonce origin' nonce' : List UInt8) :
    (rpChallengeBytes origin nonce = rpChallengeBytes origin' nonce' →
      origin = origin' ∧ nonce = nonce') ↔
    ¬ (∃ w, w ≠ [] ∧ origin' = origin ++ w ∧ nonce = w ++ nonce') ∧
      ¬ ∃ w, w ≠ [] ∧ origin = origin' ++ w ∧ nonce' = w ++ nonce := by
  constructor
  · intro hbinds
    constructor
    · intro (hshift : Shifted origin nonce origin' nonce')
      obtain ⟨rfl, -⟩ := hbinds (rpChallengeBytes_eq_iff.mpr (.inr (.inl hshift)))
      exact absurd hshift.length_lt.1 (lt_irrefl _)
    · intro (hshift : Shifted origin' nonce' origin nonce)
      obtain ⟨rfl, -⟩ := hbinds (rpChallengeBytes_eq_iff.mpr (.inr (.inr hshift)))
      exact absurd hshift.length_lt.1 (lt_irrefl _)
  · rintro ⟨hright, hleft⟩ heq
    rcases rpChallengeBytes_eq_iff.mp heq with h | h | h
    · exact h
    · exact absurd h hright
    · exact absurd h hleft

/-- Two origins with one challenge, whatever the hash. -/
theorem rpChallenge_shared_by_origins :
    ¬ (∀ origin nonce origin' nonce' : List UInt8,
      rpChallengeBytes origin nonce = rpChallengeBytes origin' nonce' →
        origin = origin' ∧ nonce = nonce') ∧
    ∀ sha256 : List UInt8 → Bytes 32,
      rpChallenge sha256 (ascii "https://rp.example") (ascii ".net0123") =
        rpChallenge sha256 (ascii "https://rp.example.net") (ascii "0123") := by
  have heq : rpChallengeBytes (ascii "https://rp.example") (ascii ".net0123") =
      rpChallengeBytes (ascii "https://rp.example.net") (ascii "0123") := by decide
  constructor
  · intro h
    exact absurd (h _ _ _ _ heq).1 (by decide)
  · intro sha256
    exact congrArg sha256 heq

/-! ## Replay tags -/

variable {originHash originHash' : List UInt8}

theorem computeReplayTag_eq_iff :
    computeReplayTag originHash nonce = computeReplayTag originHash' nonce' ↔
      (originHash = originHash' ∧ nonce = nonce') ∨
        ShiftedOver 0x3A originHash nonce originHash' nonce' ∨
        ShiftedOver 0x3A originHash' nonce' originHash nonce := by
  unfold computeReplayTag
  rw [base64Url_injective.eq_iff, show ascii ":" = [0x3A] by decide, List.append_assoc,
    List.append_assoc]
  exact append_cons_eq_append_cons_iff

/-- Tags of origin hashes of one length are bound. -/
theorem computeReplayTag_inj_of_length (hlen : originHash.length = originHash'.length)
    (heq : computeReplayTag originHash nonce = computeReplayTag originHash' nonce') :
    originHash = originHash' ∧ nonce = nonce' := by
  rcases computeReplayTag_eq_iff.mp heq with h | h | h
  · exact h
  · exact absurd h.length_lt.1 (by omega)
  · exact absurd h.length_lt.1 (by omega)

/-- **When a replay tag binds its arguments**: unless one origin hash is the other followed by a
separator and a string, and the other's nonce is that string, a separator and the one's nonce. -/
theorem computeReplayTag_binds_iff (originHash nonce originHash' nonce' : List UInt8) :
    (computeReplayTag originHash nonce = computeReplayTag originHash' nonce' →
      originHash = originHash' ∧ nonce = nonce') ↔
    ¬ (∃ w, originHash' = originHash ++ 0x3A :: w ∧ nonce = w ++ 0x3A :: nonce') ∧
      ¬ ∃ w, originHash = originHash' ++ 0x3A :: w ∧ nonce' = w ++ 0x3A :: nonce := by
  constructor
  · intro hbinds
    constructor
    · intro (hshift : ShiftedOver 0x3A originHash nonce originHash' nonce')
      obtain ⟨rfl, -⟩ := hbinds (computeReplayTag_eq_iff.mpr (.inr (.inl hshift)))
      exact absurd hshift.length_lt.1 (lt_irrefl _)
    · intro (hshift : ShiftedOver 0x3A originHash' nonce' originHash nonce)
      obtain ⟨rfl, -⟩ := hbinds (computeReplayTag_eq_iff.mpr (.inr (.inr hshift)))
      exact absurd hshift.length_lt.1 (lt_irrefl _)
  · rintro ⟨hright, hleft⟩ heq
    rcases computeReplayTag_eq_iff.mp heq with h | h | h
    · exact h
    · exact absurd h hright
    · exact absurd h hleft

/-- Two sessions with one tag: the nonce of the first contains a separator. -/
theorem computeReplayTag_shared_by_sessions :
    ¬ ∀ originHash nonce originHash' nonce' : List UInt8,
      computeReplayTag originHash nonce = computeReplayTag originHash' nonce' →
        originHash = originHash' ∧ nonce = nonce' := by
  have heq : computeReplayTag (ascii "a") (ascii "b:c") =
      computeReplayTag (ascii "a:b") (ascii "c") := by decide
  intro h
  exact absurd (h _ _ _ _ heq).1 (by decide)

end ProviiCrypto.Protocol
